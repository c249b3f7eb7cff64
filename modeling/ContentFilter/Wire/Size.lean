/-!
The sizes of the wire. A packet counts its own header, so the payload of the largest packet is
four bytes shorter than the packet.
-/

namespace ContentFilter.Packet

def headerSize : Nat := 4

/-- The largest packet, header included. -/
def maxSize : Nat := 65520

def maxPayload : Nat := maxSize - headerSize

end ContentFilter.Packet
