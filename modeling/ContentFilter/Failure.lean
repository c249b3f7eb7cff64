import ContentFilter.Delay.Waitlist
import ContentFilter.Wire.Size

/-!
Every way a session can end other than the driver closing the channel. None of them is reported
to the driver: it sees the channel close. A failure is kept as its cause; `message` is the one
place that words it.
-/

namespace ContentFilter

/-- What the driver did against the protocol. -/
inductive Violation where
  /-- The channel ended inside a header. -/
  | shortHeader (got : Nat)
  | badHeader (header : Bytes)
  /-- A size below that of a header, other than zero. -/
  | reservedSize (size : Nat)
  | oversize (size : Nat)
  /-- The channel ended inside a payload. -/
  | shortPayload (got want : Nat)
  /-- A payload that the filter itself was about to send. -/
  | oversizePayload (size : Nat)
  | notText (line : Bytes)
  | endInLine
  | endInContent
  | endBeforePathname
  | endBefore (what : String)
  | notFlush (what : String) (payload : Bytes)
  /-- Another line was expected in this place. -/
  | badLine (what line : String)
  /-- A detail of a request that is not known. -/
  | unknownDetail (line : String)
  /-- The driver did not name a capability that every session needs. -/
  | lacksRequired (capability : Capability)
  /-- The driver did not name a capability that this filter offers. -/
  | lacksOffered (capability : Capability)
  deriving DecidableEq, Repr

namespace Violation

def message : Violation → String
  | .shortHeader got =>
      s!"truncated packet header ({got} of {Packet.headerSize} bytes)"
  | .badHeader header => s!"bad packet header '{Text.display header}'"
  | .reservedSize size => s!"unexpected special packet '000{size}'"
  | .oversize size => s!"packet length {size} exceeds maximum of {Packet.maxSize}"
  | .shortPayload got want => s!"truncated packet ({got} of {want} payload bytes)"
  | .oversizePayload size =>
      s!"packet payload of {size} bytes exceeds maximum of {Packet.maxPayload}"
  | .notText line => s!"line is not valid UTF-8: '{Text.display line}'"
  | .endInLine => "unexpected EOF while reading a line"
  | .endInContent => "unexpected EOF while reading content"
  | .endBeforePathname => "unexpected EOF while expecting pathname"
  | .endBefore what => s!"bad {what}: unexpected EOF"
  | .notFlush what payload => s!"bad {what}: '{Text.display payload}'"
  | .badLine what line => s!"bad {what}: '{line}'"
  | .unknownDetail line => s!"Unknown message '{line}'"
  | .lacksRequired capability =>
      s!"required '{capability.name}' capability not available from remote"
  | .lacksOffered capability =>
      s!"our capability '{capability.name}' is not available from remote"

end Violation

inductive Failure where
  /-- The channel itself failed. -/
  | channel (reason : String)
  | journal (path : String) (reason : String)
  | violation (what : Violation)
  /-- A command that is unknown or whose capability is not in force. -/
  | unsupported (command : String)
  /-- The planned death after success was declared. -/
  | brokenOff (command : Command)
  | duplicate (what : Duplicate)
  deriving DecidableEq, Repr

namespace Failure

def message : Failure → String
  | .channel reason => s!"I/O error on filter channel: {reason}"
  | .journal path reason => s!"I/O error at {path}: {reason}"
  | .violation what => s!"protocol violation: {what.message}"
  | .unsupported command => s!"bad command '{command}'"
  | .brokenOff command => s!"{command.name} write error"
  | .duplicate what => s!"registry error: {what.message}"

/-- The text of the failure underneath, for those that pass one on. -/
def cause? : Failure → Option String
  | .channel reason => some reason
  | .journal _ reason => some reason
  | .duplicate what => some what.message
  | _ => none

end Failure

end ContentFilter
