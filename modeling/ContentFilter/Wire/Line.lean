import ContentFilter.Wire.Source

/-!
Packets read as lines of text. One newline at the end belongs to the transport and is removed;
anything else in the payload, further newlines included, belongs to the line. The readers on
`Source` add what the end of the arrivals means in each place.
-/

namespace ContentFilter

namespace Packet

def withoutNewline (payload : Bytes) : Bytes :=
  if payload.getLast? = some Text.newline then payload.dropLast else payload

def text (payload : Bytes) : Except Violation String :=
  let line := withoutNewline payload
  match Text.ofBytes? line with
  | some text => .ok text
  | none => .error (.notText line)

/-- The line a packet carries; `none` for the flush that closes a group of lines. -/
def line? : Packet → Except Violation (Option String)
  | .data payload => (text payload).map some
  | .flush => .ok none

/-- The value of a line `key=value`, which is never empty. A flush counts as an empty line. -/
def field (key : String) (packet : Packet) : Except Violation String :=
  match packet.line? with
  | .error what => .error what
  | .ok found =>
      let line := found.getD ""
      match Text.after? (key ++ "=") line with
      | some value => if value = "" then .error (.badLine key line) else .ok value
      | none => .error (.badLine key line)

/-- Accepts the flush that ends a group; `what` names the place in the message. -/
def closing (what : String) : Packet → Except Violation Unit
  | .flush => .ok ()
  | .data payload => .error (.notFlush what payload)

end Packet

namespace Source

/-- Reads one packet and interprets it; `atEnd` answers for the end of the arrivals. -/
def reading {Result : Type} (source : Source) (atEnd : Except Violation Result)
    (interpret : Packet → Except Violation Result) : Except Failure Result × Source :=
  match source.next with
  | (.error failure, rest) => (.error failure, rest)
  | (.ok none, rest) => (atEnd.mapError .violation, rest)
  | (.ok (some packet), rest) => ((interpret packet).mapError .violation, rest)

def line (source : Source) : Except Failure (Option String) × Source :=
  source.reading (.error .endInLine) Packet.line?

/-- `none` when the driver has closed the channel. -/
def field? (key : String) (source : Source) : Except Failure (Option String) × Source :=
  source.reading (.ok none) fun packet => (packet.field key).map some

def closing (what : String) (source : Source) : Except Failure Unit × Source :=
  source.reading (.error (.endBefore what)) (Packet.closing what)

/-- Collects payloads up to the flush that ends them. -/
def contentOnto (got : Array UInt8) (source : Source) : Except Failure Bytes × Source :=
  match read : source.next with
  | (.error failure, rest) => (.error failure, rest)
  | (.ok none, rest) => (.error (.violation .endInContent), rest)
  | (.ok (some .flush), rest) => (.ok got.toList, rest)
  | (.ok (some (.data payload)), rest) =>
      have := next_shrinks source rest _ read
      contentOnto (got ++ payload) rest
termination_by source.unread
decreasing_by simp only [Packet.headerSize] at this; omega

def content (source : Source) : Except Failure Bytes × Source := contentOnto #[] source

end Source

end ContentFilter
