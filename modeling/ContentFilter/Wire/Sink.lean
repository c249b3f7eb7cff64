import ContentFilter.Progress
import ContentFilter.Wire.Outlet
import ContentFilter.Wire.Packet

/-!
The filter's side of the outgoing channel. Every packet goes to the outlet at once; a flush packet
is followed by a flush call, which pushes everything written so far to the driver and may fail.
-/

namespace ContentFilter

structure Sink where
  outlet : Outlet := {}
  /-- For each flush call so far, failed ones included, how many bytes had been written. -/
  marks : Array Nat := #[]
  /-- The flush call, counted from zero, that fails, and with what text. -/
  flushFault : Option (Nat × String) := none
  deriving DecidableEq, Repr

namespace Sink

def written (sink : Sink) : Nat := sink.outlet.accepted.size

def write (sink : Sink) (raw : Bytes) : Progress Sink :=
  match sink.outlet.write raw with
  | ([], outlet) => .on { sink with outlet }
  | (_ :: _, outlet) => .halted (.channel outlet.refusal) { sink with outlet }

/-- One data packet. A payload above the limit is refused before anything is written. -/
def send (sink : Sink) (payload : Bytes) : Progress Sink :=
  let size := payload.length
  if Packet.maxPayload < size then .halted (.violation (.oversizePayload size)) sink
  else sink.write (Packet.data payload).encode

def sendLine (sink : Sink) (line : String) : Progress Sink := sink.send (Text.bytes line)

def sendAll : List Bytes → Sink → Progress Sink
  | [], sink => .on sink
  | payload :: rest, sink => (sink.send payload).andThen (sendAll rest)

/-- The flush call alone. -/
def push (sink : Sink) : Progress Sink :=
  let pushed := { sink with marks := sink.marks.push sink.written }
  match sink.flushFault with
  | some (index, reason) =>
      if index = sink.marks.size then .halted (.channel reason) pushed else .on pushed
  | none => .on pushed

def flush (sink : Sink) : Progress Sink := (sink.write Packet.flush.encode).andThen push

/-! ### What a write leaves behind -/

theorem write_state (sink : Sink) (raw : Bytes) :
    (sink.write raw).state = { sink with outlet := (sink.outlet.write raw).2 } := by
  unfold write
  split <;> rename_i written <;> simp [written, Progress.state]

/-- A refused write has still sent the beginning of its bytes, and nothing else. -/
theorem write_contents (sink : Sink) (raw : Bytes) :
    ∃ taken, taken <+: raw ∧
      (sink.write raw).state.outlet.contents = sink.outlet.contents ++ taken := by
  rw [write_state]
  cases room : sink.outlet.room with
  | none => exact ⟨raw, List.prefix_rfl, by simp [Outlet.write, room, Outlet.contents]⟩
  | some left =>
      exact ⟨raw.take left, List.take_prefix left raw,
        by simp [Outlet.write, room, Outlet.contents]⟩

theorem write_free (sink : Sink) (raw : Bytes) (free : sink.outlet.room = none) :
    ∃ outlet, sink.write raw = .on { sink with outlet } ∧ outlet.room = none ∧
      outlet.contents = sink.outlet.contents ++ raw := by
  simp [write, Outlet.write, free, Outlet.contents]

end Sink

end ContentFilter
