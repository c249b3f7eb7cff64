import ContentFilter.Journal
import ContentFilter.Memory
import ContentFilter.Wire.Sink

/-!
What a filter does besides reading, as values. A reaction lists its effects in order; `perform`
carries them out on a desk until the first one fails. Later effects are then not begun, and what
was done before stays done.
-/

namespace ContentFilter

/-- Everything a filter works on except what it reads. -/
structure Desk where
  memory : Memory
  sink : Sink
  journal : Journal

inductive Effect where
  /-- Sends one data packet. -/
  | send (payload : Bytes)
  /-- Sends a flush packet and pushes everything sent so far to the driver. -/
  | flush
  | note (remark : Remark)
  /-- From here on this is remembered. -/
  | remember (memory : Memory)

namespace Effect

def say (line : String) : Effect := .send (Text.bytes line)

def perform (desk : Desk) : Effect → Progress Desk
  | .send payload => (desk.sink.send payload).map fun sink => { desk with sink }
  | .flush => desk.sink.flush.map fun sink => { desk with sink }
  | .note remark => (desk.journal.note remark).map fun journal => { desk with journal }
  | .remember memory => .on { desk with memory }

def performAll : List Effect → Desk → Progress Desk
  | [], desk => .on desk
  | effect :: rest, desk => (effect.perform desk).andThen (performAll rest)

theorem performAll_append (first second : List Effect) (desk : Desk) :
    performAll (first ++ second) desk =
      (performAll first desk).andThen (performAll second) := by
  induction first generalizing desk with
  | nil => rfl
  | cons effect rest ih =>
      simp only [List.cons_append, performAll, Progress.andThen_assoc]
      congr 1
      funext reached
      exact ih reached

end Effect

end ContentFilter
