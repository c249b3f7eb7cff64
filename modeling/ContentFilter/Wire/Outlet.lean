import ContentFilter.Text

/-!
A place that accepts bytes until its room is used up: the driver's end of the channel, or the
file behind a journal. What has been accepted is never taken back.
-/

namespace ContentFilter

structure Outlet where
  accepted : Array UInt8 := #[]
  /-- How many more bytes are accepted; `none` for any number. -/
  room : Option Nat := none
  /-- What is said when bytes are refused. -/
  refusal : String := ""
  deriving DecidableEq, Repr

namespace Outlet

def contents (outlet : Outlet) : Bytes := outlet.accepted.toList

/-- Accepts as many of the bytes as there is room for and gives back the others. -/
def write (outlet : Outlet) (raw : Bytes) : Bytes × Outlet :=
  match outlet.room with
  | none => ([], { outlet with accepted := outlet.accepted ++ raw })
  | some room =>
      let taken := raw.take room
      (raw.drop room,
        { outlet with accepted := outlet.accepted ++ taken, room := some (room - taken.length) })

theorem write_contents (outlet : Outlet) (raw : Bytes) :
    (outlet.write raw).2.contents ++ (outlet.write raw).1 = outlet.contents ++ raw := by
  unfold write
  cases outlet.room <;> simp [contents]

theorem write_free (outlet : Outlet) (raw : Bytes) (free : outlet.room = none) :
    (outlet.write raw).1 = [] ∧ (outlet.write raw).2.room = none := by
  simp [write, free]

end Outlet

end ContentFilter
