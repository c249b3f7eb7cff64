import ContentFilter.Reserved

/-!
One delayed pathname. A ticket starts idle, is asked for once, and is then filled with the output
that a later request will fetch; it never moves back. The output lives in the last stage, so a
ticket has one exactly when it is filled. The countdown runs from the moment the ticket is asked
for, whether or not it has been filled.
-/

namespace ContentFilter

inductive Stage where
  | idle
  | asked
  | filled (output : Bytes)
  deriving DecidableEq, Repr

namespace Stage

/-- How far along the stage is. -/
def rank : Stage → Nat
  | .idle => 0
  | .asked => 1
  | .filled _ => 2

def output? : Stage → Option Bytes
  | .filled output => some output
  | _ => none

instance : Inhabited Stage := ⟨.idle⟩

end Stage

structure Ticket where
  remaining : Nat
  stage : Stage := .idle
  deriving DecidableEq, Repr

namespace Ticket

/-- The countdown of a ticket that is made on the fly. -/
def onTheFly : Nat := 1

def isAsked (ticket : Ticket) : Bool := ticket.stage != .idle

/-- Idle to asked; no other ticket can be asked for. -/
def ask? (ticket : Ticket) : Option Ticket :=
  match ticket.stage with
  | .idle => some { ticket with stage := .asked }
  | _ => none

/-- Asked to filled; no other ticket takes an output. -/
def fill? (output : Bytes) (ticket : Ticket) : Option Ticket :=
  match ticket.stage with
  | .asked => some { ticket with stage := .filled output }
  | _ => none

/-- Whether the next list query brings the countdown from one to zero. -/
def isDue (ticket : Ticket) : Bool := ticket.isAsked && ticket.remaining == 1

/-- One list query passes. An idle ticket does not count, and a countdown stops at zero. -/
def countDown (ticket : Ticket) : Ticket :=
  if ticket.isAsked then { ticket with remaining := ticket.remaining - 1 } else ticket

theorem ask?_eq_some_iff (before after : Ticket) :
    before.ask? = some after ↔
      ∃ remaining, before = ⟨remaining, .idle⟩ ∧ after = ⟨remaining, .asked⟩ := by
  obtain ⟨remaining, stage⟩ := before
  cases stage <;> simp [ask?, eq_comm]

theorem fill?_eq_some_iff (output : Bytes) (before after : Ticket) :
    before.fill? output = some after ↔
      ∃ remaining, before = ⟨remaining, .asked⟩ ∧ after = ⟨remaining, .filled output⟩ := by
  obtain ⟨remaining, stage⟩ := before
  cases stage <;> simp [fill?, eq_comm]

theorem countDown_stage (ticket : Ticket) : ticket.countDown.stage = ticket.stage := by
  unfold countDown
  split <;> rfl

end Ticket

end ContentFilter
