import ContentFilter.Effect
import ContentFilter.Wire.Line

/-!
A dialogue reacts to one packet at a time. Its phase says what it waits for; a packet is answered
by a list of effects and either a next phase, the end, or a failure. The end of the arrivals is
answered separately and leaves no phase to wait in, so with `Source.next_shrinks` every dialogue
on a finite source ends.
-/

namespace ContentFilter

inductive Next (Phase : Type) where
  | await (phase : Phase)
  | finish
  | fail (failure : Failure)
  deriving DecidableEq, Repr

structure Reaction (Phase : Type) where
  effects : List Effect := []
  next : Next Phase

namespace Reaction

variable {Phase : Type}

def violation (what : Violation) : Reaction Phase := { next := .fail (.violation what) }

end Reaction

/-- The reaction to the driver closing the channel. -/
structure Farewell where
  effects : List Effect := []
  failure? : Option Failure

structure Dialogue (Phase : Type) where
  hear : Memory → Phase → Packet → Reaction Phase
  hangUp : Phase → Farewell

/-- How a dialogue ended, what it left unread and what it left behind. -/
structure Ending where
  failure? : Option Failure
  source : Source
  desk : Desk

namespace Ending

/-- Goes on from an ending without failure. -/
def andThen (first : Ending) (step : Source → Desk → Ending) : Ending :=
  match first.failure? with
  | none => step first.source first.desk
  | some _ => first

end Ending

namespace Dialogue

variable {Phase : Type}

/-- Carries out the farewell of a phase in which the driver closed the channel. -/
def part (farewell : Farewell) (source : Source) (desk : Desk) : Ending :=
  match Effect.performAll farewell.effects desk with
  | .halted failure desk => ⟨some failure, source, desk⟩
  | .on desk => ⟨farewell.failure?, source, desk⟩

/-- Carries out a reaction; `goOn` is what is done in the next phase, if there is one. -/
@[inline] def react (reaction : Reaction Phase) (source : Source) (desk : Desk)
    (goOn : Phase → Desk → Ending) : Ending :=
  match Effect.performAll reaction.effects desk with
  | .halted failure desk => ⟨some failure, source, desk⟩
  | .on desk =>
      match reaction.next with
      | .fail failure => ⟨some failure, source, desk⟩
      | .finish => ⟨none, source, desk⟩
      | .await phase => goOn phase desk

/-- Reads and reacts until the dialogue ends. -/
def converse (dialogue : Dialogue Phase) (phase : Phase) (source : Source) (desk : Desk) :
    Ending :=
  match read : source.next with
  | (.error failure, rest) => ⟨some failure, rest, desk⟩
  | (.ok none, rest) => part (dialogue.hangUp phase) rest desk
  | (.ok (some packet), rest) =>
      -- The header that was read pays for the next round.
      have := Source.next_shrinks source rest packet read
      react (dialogue.hear desk.memory phase packet) rest desk fun phase desk =>
        converse dialogue phase rest desk
termination_by source.unread
decreasing_by simp only [Packet.headerSize] at this; omega

variable (dialogue : Dialogue Phase) (phase : Phase) (source rest : Source) (desk : Desk)

theorem converse_fault (failure : Failure) (read : source.next = (.error failure, rest)) :
    dialogue.converse phase source desk = ⟨some failure, rest, desk⟩ := by
  rw [converse]
  split <;> simp_all

theorem converse_closed (read : source.next = (.ok none, rest)) :
    dialogue.converse phase source desk = part (dialogue.hangUp phase) rest desk := by
  rw [converse]
  split <;> simp_all

theorem converse_packet (packet : Packet) (read : source.next = (.ok (some packet), rest)) :
    dialogue.converse phase source desk =
      react (dialogue.hear desk.memory phase packet) rest desk fun phase desk =>
        dialogue.converse phase rest desk := by
  rw [converse]
  split <;> simp_all

end Dialogue

end ContentFilter
