import ContentFilter.Proofs.Iterated
import ContentFilter.Wire.Framing

/-!
One byte string in two ways of arriving. Two sources are alike if they bring the same bytes, in
whatever pieces and with whatever interruptions. `next_alike` says that one packet is read off them
alike; by induction on the bytes so is everything a dialogue does, whatever the channel and the
journal refuse. `attend_fragmented` says so of a whole session, for two runs that meet the entries
of the waitlist in the same orders; what other orders change is left to `attend_reordered`.
-/

namespace ContentFilter

theorem Packet.first_suffix (raw : Bytes) : (first raw).2 <:+ raw := by
  have behind : raw.drop headerSize <:+ raw := List.drop_suffix headerSize raw
  have beyond (size : Nat) : (raw.drop headerSize).drop size <:+ raw :=
    (List.drop_suffix size _).trans behind
  unfold first
  dsimp only
  split
  · exact behind
  · split
    · exact behind
    · exact behind
    · rename_i size _
      split <;> exact beyond size

namespace Source

/-- The same bytes, and no read fails for good. -/
structure Alike (left right : Source) : Prop where
  clearLeft : left.Faultless
  clearRight : right.Faultless
  same : left.bytes = right.bytes

theorem next_alike (left right : Source) (alike : left.Alike right) :
    ∃ outcome leftRest rightRest, left.next = (outcome, leftRest) ∧
      right.next = (outcome, rightRest) ∧ leftRest.Alike rightRest ∧
      leftRest.bytes <:+ left.bytes := by
  obtain ⟨leftRest, readLeft, clearLeft, behindLeft⟩ := left.next_faultless alike.clearLeft
  obtain ⟨rightRest, readRight, clearRight, behindRight⟩ := right.next_faultless alike.clearRight
  rw [← alike.same] at readRight behindRight
  refine ⟨_, leftRest, rightRest, readLeft, readRight, ?_, ?_⟩
  · exact ⟨clearLeft, clearRight, behindLeft.trans behindRight.symm⟩
  · rw [behindLeft]
    exact Packet.first_suffix left.bytes

end Source

/-- Two endings of a run on `raw` that differ in nothing but the pieces of what is left unread. -/
structure Ending.Alike (raw : Bytes) (first second : Ending) : Prop where
  failure : first.failure? = second.failure?
  desk : first.desk = second.desk
  sources : first.source.Alike second.source
  unread : first.source.bytes <:+ raw

namespace Ending

end Ending

namespace Dialogue

variable {Phase : Type} (dialogue : Dialogue Phase)

theorem part_alike (farewell : Farewell) (left right : Source) (alike : left.Alike right)
    (desk : Desk) : (part farewell left desk).Alike left.bytes (part farewell right desk) := by
  unfold part
  cases Effect.performAll farewell.effects desk with
  | halted failure after => exact ⟨rfl, rfl, alike, List.suffix_rfl⟩
  | on after => exact ⟨rfl, rfl, alike, List.suffix_rfl⟩

theorem react_alike (reaction : Reaction Phase) (left right : Source) (alike : left.Alike right)
    (desk : Desk) (goLeft goRight : Phase → Desk → Ending)
    (onward : ∀ phase after, (goLeft phase after).Alike left.bytes (goRight phase after)) :
    (react reaction left desk goLeft).Alike left.bytes (react reaction right desk goRight) := by
  unfold react
  cases Effect.performAll reaction.effects desk with
  | halted failure after => exact ⟨rfl, rfl, alike, List.suffix_rfl⟩
  | on after =>
      cases reaction.next with
      | fail failure => exact ⟨rfl, rfl, alike, List.suffix_rfl⟩
      | finish => exact ⟨rfl, rfl, alike, List.suffix_rfl⟩
      | await phase => exact onward phase after

theorem converse_alike (phase : Phase) (left right : Source) (alike : left.Alike right)
    (desk : Desk) :
    (dialogue.converse phase left desk).Alike left.bytes (dialogue.converse phase right desk) := by
  -- Each packet takes bytes away from both sources; the count is kept for the left one.
  induction size : left.unread using Nat.strongRecOn generalizing phase left right desk with
  | ind unread ih =>
      obtain ⟨outcome, leftRest, rightRest, readLeft, readRight, rests, unreadRest⟩ :=
        left.next_alike right alike
      have shorter (first second : Ending) (tail : first.Alike leftRest.bytes second) :
          first.Alike left.bytes second :=
        ⟨tail.failure, tail.desk, tail.sources, tail.unread.trans unreadRest⟩
      apply shorter
      cases outcome with
      | error failure =>
          rw [dialogue.converse_fault phase left leftRest desk failure readLeft,
            dialogue.converse_fault phase right rightRest desk failure readRight]
          exact ⟨rfl, rfl, rests, List.suffix_rfl⟩
      | ok found =>
          cases found with
          | none =>
              rw [dialogue.converse_closed phase left leftRest desk readLeft,
                dialogue.converse_closed phase right rightRest desk readRight]
              exact part_alike _ leftRest rightRest rests desk
          | some packet =>
              have fewer := Source.next_shrinks left leftRest packet readLeft
              simp only [Packet.headerSize] at fewer
              rw [dialogue.converse_packet phase left leftRest desk packet readLeft,
                dialogue.converse_packet phase right rightRest desk packet readRight]
              apply react_alike _ leftRest rightRest rests desk
              intro next after
              exact ih leftRest.unread (by omega) next leftRest rightRest rests after rfl

end Dialogue

namespace Service

theorem exchange_alike (iteration : Iteration) (now : Nat × Exchange.Phase) (left right : Source)
    (alike : left.Alike right) (desk : Desk) :
    ((Exchange.stirring iteration).converse now left desk).Alike left.bytes
      ((Exchange.stirring iteration).converse now right desk) :=
  (Exchange.stirring iteration).converse_alike now left right alike desk

end Service

end ContentFilter
