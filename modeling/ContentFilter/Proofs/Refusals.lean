import ContentFilter.Proofs.Completed
import ContentFilter.Proofs.RoundTrip

/-!
A run on a channel or a journal that may refuse, beside the run of the same arrivals on a desk that
refuses nothing. Step by step the two do the same; at the first refusal the one run ends, and what
it has sent is the beginning of what the other one sends. `converse_begins` says so of any dialogue.
-/

namespace ContentFilter

namespace Desk

/-- The desk with a channel and a journal that refuse nothing. -/
def unhindered (desk : Desk) : Desk where
  memory := desk.memory
  sink := { outlet := { desk.sink.outlet with room := none } }
  journal := { desk.journal with file := { desk.journal.file with room := none } }

theorem free_unhindered (desk : Desk) : desk.unhindered.Free := ⟨⟨rfl, rfl⟩, rfl⟩

/-- Both remember and have sent the same, and the second one refuses nothing. -/
structure Beside (desk other : Desk) : Prop where
  free : other.Free
  remembered : desk.memory = other.memory
  sent : desk.sink.outlet.contents = other.sink.outlet.contents

theorem beside_unhindered (desk : Desk) : desk.Beside desk.unhindered :=
  ⟨desk.free_unhindered, rfl, rfl⟩

end Desk

namespace Effect

theorem perform_sent (effect : Effect) (desk : Desk) :
    ∃ taken, taken <+: Packet.encodeAll effect.packets ∧
      (effect.perform desk).state.sink.outlet.contents =
        desk.sink.outlet.contents ++ taken := by
  cases effect with
  | send payload =>
      simp only [perform, Sink.send, packets, Packet.encodeAll_cons]
      split
      · exact ⟨[], List.nil_prefix, by simp [Progress.map, Progress.state]⟩
      · obtain ⟨taken, begins, written⟩ := desk.sink.write_contents (Packet.data payload).encode
        refine ⟨taken, begins.trans (List.prefix_append _ _), ?_⟩
        rw [← written]
        cases desk.sink.write (Packet.data payload).encode <;> rfl
  | flush =>
      simp only [perform, Sink.flush, packets, Packet.encodeAll_cons]
      obtain ⟨taken, begins, written⟩ := desk.sink.write_contents Packet.flush.encode
      refine ⟨taken, begins.trans (List.prefix_append _ _), ?_⟩
      rw [← written]
      cases desk.sink.write Packet.flush.encode with
      | halted failure sink => rfl
      | on sink =>
          simp only [Progress.on_andThen, Sink.push]
          split
          · split <;> rfl
          · rfl
  | note remark =>
      refine ⟨[], List.nil_prefix, ?_⟩
      simp only [perform]
      cases desk.journal.note remark <;> simp [Progress.map, Progress.state]
  | remember memory => exact ⟨[], List.nil_prefix, by simp [perform, Progress.state]⟩

/-- What one effect does on two desks side by side: the same, unless one of them refuses it. -/
theorem perform_beside (effect : Effect) (desk other : Desk) (beside : desk.Beside other) :
    (∃ after late, effect.perform desk = .on after ∧ effect.perform other = .on late ∧
      after.Beside late) ∨
    ∃ failure after, effect.perform desk = .halted failure after ∧
      after.sink.outlet.contents <+: (effect.perform other).state.sink.outlet.contents := by
  obtain ⟨taken, begins, sent⟩ := effect.perform_sent desk
  by_cases fits : ∀ payload, effect = .send payload → payload.length ≤ Packet.maxPayload
  · obtain ⟨late, performed, moved⟩ := effect.perform_free other beside.free fits
    cases went : effect.perform desk with
    | on after =>
        obtain ⟨remembered, whole⟩ := effect.perform_on desk after went
        refine .inl ⟨after, late, rfl, performed, moved.free, ?_, ?_⟩
        · rw [remembered, moved.remembered, beside.remembered]
        · rw [whole, moved.sent, beside.sent]
    | halted failure after =>
        refine .inr ⟨failure, after, rfl, ?_⟩
        rw [went] at sent
        simp only [Progress.state] at sent
        rw [performed, sent, beside.sent]
        simp only [Progress.state, moved.sent]
        exact (List.prefix_append_right_inj _).mpr begins
  · -- A payload that is too large goes out on neither desk.
    obtain ⟨payload, rfl, large⟩ : ∃ payload, effect = .send payload ∧
        Packet.maxPayload < payload.length := by
      simpa using fits
    have refused (desk : Desk) : (Effect.send payload).perform desk =
        .halted (.violation (.oversizePayload payload.length)) desk := by
      simp only [perform, Sink.send_oversize payload large, Progress.map]
    refine .inr ⟨_, desk, refused desk, ?_⟩
    rw [refused other, beside.sent]
    exact List.prefix_rfl

end Effect

namespace Dialogue

variable {Phase : Type} {dialogue : Dialogue Phase}

theorem step_sent (now later : Instant Phase) (step : dialogue.Step now later) :
    now.desk.sink.outlet.contents <+: later.desk.sink.outlet.contents := by
  cases step with
  | fault | closed | packet | settled => exact List.prefix_rfl
  | @performed effect _ _ _ _ desk after went | @halted effect _ _ _ _ desk after _ went =>
      obtain ⟨taken, _, sent⟩ := effect.perform_sent desk
      rw [went] at sent
      exact ⟨taken, sent.symm⟩

theorem steps_sent (now later : Instant Phase) (steps : dialogue.Steps now later) :
    now.desk.sink.outlet.contents <+: later.desk.sink.outlet.contents := by
  refine steps.keep (fun instant => now.desk.sink.outlet.contents <+:
    instant.desk.sink.outlet.contents) List.prefix_rfl ?_
  intro first second step before
  exact before.trans (step_sent first second step)

end Dialogue

namespace Instant

variable {Phase : Type}

/-- Both runs are about to do the same, and the second one refuses nothing. -/
structure Beside (now other : Instant Phase) : Prop where
  activity : now.activity = other.activity
  heard : now.heard = other.heard
  source : now.source = other.source
  desk : now.desk.Beside other.desk

/-- The first run has failed; the second one has sent everything that it had sent. -/
structure Behind (now other : Instant Phase) : Prop where
  failed : ∃ failure, now.activity = .ended (some failure)
  sent : now.desk.sink.outlet.contents <+: other.desk.sink.outlet.contents

end Instant

namespace Dialogue

variable {Phase : Type} {dialogue : Dialogue Phase}

theorem step_beside (now later other : Instant Phase) (step : dialogue.Step now later)
    (beside : now.Beside other) :
    ∃ next, dialogue.Step other next ∧ (later.Beside next ∨ later.Behind next) := by
  obtain ⟨activity, heard, source, desk⟩ := other
  obtain ⟨acts, hears, reads, beside⟩ := beside
  cases step with
  | fault read =>
      cases acts; cases hears; cases reads
      exact ⟨_, .fault read, .inl ⟨rfl, rfl, rfl, beside⟩⟩
  | closed read =>
      cases acts; cases hears; cases reads
      exact ⟨_, .closed read, .inl ⟨rfl, rfl, rfl, beside⟩⟩
  | packet read =>
      cases acts; cases hears; cases reads
      have same := beside.remembered
      dsimp only at same
      exact ⟨_, .packet read, .inl ⟨by simp only [same], rfl, rfl, beside⟩⟩
  | settled =>
      cases acts; cases hears; cases reads
      exact ⟨_, .settled, .inl ⟨rfl, rfl, rfl, beside⟩⟩
  | @performed effect effects next _ _ before after went =>
      cases acts; cases hears; cases reads
      rcases effect.perform_beside before desk beside with
        ⟨reached, late, performed, alsoPerformed, further⟩ | ⟨failure, reached, halted, _⟩
      · rw [went] at performed
        cases performed
        exact ⟨_, .performed alsoPerformed, .inl ⟨rfl, rfl, rfl, further⟩⟩
      · rw [went] at halted
        cases halted
  | @halted effect effects next _ _ before after failure went =>
      cases acts; cases hears; cases reads
      rcases effect.perform_beside before desk beside with
        ⟨reached, late, performed, _⟩ | ⟨failure, reached, halted, begins⟩
      · rw [went] at performed
        cases performed
      · rw [went] at halted
        cases halted
        cases other : effect.perform desk with
        | on late =>
            rw [other] at begins
            exact ⟨_, .performed other, .inr ⟨⟨_, rfl⟩, begins⟩⟩
        | halted problem late =>
            rw [other] at begins
            exact ⟨_, .halted other, .inr ⟨⟨_, rfl⟩, begins⟩⟩

theorem steps_beside (start now other : Instant Phase) (steps : dialogue.Steps start now)
    (beside : start.Beside other) :
    ∃ next, dialogue.Steps other next ∧ (now.Beside next ∨ now.Behind next) := by
  apply steps.keep fun now =>
    ∃ next, dialogue.Steps other next ∧ (now.Beside next ∨ now.Behind next)
  · exact ⟨other, .refl, .inl beside⟩
  · rintro first second step ⟨next, onward, further | behind⟩
    · obtain ⟨last, one, settled⟩ := step_beside first second next step further
      exact ⟨last, onward.tail one, settled⟩
    · obtain ⟨failure, ended⟩ := behind.failed
      have finished : first.ending? = some ⟨some failure, first.source, first.desk⟩ := by
        rw [Instant.ending?, ended]
      exact absurd step (not_step_ended first second _ finished)

variable (dialogue)

/-- Whatever is refused, what a run has sent is the beginning of what it would have sent. -/
theorem converse_begins (phase : Phase) (source : Source) (desk : Desk) :
    (dialogue.converse phase source desk).desk.sink.outlet.contents <+:
      (dialogue.converse phase source desk.unhindered).desk.sink.outlet.contents := by
  obtain ⟨last, steps, ended⟩ := steps_converse dialogue phase [] source desk
  obtain ⟨other, others, also⟩ := steps_converse dialogue phase [] source desk.unhindered
  obtain ⟨next, onward, settled⟩ := steps_beside _ last
    ⟨.reading phase, [], source, desk.unhindered⟩ steps ⟨rfl, rfl, rfl, desk.beside_unhindered⟩
  have begins : last.desk.sink.outlet.contents <+: next.desk.sink.outlet.contents := by
    rcases settled with beside | behind
    · exact beside.desk.sent ▸ List.prefix_rfl
    · exact behind.sent
  have further := steps_sent next other (steps_onward _ next other onward others _ also)
  rw [last.desk_of_ending? _ ended, other.desk_of_ending? _ also]
  exact begins.trans further

end Dialogue

end ContentFilter
