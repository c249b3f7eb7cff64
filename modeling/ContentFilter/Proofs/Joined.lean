import ContentFilter.Proofs.Aborts
import ContentFilter.Proofs.Fragments
import ContentFilter.Proofs.Truncation

/-!
Two runs and the run of both inputs joined. A run that ends well stops between two requests, with
nothing read ahead of it; a filter that goes on instead answers what comes next as a new run would.
Where the answers go makes no difference to them: `converse_level` puts a run on one desk beside
the run on another one, and `stirring_resumes` finds the first run inside the joined one.
-/

namespace ContentFilter

namespace Desk

/-- Between `before` and `after`, `sent` went out and `noted` was noted. -/
structure Adds (before : Desk) (sent noted : Bytes) (after : Desk) : Prop where
  free : after.Free
  sent : after.sink.outlet.contents = before.sink.outlet.contents ++ sent
  noted : after.journal.text = before.journal.text ++ noted

theorem adds_refl (desk : Desk) (free : desk.Free) : desk.Adds [] [] desk :=
  ⟨free, by simp, by simp⟩

theorem Adds.trans {before middle after : Desk} {sent more noted further : Bytes}
    (here : before.Adds sent noted middle) (there : middle.Adds more further after) :
    before.Adds (sent ++ more) (noted ++ further) after where
  free := there.free
  sent := by rw [there.sent, here.sent, List.append_assoc]
  noted := by rw [there.noted, here.noted, List.append_assoc]

theorem Adds.unique {before after : Desk} {sent sent' noted noted' : Bytes}
    (one : before.Adds sent noted after) (other : before.Adds sent' noted' after) :
    sent = sent' ∧ noted = noted' :=
  ⟨List.append_cancel_left (one.sent.symm.trans other.sent),
    List.append_cancel_left (one.noted.symm.trans other.noted)⟩

theorem Extends.adds {before after : Desk} (extended : before.Extends after) :
    ∃ sent noted, before.Adds sent noted after := by
  obtain ⟨sent, out⟩ := extended.sent
  obtain ⟨noted, text⟩ := extended.noted
  exact ⟨sent, noted, extended.free, out.symm, text.symm⟩

/-- What was done since `first` and what was done since `second` is the same. -/
structure Level (first second now other : Desk) : Prop where
  remembered : now.memory = other.memory
  added : ∃ sent noted, first.Adds sent noted now ∧ second.Adds sent noted other

theorem level_start (first second : Desk) (free : first.Free) (also : second.Free)
    (same : first.memory = second.memory) : Level first second first second :=
  ⟨same, [], [], first.adds_refl free, second.adds_refl also⟩

theorem Level.free {first second now other : Desk} (level : Level first second now other) :
    now.Free := by
  obtain ⟨_, _, one, _⟩ := level.added
  exact one.free

theorem Level.alsoFree {first second now other : Desk} (level : Level first second now other) :
    other.Free := by
  obtain ⟨_, _, _, two⟩ := level.added
  exact two.free

theorem Level.trans {first second middle beside now other : Desk}
    (here : Level first second middle beside) (there : Level middle beside now other) :
    Level first second now other := by
  obtain ⟨sent, noted, one, two⟩ := here.added
  obtain ⟨more, further, three, four⟩ := there.added
  exact ⟨there.remembered, sent ++ more, noted ++ further, one.trans three, two.trans four⟩

end Desk

/-! ### One run on two desks -/

namespace Effect

theorem perform_level (effect : Effect) (desk other : Desk) (free : desk.Free)
    (also : other.Free) (same : desk.memory = other.memory) :
    (∃ after late, effect.perform desk = .on after ∧ effect.perform other = .on late ∧
      Desk.Level desk other after late) ∨
    ∃ failure, effect.perform desk = .halted failure desk ∧
      effect.perform other = .halted failure other := by
  by_cases fits : ∀ payload, effect = .send payload → payload.length ≤ Packet.maxPayload
  · obtain ⟨after, performed, moved⟩ := effect.perform_free desk free fits
    obtain ⟨late, alsoPerformed, alsoMoved⟩ := effect.perform_free other also fits
    have remembered : after.memory = late.memory := by
      rw [moved.remembered, alsoMoved.remembered, same]
    exact .inl ⟨after, late, performed, alsoPerformed, remembered, _, _,
      ⟨moved.free, moved.sent, moved.noted⟩, ⟨alsoMoved.free, alsoMoved.sent, alsoMoved.noted⟩⟩
  · obtain ⟨failure, refused⟩ := effect.perform_large fits
    exact .inr ⟨failure, refused desk, refused other⟩

theorem performAll_extends (effects : List Effect) (desk : Desk) (free : desk.Free) :
    desk.Extends (performAll effects desk).state := by
  induction effects generalizing desk with
  | nil => exact desk.extends_refl free
  | cons effect rest ih =>
      have first := effect.perform_extends desk free
      simp only [performAll]
      cases went : effect.perform desk with
      | halted failure after =>
          rw [went] at first
          exact first
      | on after =>
          rw [went] at first
          exact first.trans (ih after first.free)

end Effect

namespace Dialogue

variable {Phase : Type} {dialogue : Dialogue Phase}

theorem step_level (first second : Desk) (now later : Instant Phase)
    (step : dialogue.Step now later) (desk : Desk) (level : Desk.Level first second now.desk desk) :
    ∃ after, dialogue.Step { now with desk } { later with desk := after } ∧
      Desk.Level first second later.desk after := by
  rcases step_cases now later step with ⟨kept, elsewhere⟩ | ⟨effect, effects, next, acts, rfl⟩
  · exact ⟨desk, elsewhere desk level.remembered, kept ▸ level⟩
  · have one : dialogue.Step _ _ := step_behind { now with desk } effect effects next acts
    dsimp only at one
    rcases effect.perform_level now.desk desk level.free level.alsoFree level.remembered with
      ⟨after, late, went, performed, further⟩ | ⟨failure, went, performed⟩
    · rw [went]
      rw [performed] at one
      exact ⟨late, one, level.trans further⟩
    · rw [went]
      rw [performed] at one
      exact ⟨desk, one, level⟩

theorem steps_level (first second : Desk) (start now : Instant Phase)
    (steps : dialogue.Steps start now) (desk : Desk)
    (level : Desk.Level first second start.desk desk) :
    ∃ after, dialogue.Steps { start with desk } { now with desk := after } ∧
      Desk.Level first second now.desk after := by
  apply steps.keep fun now => ∃ after,
    dialogue.Steps { start with desk } { now with desk := after } ∧
      Desk.Level first second now.desk after
  · exact ⟨desk, .refl, level⟩
  · rintro earlier later step ⟨after, onward, level⟩
    obtain ⟨last, one, further⟩ := step_level first second earlier later step after level
    exact ⟨last, onward.tail one, further⟩

variable (dialogue)

/-- What a run does depends on what is remembered, not on the desk. -/
theorem converse_level (phase : Phase) (source : Source) (desk other : Desk) (free : desk.Free)
    (also : other.Free) (same : desk.memory = other.memory) :
    (dialogue.converse phase source desk).failure? =
        (dialogue.converse phase source other).failure? ∧
      Desk.Level desk other (dialogue.converse phase source desk).desk
        (dialogue.converse phase source other).desk := by
  obtain ⟨last, steps, ended⟩ := dialogue.steps_converse phase [] source desk
  obtain ⟨after, others, level⟩ := steps_level desk other _ last steps other
    (desk.level_start other free also same)
  obtain ⟨acts, left, reached⟩ := (last.ending?_eq_some_iff _).mp ended
  have beside : dialogue.converse phase source other =
      ⟨(dialogue.converse phase source desk).failure?, last.source, after⟩ := by
    apply (dialogue.converse_eq_iff phase source other _).mpr
    exact ⟨_, others, (Instant.ending?_eq_some_iff _ _).mpr ⟨acts, rfl, rfl⟩⟩
  rw [beside, ← reached]
  exact ⟨rfl, level⟩

end Dialogue

/-! ### The first run inside the joined one -/

namespace Exchange

-- The first run ends well only where it waits for a command, and has read everything by then. The
-- packets that it has heard are the time at which the joined run goes on.
theorem stirring_resumes (iteration : Iteration) (time : Nat) (phase : Phase)
    (source whole : Source) (clear : source.Faultless) (wholeClear : whole.Faultless)
    (tail : Bytes) (longer : whole.bytes = source.bytes ++ tail) (desk : Desk) (free : desk.Free)
    (well : ((stirring iteration).converse (time, phase) source desk).failure? = none) :
    ∃ packets ended after left rest, source.Yields packets ended ∧
      ended.next = (.ok none, left) ∧ desk.Extends after ∧
      (stirring iteration).converse (time, phase) source desk =
        Dialogue.part (hangUp .command) left after ∧
      (stirring iteration).converse (time, phase) whole desk =
        (stirring iteration).converse (time + packets.length, .command) rest after ∧
      rest.Faultless ∧ rest.bytes = tail := by
  induction size : source.unread using Nat.strongRecOn
    generalizing time phase source whole desk with
  | ind unread ih =>
  cases next : source.next with
  | mk outcome left =>
  cases outcome with
  | error failure =>
      rw [Dialogue.converse_fault _ (time, phase) source left desk failure next] at well
      cases well
  | ok found =>
  cases found with
  | none =>
      have parted := (stirring iteration).converse_closed (time, phase) source left desk next
      have none := source.bytes_of_closed clear ⟨left, next⟩
      rw [none, List.nil_append] at longer
      rw [parted] at well
      cases phase with
      | command =>
          exact ⟨[], source, desk, left, whole, .done source, next, desk.extends_refl free, parted,
            rfl, wholeClear, longer⟩
      | listEnd | pathname | details | content => cases well
  | some packet =>
      have shorter := Source.next_shrinks source left packet next
      simp only [Packet.headerSize] at shorter
      obtain ⟨raw, written, split, leftClear⟩ := source.written_of_next left clear packet next
      rw [split, List.append_assoc] at longer
      obtain ⟨rest, read, restClear, behind⟩ :=
        whole.next_written wholeClear packet raw _ written longer
      have goesOn := hear_goesOn (desk.memory.stirred iteration time) phase packet
      have heard := stirring_hear iteration desk.memory time phase packet
      rw [Dialogue.converse_packet _ (time, phase) source left desk packet next, heard] at well ⊢
      rw [Dialogue.converse_packet _ (time, phase) whole rest desk packet read, heard]
      generalize hear (desk.memory.stirred iteration time) phase packet = reaction
        at well goesOn ⊢
      have extended := Effect.performAll_extends
        (.remember (desk.memory.stirred iteration time) :: reaction.effects) desk free
      unfold Dialogue.react at well ⊢
      dsimp only at well ⊢
      cases went : Effect.performAll
          (.remember (desk.memory.stirred iteration time) :: reaction.effects) desk with
      | halted failure after =>
          rw [went] at well
          cases well
      | on after =>
          rw [went] at well extended
          dsimp only at well ⊢
          cases onward : reaction.next with
          | finish => exact absurd onward goesOn
          | fail failure =>
              rw [onward] at well
              cases well
          | await further =>
              rw [onward] at well
              obtain ⟨packets, ended, last, closed, rest, yields, none, later, parted, resumed,
                found⟩ := ih left.unread (by omega) (time + 1) further left rest leftClear
                  restClear behind after extended.free well rfl
              have count : time + 1 + packets.length = time + (packet :: packets).length := by
                rw [List.length_cons]
                omega
              exact ⟨packet :: packets, ended, last, closed, rest, .more next yields, none,
                extended.trans later, parted, count ▸ resumed, found⟩

/-- What a visit to a filter that remembers `before` comes to, in this order of the waitlist. -/
structure Visit.Gives (visit : Visit) (iteration : Iteration) (before : Memory)
    (failure? : Option Failure) (sent noted : Bytes) (after : Memory) : Prop where
  failure : (converseIn iteration visit.source (visit.desk before)).failure? = failure?
  sent : (converseIn iteration visit.source (visit.desk before)).desk.sink.outlet.contents =
    visit.sink.outlet.contents ++ sent
  noted : (converseIn iteration visit.source (visit.desk before)).desk.journal.close.contents =
    visit.journal.text ++ noted
  remembered : (converseIn iteration visit.source (visit.desk before)).desk.memory = after

theorem Visit.gives_of_adds (visit : Visit) (iteration : Iteration) (memory after : Memory)
    (failure? : Option Failure) (sent noted : Bytes) (ending : Ending)
    (ends : converseIn iteration visit.source (visit.desk memory) = ending)
    (failure : ending.failure? = failure?) (remembered : ending.desk.memory = after)
    (added : (visit.desk memory).Adds sent noted ending.desk) :
    visit.Gives iteration memory failure? sent noted after := by
  subst ends
  refine ⟨failure, added.sent, ?_, remembered⟩
  rw [Journal.close_contents _ added.free.journal]
  exact added.noted

/-- A run that ends well and the run that another one makes of what it has left do what one run
makes of both inputs, except that the journal is closed in between. The orders of the waitlist that
the second run meets are those that the joined run meets behind the packets of the first. -/
theorem converse_joined (iteration : Iteration) (memory : Memory) (first second whole : Visit)
    (free : first.Free) (secondFree : second.Free) (wholeFree : whole.Free)
    (clear : first.source.Faultless) (secondClear : second.source.Faultless)
    (wholeClear : whole.source.Faultless)
    (joined : whole.source.bytes = first.source.bytes ++ second.source.bytes)
    (well : (converseIn iteration first.source (first.desk memory)).failure? = none) :
    ∃ packets ended sent noted middle failure? more further last,
      first.source.Yields packets ended ∧ ended.Closed ∧
      first.Gives iteration memory none sent (noted ++ Text.bytes "STOP\n") middle ∧
      second.Gives (iteration.since packets.length) middle failure? more further last ∧
      whole.Gives iteration memory failure? (sent ++ more) (noted ++ further) last := by
  have firstDesk := first.free_desk free memory
  obtain ⟨packets, ended, after, left, rest, yields, closed, extended, parted, resumed, restClear,
    behind⟩ := stirring_resumes iteration 0 .command first.source whole.source clear wholeClear _
      joined (first.desk memory) firstDesk well
  rw [Nat.zero_add] at resumed
  obtain ⟨sent, noted, early⟩ := extended.adds
  -- The journal of the first run is closed where the joined run goes on.
  obtain ⟨final, performed, moved⟩ :=
    Effect.performAll_free [.note .stopped] after extended.free (by simp)
  have stopped : converseIn iteration first.source (first.desk memory) =
      ⟨none, left, final⟩ := by
    rw [converseIn, parted]
    simp only [Dialogue.part, hangUp, performed]
  have closing : after.Adds [] (Text.bytes "STOP\n") final := by
    refine ⟨moved.free, moved.sent, ?_⟩
    rw [moved.noted]
    simp [Effect.remarks, Remark.bytes, Remark.texts]
  -- The second run is the rest of the joined one, on a desk of its own.
  have same := Service.exchange_alike iteration (packets.length, .command) rest second.source
    ⟨restClear, secondClear, behind⟩ after
  obtain ⟨ends, remembered, more, further, late, apart⟩ := (stirring iteration).converse_level
    (packets.length, .command) second.source after (second.desk after.memory) extended.free
    (second.free_desk secondFree _) rfl
  obtain ⟨wholeEnds, wholeRemembered, all, text, resuming, whole'⟩ :=
    (stirring iteration).converse_level (0, .command) whole.source (first.desk memory)
      (whole.desk memory) firstDesk (whole.free_desk wholeFree memory) rfl
  rw [resumed] at wholeEnds wholeRemembered resuming
  have split : all = sent ++ more ∧ text = noted ++ further :=
    (same.desk ▸ resuming).unique (early.trans late)
  rw [split.1, split.2] at whole'
  have shifted : converseIn (iteration.since packets.length) second.source
      (second.desk after.memory) = (stirring iteration).converse (packets.length, .command)
        second.source (second.desk after.memory) :=
    stirring_since iteration packets.length 0 .command second.source (second.desk after.memory)
  refine ⟨packets, ended, sent, noted, after.memory,
    ((stirring iteration).converse (packets.length, .command) rest after).failure?, more, further,
    ((stirring iteration).converse (packets.length, .command) rest after).desk.memory, yields,
    ⟨left, closed⟩, ?_, ?_, ?_⟩
  · apply first.gives_of_adds _ _ _ _ _ _ _ stopped rfl moved.remembered
    rw [← List.append_nil sent]
    exact early.trans closing
  · apply second.gives_of_adds _ _ _ _ _ _ _ shifted (ends.symm.trans same.failure.symm) _ apart
    rw [same.desk]
    exact remembered.symm
  · exact whole.gives_of_adds _ _ _ _ _ _ _ rfl wholeEnds.symm wholeRemembered.symm whole'

-- A delayed smudge first; then a query for it, and a request that breaks off in its content.
theorem converse_joined_delayed :
    let memory := Memory.fresh [⟨"smudge"⟩] false
    let asked := Packet.encodeAll ((delayedSession.take 1).flatMap Call.packets)
    let fetched := (Packet.encodeAll ((delayedSession.drop 1).flatMap Call.packets)).dropLast
    let first := Visit.opening [.bytes asked]
    let second := Visit.opening [.bytes fetched]
    let whole := Visit.opening [.bytes (asked.take 9), .pause, .bytes (asked.drop 9 ++ fetched)]
    (converseIn .turned first.source (first.desk memory)).failure? = none ∧
      (converseIn .turned whole.source (whole.desk memory)).failure? =
        some (.violation (.shortHeader 3)) ∧
      (converseIn .turned whole.source (whole.desk memory)).desk.sink.outlet.contents =
        Text.bytes "0012status=delayed0000" ++
          Text.bytes "001bpathname=test-delay10.a00000012status=success0000" ∧
      ∃ packets ended sent noted middle failure? more further last,
        first.source.Yields packets ended ∧ ended.Closed ∧
        first.Gives .turned memory none sent (noted ++ Text.bytes "STOP\n") middle ∧
        second.Gives (Iteration.turned.since packets.length) middle failure? more further last ∧
        whole.Gives .turned memory failure? (sent ++ more) (noted ++ further) last := by
  intro memory asked fetched first second whole
  have well : (converseIn .turned first.source (first.desk memory)).failure? = none := by
    decide +kernel
  have joined : whole.source.bytes = first.source.bytes ++ second.source.bytes := by
    simp [whole, first, second, Visit.opening, Source.bytes, ← List.append_assoc]
  refine ⟨well, by decide +kernel, by decide +kernel, ?_⟩
  exact converse_joined .turned memory first second whole (Visit.free_opening _)
    (Visit.free_opening _) (Visit.free_opening _)
    (by simp [first, Visit.opening, Source.Faultless])
    (by simp [second, Visit.opening, Source.Faultless])
    (by simp [whole, Visit.opening, Source.Faultless]) joined well

end Exchange

end ContentFilter
