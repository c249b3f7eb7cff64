import ContentFilter.Proofs.Alternation
import ContentFilter.Proofs.Fragments
import ContentFilter.Proofs.RoundTrip

/-!
A channel with one fault in it, beside a channel without: it takes a certain number of bytes and
no more, or one of its flush calls fails. Until the fault is met the two runs differ in nothing;
there the one run ends, and the other one goes on and takes nothing back. So a fault only
truncates, wherever it lies: inside a header, between two packets, in the greeting or in a list of
pathnames. `attend_truncated` says so of a whole session, in any order of the waitlist that both
runs share.
-/

namespace ContentFilter

/-! ### Nothing is taken back -/

namespace Source

theorem gather_suffix (got : Array UInt8) (want : Nat) (source : Source) :
    (gather got want source).2.bytes <:+ source.bytes := by
  induction source generalizing got want with
  | nil => cases want <;> exact List.suffix_rfl
  | cons arrival later ih =>
      have behind : bytes later <:+ bytes (arrival :: later) := List.suffix_append _ _
      cases want with
      | zero => exact List.suffix_rfl
      | succ want =>
          cases arrival with
          | pause => exact (ih got (want + 1)).trans behind
          | fault reason => exact behind
          | bytes piece =>
              rw [gather]
              split
              · exact (ih _ _).trans behind
              · rw [bytes_leave]
                apply (List.suffix_append (piece.take (want + 1)) _).trans
                rw [← List.append_assoc, List.take_append_drop]
                exact List.suffix_rfl

theorem take_suffix (want : Nat) (source : Source) :
    (source.take want).2.bytes <:+ source.bytes := by
  have gathered := gather_suffix #[] want source
  unfold take
  split <;> rename_i found <;> rwa [found] at gathered

/-- A read leaves the end of what there was, also when it fails. -/
theorem next_suffix (source : Source) : source.next.2.bytes <:+ source.bytes := by
  have header := take_suffix Packet.headerSize source
  unfold next
  split
  · rename_i found
    rwa [found] at header
  · rename_i found
    rwa [found] at header
  · rename_i raw rest _ found
    rw [found] at header
    split
    · exact header
    · exact header
    · rename_i size _
      have payload := (take_suffix size rest).trans header
      split
      · rename_i taken
        rwa [taken] at payload
      · rename_i taken
        rw [taken] at payload
        split <;> exact payload

end Source

theorem Progress.state_map {State Other : Type} (progress : Progress State)
    (place : State → Other) : (progress.map place).state = place progress.state := by
  cases progress <;> rfl

namespace Desk

/-- Between `before` and `after` bytes were sent, pushed and noted, and nothing was refused. -/
structure Extends (before after : Desk) : Prop where
  free : after.Free
  sent : before.sink.outlet.contents <+: after.sink.outlet.contents
  pushed : before.sink.marks.toList <+: after.sink.marks.toList
  noted : before.journal.text <+: after.journal.text

theorem extends_refl (desk : Desk) (free : desk.Free) : desk.Extends desk :=
  ⟨free, List.prefix_rfl, List.prefix_rfl, List.prefix_rfl⟩

theorem Extends.trans {before middle after : Desk} (here : before.Extends middle)
    (there : middle.Extends after) : before.Extends after where
  free := there.free
  sent := here.sent.trans there.sent
  pushed := here.pushed.trans there.pushed
  noted := here.noted.trans there.noted

end Desk

namespace Sink

/-- The sink once all of `raw` has been taken. -/
def grown (sink : Sink) (raw : Bytes) : Sink :=
  { sink with outlet := { sink.outlet with accepted := sink.outlet.accepted ++ raw } }

/-- The sink once a flush call has been made. -/
def marked (sink : Sink) : Sink := { sink with marks := sink.marks.push sink.written }

theorem written_grown (sink : Sink) (raw : Bytes) :
    (sink.grown raw).written = sink.written + raw.length :=
  Source.size_appendPiece sink.outlet.accepted raw

theorem write_grown (sink : Sink) (raw : Bytes) (room : sink.outlet.room = none) :
    sink.write raw = .on (sink.grown raw) := by
  simp [write, Outlet.write, room, grown]

theorem push_marked (sink : Sink) (pushes : sink.flushFault = none) :
    sink.push = .on sink.marked := by
  simp [push, pushes, marked]

theorem write_marks (sink : Sink) (raw : Bytes) : (sink.write raw).state.marks = sink.marks := by
  rw [write_state]

theorem send_marks (sink : Sink) (payload : Bytes) :
    (sink.send payload).state.marks = sink.marks := by
  unfold send
  dsimp only
  split
  · rfl
  · exact sink.write_marks _

theorem push_marks (sink : Sink) : sink.push.state.marks = sink.marks.push sink.written := by
  unfold push
  dsimp only
  split
  · split <;> rfl
  · rfl

theorem flush_marks (sink : Sink) : sink.marks.toList <+: sink.flush.state.marks.toList := by
  have written := sink.write_marks Packet.flush.encode
  unfold flush
  cases wrote : sink.write Packet.flush.encode with
  | halted failure after =>
      rw [wrote] at written
      exact written ▸ List.prefix_rfl
  | on after =>
      rw [wrote] at written
      rw [Progress.on_andThen, push_marks, Array.toList_push]
      exact written ▸ List.prefix_append _ _

end Sink

namespace Effect

theorem perform_marks (effect : Effect) (desk : Desk) :
    desk.sink.marks.toList <+: (effect.perform desk).state.sink.marks.toList := by
  cases effect with
  | send payload =>
      have kept := desk.sink.send_marks payload
      rw [perform, Progress.state_map]
      exact kept ▸ List.prefix_rfl
  | flush =>
      rw [perform, Progress.state_map]
      exact desk.sink.flush_marks
  | note remark =>
      rw [perform]
      cases desk.journal.note remark <;> exact List.prefix_rfl
  | remember memory => exact List.prefix_rfl

/-- A payload that is too large is the one thing that no desk does. -/
theorem perform_large (effect : Effect)
    (large : ¬∀ payload, effect = .send payload → payload.length ≤ Packet.maxPayload) :
    ∃ failure, ∀ desk, effect.perform desk = .halted failure desk := by
  obtain ⟨payload, rfl, larger⟩ : ∃ payload, effect = .send payload ∧
      Packet.maxPayload < payload.length := by
    simpa using large
  refine ⟨.violation (.oversizePayload payload.length), ?_⟩
  intro desk
  simp only [perform, Sink.send_oversize payload larger, Progress.map]

theorem perform_extends (effect : Effect) (desk : Desk) (free : desk.Free) :
    desk.Extends (effect.perform desk).state := by
  have marks := effect.perform_marks desk
  by_cases fits : ∀ payload, effect = .send payload → payload.length ≤ Packet.maxPayload
  · obtain ⟨after, performed, moved⟩ := effect.perform_free desk free fits
    rw [performed] at marks ⊢
    exact ⟨moved.free, ⟨_, moved.sent.symm⟩, marks, ⟨_, moved.noted.symm⟩⟩
  · obtain ⟨failure, refused⟩ := effect.perform_large fits
    rw [refused desk]
    exact desk.extends_refl free

end Effect

namespace Dialogue

variable {Phase : Type} {dialogue : Dialogue Phase}

theorem step_extends (now later : Instant Phase) (step : dialogue.Step now later)
    (free : now.desk.Free) :
    now.desk.Extends later.desk ∧ later.source.bytes <:+ now.source.bytes := by
  have reads (source rest : Source) (outcome : Except Failure (Option Packet))
      (read : source.next = (outcome, rest)) : rest.bytes <:+ source.bytes := by
    have behind := source.next_suffix
    rwa [read] at behind
  cases step with
  | fault read | closed read | packet read =>
      exact ⟨Desk.extends_refl _ free, reads _ _ _ read⟩
  | settled => exact ⟨Desk.extends_refl _ free, List.suffix_rfl⟩
  | @performed effect _ _ _ _ desk after went | @halted effect _ _ _ _ desk after _ went =>
      have further := effect.perform_extends desk free
      rw [went] at further
      exact ⟨further, List.suffix_rfl⟩

theorem steps_extends (now later : Instant Phase) (steps : dialogue.Steps now later)
    (free : now.desk.Free) :
    now.desk.Extends later.desk ∧ later.source.bytes <:+ now.source.bytes := by
  apply steps.keep fun instant =>
    now.desk.Extends instant.desk ∧ instant.source.bytes <:+ now.source.bytes
  · exact ⟨now.desk.extends_refl free, List.suffix_rfl⟩
  · rintro first second step ⟨extended, unread⟩
    have ⟨further, less⟩ := step_extends first second step extended.free
    exact ⟨extended.trans further, less.trans unread⟩

variable (dialogue)

theorem converse_extends (phase : Phase) (source : Source) (desk : Desk) (free : desk.Free) :
    desk.Extends (dialogue.converse phase source desk).desk ∧
      (dialogue.converse phase source desk).source.bytes <:+ source.bytes := by
  obtain ⟨last, steps, ended⟩ := dialogue.steps_converse phase [] source desk
  obtain ⟨_, left, reached⟩ := (last.ending?_eq_some_iff _).mp ended
  rw [← left, ← reached]
  exact steps_extends _ last steps free

end Dialogue

/-! ### A fault in a channel that is free otherwise -/

inductive Fault where
  /-- The channel takes `size` bytes and no more. -/
  | full (size : Nat) (reason : String)
  /-- The flush call with this number fails. -/
  | unpushed (index : Nat) (reason : String)

namespace Fault

def reason : Fault → String
  | .full _ reason => reason
  | .unpushed _ reason => reason

/-- The sink with this fault in it. -/
def plant : Fault → Sink → Sink
  | .full size reason, sink =>
      { sink with
        outlet := { sink.outlet with room := some (size - sink.written), refusal := reason } }
  | .unpushed index reason, sink => { sink with flushFault := some (index, reason) }

/-- What was done on the sink has not met the fault. -/
def Ahead : Fault → Sink → Prop
  | .full size _, sink => sink.written ≤ size
  | .unpushed index _, sink => sink.marks.size ≤ index

/-- What was done on the sink meets the fault when `place` bytes have been written. -/
def At : Fault → Sink → Nat → Prop
  | .full size _, sink, place => place = size ∧ size < sink.written
  | .unpushed index _, sink, place => sink.marks[index]? = some place

def beset (fault : Fault) (desk : Desk) : Desk := { desk with sink := fault.plant desk.sink }

variable (fault : Fault)

theorem at_not_ahead (sink : Sink) (place : Nat) (met : fault.At sink place) :
    ¬fault.Ahead sink := by
  cases fault with
  | full size reason => exact Nat.not_le.mpr met.2
  | unpushed index reason =>
      have ⟨small, _⟩ := Array.getElem?_eq_some_iff.mp met
      exact Nat.not_le.mpr small

theorem at_grows (before after : Sink) (place : Nat) (met : fault.At before place)
    (sent : before.outlet.contents <+: after.outlet.contents)
    (pushed : before.marks.toList <+: after.marks.toList) : fault.At after place := by
  cases fault with
  | full size reason =>
      have longer : before.written ≤ after.written := sent.length_le
      exact ⟨met.1, Nat.lt_of_lt_of_le met.2 longer⟩
  | unpushed index reason =>
      obtain ⟨later, same⟩ := pushed
      simp only [At, ← Array.getElem?_toList] at met ⊢
      have ⟨small, _⟩ := List.getElem?_eq_some_iff.mp met
      rw [← same, List.getElem?_append_left small, met]

/-- On `cut` less was done than on `whole`, and the fault is where it ends. -/
structure Short (whole cut : Desk) : Prop where
  met : fault.At whole.sink cut.sink.written
  sent : cut.sink.outlet.contents <+: whole.sink.outlet.contents
  noted : cut.journal.text <+: whole.journal.text
  room : cut.journal.file.room = none

theorem Short.extends {fault : Fault} {whole cut later : Desk} (short : fault.Short whole cut)
    (extended : whole.Extends later) : fault.Short later cut where
  met := fault.at_grows _ _ _ short.met extended.sent extended.pushed
  sent := short.sent.trans extended.sent
  noted := short.noted.trans extended.noted
  room := short.room

/-! ### One write, one flush call, one effect -/

/-- What becomes of a write or a flush call once the fault is planted. -/
inductive Meets : Progress Sink → Progress Sink → Prop
  | past (after : Sink) (ahead : fault.Ahead after) :
      Meets (.on after) (.on (fault.plant after))
  | cut (after cut : Sink) (met : fault.At after cut.written)
      (sent : cut.outlet.contents <+: after.outlet.contents) :
      Meets (.on after) (.halted (.channel fault.reason) cut)
  /-- It is refused on either sink. -/
  | refused (failure : Failure) (after : Sink) (ahead : fault.Ahead after) :
      Meets (.halted failure after) (.halted failure (fault.plant after))

theorem write_meets (sink : Sink) (raw : Bytes) (free : sink.Free) (ahead : fault.Ahead sink) :
    fault.Meets (sink.write raw) ((fault.plant sink).write raw) := by
  rw [sink.write_grown raw free.room]
  have longer := sink.written_grown raw
  cases fault with
  | unpushed index reason =>
      rw [((unpushed index reason).plant sink).write_grown raw free.room]
      exact Meets.past (sink.grown raw) ahead
  | full size reason =>
      have before : sink.written ≤ size := ahead
      by_cases fits : sink.written + raw.length ≤ size
      · have same : ((full size reason).plant sink).write raw =
            .on ((full size reason).plant (sink.grown raw)) := by
          have all : raw.take (size - sink.written) = raw := List.take_of_length_le (by omega)
          have none : raw.drop (size - sink.written) = [] := List.drop_of_length_le (by omega)
          simp only [plant, Sink.write, Outlet.write, all, none, longer, Nat.sub_sub]
          rfl
        rw [same]
        exact .past _ (Nat.le_trans (Nat.le_of_eq longer) fits)
      · -- The write is begun, and the rest of it is refused.
        obtain ⟨byte, rest, refused⟩ :
            ∃ byte rest, raw.drop (size - sink.written) = byte :: rest := by
          apply List.exists_cons_of_length_pos
          rw [List.length_drop]
          omega
        simp only [plant, Sink.write, Outlet.write, refused]
        apply Meets.cut
        · constructor
          · have taken : (raw.take (size - sink.written)).length = size - sink.written := by
              rw [List.length_take]
              omega
            have whole := sink.written_grown (raw.take (size - sink.written))
            rw [taken] at whole
            exact whole.trans (by omega)
          · omega
        · simp [Sink.grown, Outlet.contents, List.take_prefix]

theorem push_meets (sink : Sink) (free : sink.Free) (ahead : fault.Ahead sink) :
    fault.Meets sink.push (fault.plant sink).push := by
  rw [sink.push_marked free.pushes]
  cases fault with
  | full size reason =>
      rw [((full size reason).plant sink).push_marked free.pushes]
      exact Meets.past sink.marked ahead
  | unpushed index reason =>
      have before : sink.marks.size ≤ index := ahead
      simp only [plant, Sink.push]
      by_cases here : index = sink.marks.size
      · simp only [here, ↓reduceIte]
        apply Meets.cut
        · simp [At, Sink.marked, Sink.written]
        · exact List.prefix_rfl
      · simp only [here, ↓reduceIte]
        apply Meets.past sink.marked
        simp only [Ahead, Sink.marked, Array.size_push]
        omega

theorem send_meets (sink : Sink) (payload : Bytes) (free : sink.Free)
    (ahead : fault.Ahead sink) :
    fault.Meets (sink.send payload) ((fault.plant sink).send payload) := by
  unfold Sink.send
  dsimp only
  split
  · exact .refused _ sink ahead
  · exact fault.write_meets sink _ free ahead

theorem flush_meets (sink : Sink) (free : sink.Free) (ahead : fault.Ahead sink) :
    fault.Meets sink.flush (fault.plant sink).flush := by
  have sent := Sink.sends_write Packet.flush.encode sink free
  have written := fault.write_meets sink Packet.flush.encode free ahead
  unfold Sink.flush
  generalize sink.write Packet.flush.encode = wrote at sent written
  generalize (fault.plant sink).write Packet.flush.encode = other at written
  cases written with
  | past after ahead => exact fault.push_meets after sent.1 ahead
  | refused failure after ahead => exact sent.elim
  | cut after cut met begun =>
      rw [Progress.on_andThen, after.push_marked sent.1.pushes]
      apply Meets.cut
      · apply fault.at_grows after after.marked _ met List.prefix_rfl
        simp [Sink.marked]
      · exact begun

/-- What becomes of an effect once the fault is planted. -/
inductive Cuts : Progress Desk → Progress Desk → Prop
  | past (after : Desk) (ahead : fault.Ahead after.sink) :
      Cuts (.on after) (.on (fault.beset after))
  | cut (after cut : Desk) (short : fault.Short after cut) :
      Cuts (.on after) (.halted (.channel fault.reason) cut)
  | refused (failure : Failure) (after : Desk) (ahead : fault.Ahead after.sink) :
      Cuts (.halted failure after) (.halted failure (fault.beset after))

theorem cuts_of_meets (desk : Desk) (room : desk.journal.file.room = none)
    (whole other : Progress Sink) (meets : fault.Meets whole other) :
    fault.Cuts (whole.map fun sink => { desk with sink })
      (other.map fun sink => { fault.beset desk with sink }) := by
  cases meets with
  | past after ahead => exact Cuts.past { desk with sink := after } ahead
  | refused failure after ahead => exact Cuts.refused failure { desk with sink := after } ahead
  | cut after cut met sent => exact .cut _ _ ⟨met, sent, List.prefix_rfl, room⟩

theorem perform_cuts (effect : Effect) (desk : Desk) (free : desk.Free)
    (ahead : fault.Ahead desk.sink) :
    fault.Cuts (effect.perform desk) (effect.perform (fault.beset desk)) := by
  cases effect with
  | send payload =>
      apply fault.cuts_of_meets desk free.journal
      exact fault.send_meets desk.sink payload free.sink ahead
  | flush =>
      apply fault.cuts_of_meets desk free.journal
      exact fault.flush_meets desk.sink free.sink ahead
  | note remark =>
      -- The journal knows nothing of the channel.
      simp only [Effect.perform, beset]
      cases desk.journal.note remark with
      | on journal => exact Cuts.past { desk with journal } ahead
      | halted failure journal => exact Cuts.refused failure { desk with journal } ahead
  | remember memory => exact Cuts.past { desk with memory } ahead

end Fault

/-! ### A whole run -/

/-- A run that the fault has ended, beside an instant of the run that it does not end. -/
structure Fault.Off (fault : Fault) (source : Source) (desk : Desk) (ending : Ending) : Prop where
  failed : ending.failure? = some (.channel fault.reason)
  short : fault.Short desk ending.desk
  unread : source.bytes <:+ ending.source.bytes

theorem Fault.Off.extends {fault : Fault} {source rest : Source} {desk later : Desk}
    {ending : Ending} (off : fault.Off source desk ending) (extended : desk.Extends later)
    (unread : rest.bytes <:+ source.bytes) : fault.Off rest later ending where
  failed := off.failed
  short := off.short.extends extended
  unread := unread.trans off.unread

/-- The run with the fault, beside an instant of the one without. -/
inductive Fault.Trails (fault : Fault) {Phase : Type} (now : Instant Phase) :
    Instant Phase → Prop
  | abreast (ahead : fault.Ahead now.desk.sink) :
      Trails fault now { now with desk := fault.beset now.desk }
  | stopped (other : Instant Phase) (ending : Ending) (ended : other.ending? = some ending)
      (off : fault.Off now.source now.desk ending) : Trails fault now other

namespace Dialogue

variable {Phase : Type} {dialogue : Dialogue Phase} (fault : Fault)

theorem step_trails (now later other : Instant Phase) (step : dialogue.Step now later)
    (free : now.desk.Free) (trails : fault.Trails now other) :
    ∃ next, dialogue.Steps other next ∧ fault.Trails later next := by
  cases trails with
  | stopped other ending ended off =>
      have ⟨extended, unread⟩ := step_extends now later step free
      exact ⟨other, .refl, .stopped other ending ended (off.extends extended unread)⟩
  | abreast ahead =>
      rcases step_cases now later step with ⟨kept, elsewhere⟩ | ⟨effect, effects, next, acts, rfl⟩
      · refine ⟨_, .single (elsewhere (fault.beset now.desk) rfl), ?_⟩
        rw [← kept] at ahead ⊢
        exact .abreast ahead
      · have cuts := fault.perform_cuts effect now.desk free ahead
        have one : dialogue.Step _ _ :=
          step_behind { now with desk := fault.beset now.desk } effect effects next acts
        generalize effect.perform now.desk = whole at cuts ⊢
        generalize effect.perform (fault.beset now.desk) = cut at cuts one
        refine ⟨_, .single one, ?_⟩
        cases cuts with
        | past after ahead => exact .abreast ahead
        | refused failure after ahead => exact .abreast ahead
        | cut after cut short => exact .stopped _ _ rfl ⟨rfl, short, List.suffix_rfl⟩

theorem steps_trail (start now other : Instant Phase) (steps : dialogue.Steps start now)
    (free : start.desk.Free) (trails : fault.Trails start other) :
    ∃ next, dialogue.Steps other next ∧ fault.Trails now next := by
  have both : now.desk.Free ∧ ∃ next, dialogue.Steps other next ∧ fault.Trails now next := by
    apply steps.keep fun now => now.desk.Free ∧
      ∃ next, dialogue.Steps other next ∧ fault.Trails now next
    · exact ⟨free, other, .refl, trails⟩
    · rintro first second step ⟨free, next, onward, trailing⟩
      have ⟨extended, _⟩ := step_extends first second step free
      obtain ⟨last, further, trails⟩ := step_trails fault first second next step free trailing
      exact ⟨extended.free, last, onward.trans further, trails⟩
  exact both.2

end Dialogue

/-- What the fault makes of a run that ends in `whole`. -/
inductive Fault.Strikes (fault : Fault) (whole : Ending) : Ending → Prop
  | unmet (ahead : fault.Ahead whole.desk.sink) :
      Strikes fault whole { whole with desk := fault.beset whole.desk }
  | met (ending : Ending) (off : fault.Off whole.source whole.desk ending) :
      Strikes fault whole ending

/-- On a free desk `act` only moves on, and a fault can do no more than end it. -/
structure Fault.Interrupts (fault : Fault) (act : Source → Desk → Ending) : Prop where
  onward : ∀ (source : Source) (desk : Desk), desk.Free →
    desk.Extends (act source desk).desk ∧ (act source desk).source.bytes <:+ source.bytes
  strikes : ∀ (source : Source) (desk : Desk), desk.Free → fault.Ahead desk.sink →
    fault.Strikes (act source desk) (act source (fault.beset desk))

namespace Fault

variable (fault : Fault)

theorem interrupts_andThen (first second : Source → Desk → Ending)
    (here : fault.Interrupts first) (there : fault.Interrupts second) :
    fault.Interrupts fun source desk => (first source desk).andThen second where
  onward source desk free := by
    obtain ⟨early, unread⟩ := here.onward source desk free
    obtain ⟨late, less⟩ := there.onward (first source desk).source _ early.free
    unfold Ending.andThen
    cases (first source desk).failure? with
    | none => exact ⟨early.trans late, less.trans unread⟩
    | some failure => exact ⟨early, unread⟩
  strikes source desk free ahead := by
    have struck := here.strikes source desk free ahead
    have early := (here.onward source desk free).1
    generalize first source desk = whole at struck early
    generalize first source (fault.beset desk) = cut at struck
    cases struck with
    | unmet ahead =>
        obtain ⟨failure?, rest, after⟩ := whole
        cases failure? with
        | none => exact there.strikes rest after early.free ahead
        | some failure => exact .unmet ahead
    | met cut off =>
        have ended : cut.andThen second = cut := by
          simp only [Ending.andThen, off.failed]
        rw [ended]
        apply Strikes.met
        unfold Ending.andThen
        cases whole.failure? with
        -- What the other run does from here on takes nothing back.
        | none =>
            obtain ⟨late, less⟩ := there.onward whole.source whole.desk early.free
            exact off.extends late less
        | some failure => exact off

theorem interrupts_noting (remark : Remark) : fault.Interrupts (Service.noting remark) where
  onward source desk free := by
    have further := (Effect.note remark).perform_extends desk free
    unfold Service.noting
    cases went : (Effect.note remark).perform desk <;> rw [went] at further <;>
      exact ⟨further, List.suffix_rfl⟩
  strikes source desk free ahead := by
    have cuts := fault.perform_cuts (.note remark) desk free ahead
    unfold Service.noting
    generalize (Effect.note remark).perform desk = whole at cuts
    generalize (Effect.note remark).perform (fault.beset desk) = cut at cuts
    cases cuts with
    | past after ahead => exact Strikes.unmet ahead
    | refused failure after ahead => exact Strikes.unmet ahead
    | cut after cut short => exact .met _ ⟨rfl, short, List.suffix_rfl⟩

theorem interrupts_converse {Phase : Type} (dialogue : Dialogue Phase) (phase : Phase) :
    fault.Interrupts (dialogue.converse phase) where
  onward source desk free := dialogue.converse_extends phase source desk free
  strikes source desk free ahead := by
    obtain ⟨last, steps, ended⟩ := dialogue.steps_converse phase [] source desk
    obtain ⟨other, others, trails⟩ := Dialogue.steps_trail fault _ last
      (.start phase source (fault.beset desk)) steps free (.abreast ahead)
    obtain ⟨acts, left, reached⟩ := (last.ending?_eq_some_iff _).mp ended
    have also (ending : Ending) (ended : other.ending? = some ending) :
        dialogue.converse phase source (fault.beset desk) = ending :=
      (dialogue.converse_eq_iff phase source (fault.beset desk) ending).mpr
        ⟨other, others, ended⟩
    cases trails with
    | abreast ahead =>
        rw [also ⟨_, last.source, fault.beset last.desk⟩
          ((Instant.ending?_eq_some_iff _ _).mpr ⟨acts, rfl, rfl⟩), left, reached]
        exact .unmet (reached ▸ ahead)
    | stopped other ending ended off =>
        rw [also ending ended]
        rw [left, reached] at off
        exact .met ending off

end Fault

/-! ### A whole session -/

namespace Ending

/-- Both runs came to the same end, and the same was sent, pushed and noted. -/
structure Repeats (ending whole : Ending) : Prop where
  failure : ending.failure? = whole.failure?
  source : ending.source = whole.source
  memory : ending.desk.memory = whole.desk.memory
  sent : ending.desk.sink.outlet.contents = whole.desk.sink.outlet.contents
  pushed : ending.desk.sink.marks = whole.desk.sink.marks
  noted : ending.desk.journal = whole.desk.journal

/-- The run failed with `reason` when `size` of the bytes that `whole` sends had been sent. It has
read no more than `whole` reads, and noted the beginning of what `whole` notes. -/
structure BreaksOff (ending whole : Ending) (reason : String) (size : Nat) : Prop where
  failure : ending.failure? = some (.channel reason)
  written : ending.desk.sink.written = size
  sent : ending.desk.sink.outlet.contents = whole.desk.sink.outlet.contents.take size
  unread : whole.source.bytes <:+ ending.source.bytes
  noted : ending.desk.journal.close.contents <+: whole.desk.journal.close.contents

end Ending

namespace Fault

variable (fault : Fault)

theorem repeats_of_strikes (whole ending : Ending) (strikes : fault.Strikes whole ending)
    (unmet : fault.Ahead whole.desk.sink) : ending.Repeats whole := by
  cases strikes with
  | unmet ahead => cases fault <;> exact ⟨rfl, rfl, rfl, rfl, rfl, rfl⟩
  | met ending off => exact absurd unmet (fault.at_not_ahead _ _ off.short.met)

theorem breaksOff_of_strikes (whole ending : Ending) (strikes : fault.Strikes whole ending)
    (free : whole.desk.Free) (met : ¬fault.Ahead whole.desk.sink) :
    ∃ size, fault.At whole.desk.sink size ∧ ending.BreaksOff whole fault.reason size := by
  cases strikes with
  | unmet ahead => exact absurd ahead met
  | met ending off =>
      have short := off.short
      have noted : ending.desk.journal.close.contents <+: whole.desk.journal.close.contents := by
        rw [Journal.close_contents _ free.journal, Journal.close_contents _ short.room]
        exact short.noted
      exact ⟨_, short.met, off.failed, rfl, List.prefix_iff_eq_take.mp short.sent,
        off.unread, noted⟩

end Fault

namespace Service

theorem attend_strikes (iteration : Iteration) (fault : Fault) (setup : Setup) (source : Source)
    (journal : Journal) (room : journal.file.room = none) (ahead : fault.Ahead {}) :
    (attendIn iteration setup source {} journal).desk.Free ∧
      fault.Strikes (attendIn iteration setup source {} journal)
        (attendIn iteration setup source (fault.plant {}) journal) := by
  have greeted := fault.interrupts_andThen _ _ (fault.interrupts_noting .started)
    (fault.interrupts_converse (Greeting.dialogue requiredCapabilities setup.offered) .identity)
  have ready := fault.interrupts_andThen _ _ greeted (fault.interrupts_noting .greeted)
  have whole := fault.interrupts_andThen _ _ ready
    (fault.interrupts_converse (Exchange.stirring iteration) (0, .command))
  have free : (⟨setup.memory, {}, journal⟩ : Desk).Free := ⟨⟨rfl, rfl⟩, room⟩
  constructor
  · exact (whole.onward source ⟨setup.memory, {}, journal⟩ free).1.free
  · exact whole.strikes source ⟨setup.memory, {}, journal⟩ free ahead

/-- A channel that takes so many bytes and no more, or that fails at one flush call, only cuts a
session off, at exactly that place; if the session does not come so far, nothing is changed. -/
theorem attend_truncated (iteration : Iteration) (setup : Setup) (source : Source)
    (journal : Journal) (room : journal.file.room = none) :
    let whole := attendIn iteration setup source (.connected none "" none) journal
    (∀ size reason,
      let ending := attendIn iteration setup source (.connected (some size) reason none) journal
      (whole.desk.sink.written ≤ size → ending.Repeats whole) ∧
        (size < whole.desk.sink.written → ending.BreaksOff whole reason size)) ∧
    ∀ index reason,
      let ending := attendIn iteration setup source
        (.connected none "" (some (index, reason))) journal
      (whole.desk.sink.marks.size ≤ index → ending.Repeats whole) ∧
        ∀ size, whole.desk.sink.marks[index]? = some size →
          ending.BreaksOff whole reason size := by
  intro whole
  constructor
  · intro size reason ending
    have ⟨free, strikes⟩ := attend_strikes iteration (.full size reason) setup source journal room
      (Nat.zero_le size)
    constructor
    · exact Fault.repeats_of_strikes (.full size reason) whole ending strikes
    · intro exceeded
      obtain ⟨_, ⟨rfl, _⟩, breaks⟩ := Fault.breaksOff_of_strikes (.full size reason)
        whole ending strikes free (Nat.not_le.mpr exceeded)
      exact breaks
  · intro index reason ending
    have ⟨free, strikes⟩ := attend_strikes iteration (.unpushed index reason) setup source journal
      room (Nat.zero_le index)
    constructor
    · exact Fault.repeats_of_strikes (.unpushed index reason) whole ending strikes
    · intro size pushed
      obtain ⟨place, called, breaks⟩ := Fault.breaksOff_of_strikes (.unpushed index reason)
        whole ending strikes free (Fault.at_not_ahead (.unpushed index reason) _ size pushed)
      cases called.symm.trans pushed
      exact breaks

/-- A greeting, and requests that bring the stranger and a delayed pathname into one
announcement. -/
def announcedSession : Bytes :=
  Text.bytes "0015git-filter-client000dversion=20000"
    ++ Text.bytes "0014capability=clean0015capability=smudge0014capability=delay0000"
    ++ Packet.encodeAll
      ((.file Exchange.strangeSmudge :: Exchange.countedSession).flatMap Call.packets)

-- The channel closes inside the second line of the last announcement, or the flush behind that
-- line is lost. With the entries turned round, the stranger comes in the first line.
theorem attend_truncated_announcing :
    let setup : Setup := { offered := [⟨"smudge"⟩] }
    let journal : Journal := { path := "filter.log" }
    let attended (sink : Sink) := attendIn .turned setup [.bytes announcedSession] sink journal
    let whole := attended (.connected none "" none)
    journal.file.room = none ∧ whole.failure? = none ∧
      whole.desk.sink.written ≤ 261 ∧
      (attended (.connected (some 261) "closed" none)).Repeats whole ∧
      230 < whole.desk.sink.written ∧
      (attended (.connected (some 230) "closed" none)).BreaksOff whole "closed" 230 ∧
      (whole.desk.sink.outlet.contents.take 230).drop 185 =
        Text.bytes "0017pathname=unfiltered001bpathname=test-dela" ∧
      whole.desk.sink.marks[6]? = some 239 ∧
      (attended (.connected none "" (some (6, "lost")))).BreaksOff whole "lost" 239 := by
  intro setup journal attended whole
  have truncated := attend_truncated .turned setup [.bytes announcedSession] journal rfl
  obtain ⟨well, all, less, lines, pushed⟩ : whole.failure? = none ∧
      whole.desk.sink.written ≤ 261 ∧ 230 < whole.desk.sink.written ∧
      (whole.desk.sink.outlet.contents.take 230).drop 185 =
        Text.bytes "0017pathname=unfiltered001bpathname=test-dela" ∧
      whole.desk.sink.marks[6]? = some 239 := by
    decide +kernel
  refine ⟨rfl, well, all, ?_, less, ?_, lines, pushed, ?_⟩
  · exact (truncated.1 261 "closed").1 all
  · exact (truncated.1 230 "closed").2 less
  · exact (truncated.2 6 "lost").2 239 pushed

end Service

end ContentFilter
