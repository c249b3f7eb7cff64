import ContentFilter.Dialogue
import Mathlib.Logic.Relation

/-!
A dialogue instant by instant. `converse` gives the ending of a run; here the run is taken apart
into single steps: one read, one effect. `converse_eq_iff` says that the ending is where the steps
lead, and since a step is determined by the instant before it there is nothing that a run does
beside them. What has to hold throughout a run is shown of each step.
-/

namespace ContentFilter

/-- What a dialogue is about to do. -/
inductive Activity (Phase : Type) where
  /-- It asks for the next packet. -/
  | reading (phase : Phase)
  /-- Effects are still to be carried out, and something comes behind them. -/
  | reacting (effects : List Effect) (next : Next Phase)
  | ended (failure? : Option Failure)

namespace Activity

variable {Phase : Type}

/-- The phase in which a packet is asked for. -/
def phase? : Activity Phase → Option Phase
  | .reading phase => some phase
  | .reacting _ _ | .ended _ => none

theorem phase?_eq_some_iff (activity : Activity Phase) (phase : Phase) :
    activity.phase? = some phase ↔ activity = .reading phase := by
  cases activity <;> simp [phase?]

end Activity

structure Instant (Phase : Type) where
  activity : Activity Phase
  /-- The packets of this run, as far as they have been read. -/
  heard : List Packet
  source : Source
  desk : Desk

namespace Next

variable {Phase : Type}

def activity : Next Phase → Activity Phase
  | .await phase => .reading phase
  | .finish => .ended none
  | .fail failure => .ended (some failure)

end Next

def Farewell.next {Phase : Type} (farewell : Farewell) : Next Phase :=
  match farewell.failure? with
  | none => .finish
  | some failure => .fail failure

namespace Instant

variable {Phase : Type}

def start (phase : Phase) (source : Source) (desk : Desk) : Instant Phase :=
  ⟨.reading phase, [], source, desk⟩

/-- The ending that the run has come to, if it is over. -/
def ending? (now : Instant Phase) : Option Ending :=
  match now.activity with
  | .ended failure? => some ⟨failure?, now.source, now.desk⟩
  | _ => none

theorem desk_of_ending? (now : Instant Phase) (ending : Ending)
    (ended : now.ending? = some ending) : ending.desk = now.desk := by
  unfold ending? at ended
  split at ended <;> cases ended
  rfl

theorem ending?_eq_some_iff (now : Instant Phase) (ending : Ending) :
    now.ending? = some ending ↔
      now.activity = .ended ending.failure? ∧ now.source = ending.source ∧
        now.desk = ending.desk := by
  obtain ⟨activity, heard, source, desk⟩ := now
  obtain ⟨failure?, left, after⟩ := ending
  cases activity <;> simp [ending?]

/-- The instant behind an effect, by what came of it. -/
def behind (now : Instant Phase) (effects : List Effect) (next : Next Phase) :
    Progress Desk → Instant Phase
  | .on desk => { now with activity := .reacting effects next, desk }
  | .halted failure desk => { now with activity := .ended (some failure), desk }

end Instant

namespace Dialogue

variable {Phase : Type}

inductive Step (dialogue : Dialogue Phase) : Instant Phase → Instant Phase → Prop
  | fault {phase : Phase} {heard : List Packet} {source rest : Source} {desk : Desk}
      {failure : Failure} (read : source.next = (.error failure, rest)) :
      Step dialogue ⟨.reading phase, heard, source, desk⟩ ⟨.ended (some failure), heard, rest, desk⟩
  | closed {phase : Phase} {heard : List Packet} {source rest : Source} {desk : Desk}
      (read : source.next = (.ok none, rest)) :
      Step dialogue ⟨.reading phase, heard, source, desk⟩
        ⟨.reacting (dialogue.hangUp phase).effects (dialogue.hangUp phase).next, heard, rest, desk⟩
  | packet {phase : Phase} {heard : List Packet} {source rest : Source} {desk : Desk}
      {packet : Packet} (read : source.next = (.ok (some packet), rest)) :
      Step dialogue ⟨.reading phase, heard, source, desk⟩
        ⟨.reacting (dialogue.hear desk.memory phase packet).effects
            (dialogue.hear desk.memory phase packet).next,
          heard ++ [packet], rest, desk⟩
  | performed {effect : Effect} {effects : List Effect} {next : Next Phase}
      {heard : List Packet} {source : Source} {desk after : Desk}
      (went : effect.perform desk = .on after) :
      Step dialogue ⟨.reacting (effect :: effects) next, heard, source, desk⟩
        ⟨.reacting effects next, heard, source, after⟩
  | halted {effect : Effect} {effects : List Effect} {next : Next Phase}
      {heard : List Packet} {source : Source} {desk after : Desk} {failure : Failure}
      (went : effect.perform desk = .halted failure after) :
      Step dialogue ⟨.reacting (effect :: effects) next, heard, source, desk⟩
        ⟨.ended (some failure), heard, source, after⟩
  | settled {next : Next Phase} {heard : List Packet} {source : Source} {desk : Desk} :
      Step dialogue ⟨.reacting [] next, heard, source, desk⟩ ⟨next.activity, heard, source, desk⟩

variable (dialogue : Dialogue Phase)

/-- The step that is taken next, if the run is not over. -/
def advance? (now : Instant Phase) : Option (Instant Phase) :=
  match now.activity with
  | .ended _ => none
  | .reacting [] next => some { now with activity := next.activity }
  | .reacting (effect :: effects) next =>
      match effect.perform now.desk with
      | .halted failure desk => some { now with activity := .ended (some failure), desk }
      | .on desk => some { now with activity := .reacting effects next, desk }
  | .reading phase =>
      match now.source.next with
      | (.error failure, source) => some { now with activity := .ended (some failure), source }
      | (.ok none, source) =>
          let farewell := dialogue.hangUp phase
          some { now with activity := .reacting farewell.effects farewell.next, source }
      | (.ok (some packet), source) =>
          let reaction := dialogue.hear now.desk.memory phase packet
          some { now with
            activity := .reacting reaction.effects reaction.next
            heard := now.heard ++ [packet]
            source }

def walk? : Nat → Instant Phase → Option (Instant Phase)
  | 0, now => some now
  | count + 1, now => (dialogue.advance? now).bind (walk? count)

/-- `later` is an instant of the run that goes on from `now`. -/
def Steps : Instant Phase → Instant Phase → Prop := Relation.ReflTransGen dialogue.Step

/-- `past` are the instants of the run from `start` in front of `now`, in their order. -/
inductive Traces (start : Instant Phase) : List (Instant Phase) → Instant Phase → Prop
  | here : Traces start [] start
  | onward {past : List (Instant Phase)} {now later : Instant Phase}
      (before : Traces start past now) (step : dialogue.Step now later) :
      Traces start (past ++ [now]) later

variable {dialogue}

theorem steps_iff_traces (start now : Instant Phase) :
    dialogue.Steps start now ↔ ∃ past, dialogue.Traces start past now := by
  constructor
  · intro steps
    induction steps with
    | refl => exact ⟨[], .here⟩
    | tail _ step ih =>
        obtain ⟨past, traces⟩ := ih
        exact ⟨_, traces.onward step⟩
  · rintro ⟨past, traces⟩
    induction traces with
    | here => exact .refl
    | onward _ step ih => exact ih.tail step

theorem step_iff_advance? (now later : Instant Phase) :
    dialogue.Step now later ↔ dialogue.advance? now = some later := by
  constructor
  · intro step
    cases step <;> simp_all [advance?]
  · obtain ⟨activity, heard, source, desk⟩ := now
    intro taken
    unfold advance? at taken
    split at taken <;> dsimp only at *
    · cases taken
    · rename_i next same
      cases taken
      exact same ▸ .settled
    · rename_i effect effects next same
      subst same
      split at taken <;> cases taken
      · exact .halted ‹_›
      · exact .performed ‹_›
    · rename_i phase same
      subst same
      split at taken <;> cases taken
      · exact .fault ‹_›
      · exact .closed ‹_›
      · exact .packet ‹_›

theorem step_unique (now first second : Instant Phase) (one : dialogue.Step now first)
    (other : dialogue.Step now second) : first = second := by
  rw [step_iff_advance?] at one other
  exact Option.some.inj (one.symm.trans other)

theorem steps_walk? (count : Nat) (now later : Instant Phase)
    (walked : dialogue.walk? count now = some later) : dialogue.Steps now later := by
  induction count generalizing now with
  | zero =>
      cases walked
      exact .refl
  | succ count ih =>
      obtain ⟨next, taken, further⟩ := Option.bind_eq_some_iff.mp walked
      exact .head ((step_iff_advance? now next).mpr taken) (ih next further)

theorem not_step_ended (now later : Instant Phase) (ending : Ending)
    (ended : now.ending? = some ending) : ¬dialogue.Step now later := by
  intro step
  cases step <;> cases ended

theorem step_behind (now : Instant Phase) (effect : Effect) (effects : List Effect)
    (next : Next Phase) (acts : now.activity = .reacting (effect :: effects) next) :
    dialogue.Step now (now.behind effects next (effect.perform now.desk)) := by
  obtain ⟨activity, heard, source, desk⟩ := now
  cases acts
  cases went : effect.perform desk with
  | on after => exact .performed went
  | halted failure after => exact .halted went

/-- A step leaves the desk and looks at nothing on it but the memory, or it performs an effect. -/
theorem step_cases (now later : Instant Phase) (step : dialogue.Step now later) :
    (later.desk = now.desk ∧ ∀ desk : Desk, now.desk.memory = desk.memory →
      dialogue.Step { now with desk } { later with desk }) ∨
    ∃ effect effects next, now.activity = .reacting (effect :: effects) next ∧
      later = now.behind effects next (effect.perform now.desk) := by
  cases step with
  | fault read => exact .inl ⟨rfl, fun _ _ => .fault read⟩
  | closed read => exact .inl ⟨rfl, fun _ _ => .closed read⟩
  | settled => exact .inl ⟨rfl, fun _ _ => .settled⟩
  | packet read =>
      refine .inl ⟨rfl, fun desk same => ?_⟩
      dsimp only at same ⊢
      rw [same]
      exact .packet read
  | @performed effect effects next heard source desk after went =>
      refine .inr ⟨effect, effects, next, rfl, ?_⟩
      simp only [went, Instant.behind]
  | @halted effect effects next heard source desk after failure went =>
      refine .inr ⟨effect, effects, next, rfl, ?_⟩
      simp only [went, Instant.behind]

theorem step_heard (now later : Instant Phase) (step : dialogue.Step now later) :
    now.heard <+: later.heard := by
  cases step with
  | packet read => exact List.prefix_append _ _
  | fault | closed | performed | halted | settled => exact List.prefix_rfl

/-- What every step keeps holds at every instant of a run. -/
theorem Steps.keep {now later : Instant Phase} (steps : dialogue.Steps now later)
    (Keeps : Instant Phase → Prop) (before : Keeps now)
    (step : ∀ first second, dialogue.Step first second → Keeps first → Keeps second) :
    Keeps later := by
  induction steps with
  | refl => exact before
  | tail _ last ih => exact step _ _ last ih

theorem steps_onward (start next last : Instant Phase) (reached : dialogue.Steps start next)
    (steps : dialogue.Steps start last) (ending : Ending) (ended : last.ending? = some ending) :
    dialogue.Steps next last := by
  rcases Relation.ReflTransGen.total_of_right_unique step_unique reached steps with
    onward | onward
  · exact onward
  -- No step leads on from the end.
  · rcases onward.cases_head with same | ⟨_, step, _⟩
    · exact same ▸ .refl
    · exact absurd step (not_step_ended _ _ _ ended)

variable (dialogue)

-- Effects are performed one by one, until one of them fails.
theorem steps_performAll (effects : List Effect) (next : Next Phase) (heard : List Packet)
    (source : Source) (desk : Desk) :
    dialogue.Steps ⟨.reacting effects next, heard, source, desk⟩
      (match Effect.performAll effects desk with
      | .on after => ⟨.reacting [] next, heard, source, after⟩
      | .halted failure after => ⟨.ended (some failure), heard, source, after⟩) := by
  induction effects generalizing desk with
  | nil => exact .refl
  | cons effect effects ih =>
      simp only [Effect.performAll]
      cases went : effect.perform desk with
      | halted failure after => exact .single (.halted went)
      | on after => exact .head (.performed went) (ih after)

theorem steps_converse (phase : Phase) (heard : List Packet) (source : Source) (desk : Desk) :
    ∃ last, dialogue.Steps ⟨.reading phase, heard, source, desk⟩ last ∧
      last.ending? = some (dialogue.converse phase source desk) := by
  induction size : source.unread using Nat.strongRecOn generalizing phase heard source desk with
  | ind unread ih =>
      cases read : source.next with
      | mk outcome rest =>
          cases outcome with
          | error failure =>
              rw [converse_fault dialogue phase source rest desk failure read]
              exact ⟨_, .single (.fault read), rfl⟩
          | ok found =>
              cases found with
              | none =>
                  rw [converse_closed dialogue phase source rest desk read, part]
                  have parting := steps_performAll dialogue
                    (dialogue.hangUp phase).effects (dialogue.hangUp phase).next heard rest desk
                  cases went : Effect.performAll (dialogue.hangUp phase).effects desk with
                  | halted failure after =>
                      rw [went] at parting
                      exact ⟨_, .head (.closed read) parting, rfl⟩
                  | on after =>
                      rw [went] at parting
                      refine ⟨_, .head (.closed read) (parting.tail .settled), ?_⟩
                      unfold Farewell.next
                      cases (dialogue.hangUp phase).failure? <;> rfl
              | some packet =>
                  rw [converse_packet dialogue phase source rest desk packet read, react]
                  have reacting := steps_performAll dialogue
                    (dialogue.hear desk.memory phase packet).effects
                    (dialogue.hear desk.memory phase packet).next (heard ++ [packet]) rest desk
                  cases went : Effect.performAll
                    (dialogue.hear desk.memory phase packet).effects desk with
                  | halted failure after =>
                      rw [went] at reacting
                      exact ⟨_, .head (.packet read) reacting, rfl⟩
                  | on after =>
                      rw [went] at reacting
                      have settled := Relation.ReflTransGen.head (.packet read)
                        (reacting.tail .settled)
                      cases next : (dialogue.hear desk.memory phase packet).next with
                      | fail failure | finish =>
                          rw [next] at settled
                          exact ⟨_, settled, rfl⟩
                      | await phase' =>
                          rw [next] at settled
                          have shorter := Source.next_shrinks source rest packet read
                          simp only [Packet.headerSize] at shorter
                          obtain ⟨last, further, ended⟩ := ih rest.unread (by omega) phase'
                            (heard ++ [packet]) rest after rfl
                          exact ⟨last, settled.trans further, ended⟩

theorem converse_eq_iff (phase : Phase) (source : Source) (desk : Desk) (ending : Ending) :
    dialogue.converse phase source desk = ending ↔
      ∃ last, dialogue.Steps (.start phase source desk) last ∧ last.ending? = some ending := by
  obtain ⟨last, steps, ended⟩ := steps_converse dialogue phase [] source desk
  constructor
  · rintro rfl
    exact ⟨last, steps, ended⟩
  · rintro ⟨other, others, also⟩
    have same : last = other := by
      rcases (steps_onward _ last other steps others ending also).cases_head with
        same | ⟨_, step, _⟩
      · exact same
      · exact absurd step (not_step_ended _ _ _ ended)
    rw [same, also] at ended
    exact (Option.some.inj ended).symm

end Dialogue

end ContentFilter
