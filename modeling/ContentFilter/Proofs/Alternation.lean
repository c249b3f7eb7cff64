import ContentFilter.Proofs.Grammar
import ContentFilter.Proofs.Instants
import ContentFilter.Service

/-!
Whose turn it is. A filter that waits for a packet while bytes of its own are still held back can
wait for ever, and so can a driver that is sent bytes in the middle of a request. Neither happens:
whatever a reaction sends it pushes before the next read, and only a complete request is answered.
-/

namespace ContentFilter

namespace Sink

/-- A flush call that succeeded was made when everything written so far had been written. -/
def Pushed (sink : Sink) : Prop :=
  sink.written = 0 ∨
    ∃ call, sink.marks[call]? = some sink.written ∧
      ∀ reason, sink.flushFault ≠ some (call, reason)

/-- A channel that has not been written to. -/
def connected (room : Option Nat) (refusal : String) (flushFault : Option (Nat × String)) : Sink :=
  { outlet := { room, refusal }, flushFault }

theorem pushed_push (sink after : Sink) (went : sink.push = .on after) : after.Pushed := by
  refine .inr ⟨sink.marks.size, ?_⟩
  unfold push at went
  split at went
  · rename_i index reason planned
    split at went
    · cases went
    · rename_i other
      cases went
      refine ⟨by simp [written], ?_⟩
      intro _ same
      rw [planned] at same
      cases same
      exact other rfl
  · rename_i unplanned
    cases went
    exact ⟨by simp [written], by simp [unplanned]⟩

theorem pushed_flush (sink after : Sink) (went : sink.flush = .on after) : after.Pushed := by
  unfold flush at went
  cases wrote : sink.write Packet.flush.encode with
  | halted failure middle => simp [wrote] at went
  | on middle =>
      rw [wrote] at went
      exact pushed_push middle after went

end Sink

namespace Effect

/-- Whether an effect leaves bytes that are still to be pushed, given whether there were any. -/
def owesOne (owed : Bool) : Effect → Bool
  | .send _ => true
  | .flush => false
  | .note _ | .remember _ => owed

def owes (owed : Bool) (effects : List Effect) : Bool := effects.foldl owesOne owed

@[simp] theorem owes_nil (owed : Bool) : owes owed [] = owed := rfl

@[simp] theorem owes_cons (owed : Bool) (effect : Effect) (rest : List Effect) :
    owes owed (effect :: rest) = owes (effect.owesOne owed) rest := rfl

theorem owes_append (owed : Bool) (first second : List Effect) :
    owes owed (first ++ second) = owes (owes owed first) second := List.foldl_append

theorem owes_notes (owed : Bool) (remarks : List Remark) :
    owes owed (remarks.map .note) = owed := by
  induction remarks with
  | nil => rfl
  | cons remark rest ih => exact ih

theorem perform_owes (effect : Effect) (desk after : Desk) (owed : Bool)
    (went : effect.perform desk = .on after) (before : owed = false → desk.sink.Pushed)
    (paid : effect.owesOne owed = false) : after.sink.Pushed := by
  cases effect with
  | send payload => cases paid
  | flush =>
      simp only [perform] at went
      cases flushed : desk.sink.flush with
      | halted failure sink => simp [flushed, Progress.map] at went
      | on sink =>
          rw [flushed] at went
          cases went
          exact Sink.pushed_flush desk.sink sink flushed
  | note remark =>
      simp only [perform] at went
      cases noted : desk.journal.note remark with
      | halted failure journal => simp [noted, Progress.map] at went
      | on journal =>
          rw [noted] at went
          cases went
          exact before paid
  | remember memory =>
      cases went
      exact before paid

/-- Nothing goes out on the channel. -/
def isSilent : Effect → Bool
  | .send _ | .flush => false
  | .note _ | .remember _ => true

theorem perform_silent (effect : Effect) (desk : Desk) (silent : effect.isSilent = true) :
    (effect.perform desk).state.sink = desk.sink := by
  cases effect with
  | send payload => cases silent
  | flush => cases silent
  | note remark =>
      simp only [perform]
      cases desk.journal.note remark <;> rfl
  | remember memory => rfl

end Effect

/-! ### What is sent is pushed -/

/-- Nothing is held back, now or once the effects still to come have been carried out. -/
def Instant.Settles {Phase : Type} (now : Instant Phase) : Prop :=
  match now.activity with
  | .reading _ | .ended none => now.desk.sink.Pushed
  | .ended (some _) => True
  | .reacting effects next =>
      (∀ failure, next ≠ .fail failure) →
        ∃ owed, (owed = false → now.desk.sink.Pushed) ∧ Effect.owes owed effects = false

/-- A reaction pushes what it sends, unless it is the last one and fails. -/
structure Dialogue.Prompt {Phase : Type} (dialogue : Dialogue Phase) : Prop where
  hear : ∀ memory phase packet,
    (∀ failure, (dialogue.hear memory phase packet).next ≠ .fail failure) →
      Effect.owes false (dialogue.hear memory phase packet).effects = false
  hangUp : ∀ phase, (dialogue.hangUp phase).failure? = none →
    Effect.owes false (dialogue.hangUp phase).effects = false

namespace Dialogue

variable {Phase : Type} {dialogue : Dialogue Phase}

theorem step_settles (prompt : dialogue.Prompt) (now later : Instant Phase)
    (step : dialogue.Step now later) (settles : now.Settles) : later.Settles := by
  cases step with
  | fault read => trivial
  | closed read =>
      intro goesOn
      refine ⟨false, fun _ => settles, prompt.hangUp _ ?_⟩
      unfold Farewell.next at goesOn
      split at goesOn
      · assumption
      · exact absurd rfl (goesOn _)
  | packet read => exact fun goesOn => ⟨false, fun _ => settles, prompt.hear _ _ _ goesOn⟩
  | @performed effect effects next heard source desk after went =>
      intro goesOn
      obtain ⟨owed, pushed, paid⟩ := settles goesOn
      exact ⟨effect.owesOne owed, Effect.perform_owes effect desk after owed went pushed, paid⟩
  | halted went => trivial
  | @settled next heard source desk =>
      cases next with
      | fail failure => trivial
      | await phase | finish =>
          obtain ⟨owed, pushed, paid⟩ := settles (by simp)
          exact pushed paid

theorem steps_settle (prompt : dialogue.Prompt) (now later : Instant Phase)
    (steps : dialogue.Steps now later) (settles : now.Settles) : later.Settles :=
  steps.keep Instant.Settles settles fun first second => step_settles prompt first second

end Dialogue

namespace Greeting

theorem confirm_prompt (heard : List Capability) (memory : Memory)
    (offered rest : List Capability) (owed : Bool)
    (goesOn : ∀ failure, (confirm heard memory offered rest).next ≠ .fail failure) :
    Effect.owes owed (confirm heard memory offered rest).effects = false := by
  induction rest generalizing owed with
  | nil => rfl
  | cons capability rest ih =>
      simp only [confirm] at goesOn ⊢
      split
      · rename_i named
        rw [if_pos named] at goesOn
        exact ih true goesOn
      · rename_i missing
        rw [if_neg missing] at goesOn
        exact absurd rfl (goesOn _)

theorem prompt (required offered : List Capability) : (dialogue required offered).Prompt where
  hear := by
    intro memory phase packet goesOn
    have confirmed (heard : List Capability)
        (goesOn : ∀ failure, (conclude required offered heard memory).next ≠ .fail failure) :
        Effect.owes false (conclude required offered heard memory).effects = false := by
      unfold conclude at goesOn ⊢
      split
      · rfl
      · rename_i found
        simp only [found] at goesOn
        exact confirm_prompt heard memory offered offered false goesOn
    cases phase with
    | identity | version =>
        simp only [dialogue, hear, expect]
        split
        · rfl
        · split <;> rfl
    | versionEnd =>
        simp only [dialogue, hear]
        split <;> rfl
    | capabilities heard =>
        simp only [dialogue, hear] at goesOn ⊢
        split
        · rfl
        · rename_i ended
          simp only [ended] at goesOn
          exact confirmed heard goesOn
        · split
          · split <;> rfl
          · rfl
  hangUp := fun _ _ => rfl

end Greeting

namespace Exchange

theorem listReply_owes (memory : Memory) : Effect.owes false (listReply memory) = false := by
  simp [listReply, sayStatus, Effect.owes_append, Effect.owesOne]

theorem fileReply_owes (memory : Memory) (request : Request) (answer : Answer) :
    Effect.owes false (fileReply memory request answer) = false := by
  cases answer <;>
    simp [fileReply, contentReply, sayStatus, Effect.owes_append, Effect.owesOne]

theorem prompt : dialogue.Prompt where
  hear := by
    intro memory phase packet _
    have hearing := hear_hearing memory phase packet
    simp only [dialogue]
    generalize hear memory phase packet = reaction at hearing
    cases hearing with
    | noted remarks => exact Effect.owes_notes false remarks
    | listed => exact listReply_owes memory
    | concluded command pathname received =>
        unfold conclude
        split
        · rfl
        · exact fileReply_owes memory _ _
    | allowed | unknown | objected => rfl
  hangUp := by
    intro phase _
    cases phase <;> rfl

/-! ### Nothing is sent inside a request -/

/-- What is heard and done before a request is complete. -/
def Inside (since : List Packet) : Activity Phase → Prop
  | .reading phase => Begun phase since
  | .reacting effects next =>
      (∀ effect ∈ effects, effect.isSilent = true) ∧
        ∀ phase, next = .await phase → Begun phase since
  | .ended _ => True

/-- The packets hold a complete request, and perhaps more. -/
def Complete (packets : List Packet) : Prop :=
  ∃ call : Call, ∃ request, call.Spelled request ∧ request <+: packets

theorem quiet_packet (memory : Memory) (phase : Phase) (packet : Packet) (since : List Packet)
    (begun : Begun phase since) :
    Complete (since ++ [packet]) ∨
      (∀ effect ∈ (hear memory phase packet).effects, effect.isSilent = true) ∧
        ∀ next, (hear memory phase packet).next = .await next → Begun next (since ++ [packet]) := by
  have goesOn := fun next => begun_follow phase next since packet begun
  have hearing := hear_hearing memory phase packet
  generalize hear memory phase packet = reaction at hearing
  cases hearing with
  | @noted _ next _ remarks follows inside =>
      refine .inr ⟨by simp [Effect.isSilent], ?_⟩
      rintro _ ⟨⟩
      rcases goesOn next follows with ⟨_, more⟩ | ⟨ended, _⟩
      · exact more
      · exact absurd ended inside
  | allowed command pathname =>
      refine .inr ⟨by simp [Effect.isSilent], ?_⟩
      rintro _ ⟨⟩
      rcases goesOn _ rfl with ⟨_, more⟩ | ⟨ended, _⟩
      · exact more
      · cases ended
  | listed =>
      rcases goesOn _ rfl with ⟨inside, _⟩ | ⟨_, call, spelled⟩
      · exact absurd rfl inside
      · exact .inl ⟨call, _, spelled, List.prefix_rfl⟩
  | concluded command pathname received =>
      rcases goesOn _ rfl with ⟨inside, _⟩ | ⟨_, call, spelled⟩
      · exact absurd rfl inside
      · exact .inl ⟨call, _, spelled, List.prefix_rfl⟩
  | unknown | objected => exact .inr ⟨by simp, by simp⟩

theorem quiet_step (heard : List Packet) (sink : Sink) (first second : Instant Phase)
    (step : dialogue.Step first second) (since : List Packet)
    (behind : first.heard = heard ++ since) (unsent : first.desk.sink = sink)
    (inside : Inside since first.activity) :
    ∃ more, second.heard = heard ++ more ∧
      (Complete more ∨ second.desk.sink = sink ∧ Inside more second.activity) := by
  cases step with
  | fault read => exact ⟨since, behind, .inr ⟨unsent, trivial⟩⟩
  | @closed phase =>
      refine ⟨since, behind, .inr ⟨unsent, ?_, ?_⟩⟩
      · cases phase <;> simp [dialogue, hangUp, Effect.isSilent]
      · cases phase <;> simp [dialogue, hangUp, Farewell.next]
  | @packet phase _ _ _ desk packet =>
      refine ⟨since ++ [packet], by rw [← List.append_assoc, ← behind], ?_⟩
      rcases quiet_packet desk.memory phase packet since inside with complete | still
      · exact .inl complete
      · exact .inr ⟨unsent, still⟩
  | @performed effect effects next _ _ desk after went =>
      obtain ⟨silent, begun⟩ := inside
      have same := effect.perform_silent desk (silent effect List.mem_cons_self)
      rw [went] at same
      refine ⟨since, behind, .inr ⟨same.trans unsent, ?_, begun⟩⟩
      exact fun other member => silent other (List.mem_cons_of_mem effect member)
  | @halted effect effects next _ _ desk after failure went =>
      have same := effect.perform_silent desk (inside.1 effect List.mem_cons_self)
      rw [went] at same
      exact ⟨since, behind, .inr ⟨same.trans unsent, trivial⟩⟩
  | @settled next =>
      refine ⟨since, behind, .inr ⟨unsent, ?_⟩⟩
      cases next with
      | await phase => exact inside.2 phase rfl
      | finish | fail => trivial

theorem quiet_until_complete (asked later : Instant Phase)
    (waiting : asked.activity = .reading .command) (steps : dialogue.Steps asked later) :
    ∃ since, later.heard = asked.heard ++ since ∧
      (Complete since ∨ later.desk.sink = asked.desk.sink ∧ Inside since later.activity) := by
  induction steps with
  | refl => exact ⟨[], by simp, .inr ⟨rfl, waiting ▸ .nothing⟩⟩
  | @tail first second _ step ih =>
      obtain ⟨since, behind, complete | ⟨unsent, inside⟩⟩ := ih
      · -- A complete request stays complete, whatever comes behind it.
        obtain ⟨call, request, spelled, begins⟩ := complete
        obtain ⟨more, further⟩ := Dialogue.step_heard first second step
        refine ⟨since ++ more, by rw [← further, behind, List.append_assoc], .inl ?_⟩
        exact ⟨call, request, spelled, begins.trans (List.prefix_append since more)⟩
      · exact quiet_step asked.heard asked.desk.sink first second step since behind unsent inside

end Exchange

/-! ### A whole session -/

namespace Service

/-- `now` is an instant of the greeting of a session. -/
def Greets (setup : Setup) (source : Source) (sink : Sink) (journal : Journal)
    (now : Instant Greeting.Phase) : Prop :=
  ∃ desk, noting .started source ⟨setup.memory, sink, journal⟩ = ⟨none, source, desk⟩ ∧
    (Greeting.dialogue requiredCapabilities setup.offered).Steps (.start .identity source desk) now

/-- A session up to its first request. -/
def greeted (setup : Setup) (source : Source) (sink : Sink) (journal : Journal) : Ending :=
  (noting .started source ⟨setup.memory, sink, journal⟩)
    |>.andThen (greet requiredCapabilities setup.offered)
    |>.andThen (noting .greeted)

/-- `now` is an instant of the exchange of a session. -/
def Answers (setup : Setup) (source : Source) (sink : Sink) (journal : Journal)
    (now : Instant Exchange.Phase) : Prop :=
  (greeted setup source sink journal).failure? = none ∧
    Exchange.dialogue.Steps
      (.start .command (greeted setup source sink journal).source
        (greeted setup source sink journal).desk) now

variable (setup : Setup) (source : Source) (sink : Sink) (journal : Journal)

-- The two kinds of instants are all that there is to a session that came to an exchange.
theorem attend_eq_iff (ending : Ending)
    (goesOn : (greeted setup source sink journal).failure? = none) :
    attend setup source sink journal = ending ↔
      ∃ last, Answers setup source sink journal last ∧ last.ending? = some ending := by
  have whole : attend setup source sink journal =
      (greeted setup source sink journal).andThen Exchange.converse := rfl
  rw [whole, Ending.andThen, goesOn]
  simp only [Answers, goesOn, true_and]
  exact Dialogue.converse_eq_iff _ _ _ _ ending

theorem noting_sink (remark : Remark) (desk : Desk) :
    (noting remark source desk).desk.sink = desk.sink := by
  have silent := Effect.perform_silent (.note remark) desk rfl
  unfold noting
  cases went : (Effect.note remark).perform desk with
  | on after | halted failure after =>
      rw [went] at silent
      exact silent

theorem greets_settles (before : sink.Pushed) (now : Instant Greeting.Phase)
    (greets : Greets setup source sink journal now) : now.Settles := by
  obtain ⟨desk, opened, steps⟩ := greets
  refine Dialogue.steps_settle (Greeting.prompt _ _) _ now steps ?_
  have same := noting_sink source .started ⟨setup.memory, sink, journal⟩
  rw [opened] at same
  have pushed : desk.sink.Pushed := same ▸ before
  exact pushed

theorem greet_pushed (required offered : List Capability) (desk : Desk)
    (before : desk.sink.Pushed)
    (well : (greet required offered source desk).failure? = none) :
    (greet required offered source desk).desk.sink.Pushed := by
  obtain ⟨last, steps, ended⟩ := Dialogue.steps_converse
    (Greeting.dialogue required offered) .identity [] source desk
  have settles := Dialogue.steps_settle (Greeting.prompt required offered) _ last steps before
  obtain ⟨activity, heard, rest, after⟩ := last
  cases activity with
  | reading | reacting => cases ended
  | ended failure? =>
      have same : ⟨failure?, rest, after⟩ = greet required offered source desk :=
        Option.some.inj ended
      rw [← same] at well ⊢
      dsimp only at well
      subst well
      exact settles

theorem andThen_keeps (Keeps : Desk → Prop) (first : Ending) (step : Source → Desk → Ending)
    (before : first.failure? = none → Keeps first.desk)
    (each : ∀ source desk, Keeps desk → (step source desk).failure? = none →
      Keeps (step source desk).desk)
    (well : (first.andThen step).failure? = none) : Keeps (first.andThen step).desk := by
  unfold Ending.andThen at well ⊢
  cases failed : first.failure? with
  | some failure =>
      simp only [failed] at well
      exact absurd well (by simp)
  | none =>
      simp only [failed] at well
      exact each _ _ (before failed) well

theorem greeted_pushed (before : sink.Pushed)
    (goesOn : (greeted setup source sink journal).failure? = none) :
    (greeted setup source sink journal).desk.sink.Pushed := by
  have noted (remark : Remark) (source : Source) (desk : Desk) (pushed : desk.sink.Pushed)
      (_ : (noting remark source desk).failure? = none) :
      (noting remark source desk).desk.sink.Pushed := by
    rwa [noting_sink]
  refine andThen_keeps (·.sink.Pushed) _ _ ?_ (noted .greeted) goesOn
  refine andThen_keeps (·.sink.Pushed) _ _ ?_ fun rest desk pushed well => ?_
  · exact noted .started source ⟨setup.memory, sink, journal⟩ before
  · exact greet_pushed rest requiredCapabilities setup.offered desk pushed well

theorem answers_settles (before : sink.Pushed) (now : Instant Exchange.Phase)
    (answers : Answers setup source sink journal now) : now.Settles :=
  Dialogue.steps_settle Exchange.prompt _ now answers.2
    (greeted_pushed setup source sink journal before answers.1)

/-- Whenever the filter reads, everything that it has sent is pushed, and between two requests
nothing is sent before the next one is complete. -/
theorem attend_alternates (room : Option Nat) (refusal : String)
    (flushFault : Option (Nat × String)) :
    (∀ now phase, Greets setup source (.connected room refusal flushFault) journal now →
      now.activity = .reading phase → now.desk.sink.Pushed) ∧
    (∀ now phase, Answers setup source (.connected room refusal flushFault) journal now →
      now.activity = .reading phase → now.desk.sink.Pushed) ∧
    ∀ asked later since, Answers setup source (.connected room refusal flushFault) journal asked →
      asked.activity = .reading .command → Exchange.dialogue.Steps asked later →
      later.heard = asked.heard ++ since →
      (∀ (call : Call) request, call.Spelled request → ¬request <+: since) →
        later.desk.sink = asked.desk.sink := by
  have before : (Sink.connected room refusal flushFault).Pushed := .inl rfl
  refine ⟨?_, ?_, ?_⟩
  · intro now phase greets reading
    have settles := greets_settles setup source _ journal before now greets
    rwa [Instant.Settles, reading] at settles
  · intro now phase answers reading
    have settles := answers_settles setup source _ journal before now answers
    rwa [Instant.Settles, reading] at settles
  · intro asked later since _ waiting steps behind incomplete
    obtain ⟨more, same, complete | ⟨unsent, _⟩⟩ :=
      Exchange.quiet_until_complete asked later waiting steps
    · obtain ⟨call, request, spelled, begins⟩ := complete
      rw [behind, List.append_cancel_left_eq] at same
      exact absurd (same ▸ begins) (incomplete call request spelled)
    · exact unsent

/-- A driver that greets, asks for the list and waits. -/
def listingSource : Source :=
  [.bytes (Packet.encodeAll
    ([.ofLine clientIdentity, .ofLine versionLine, .flush]
      ++ requiredCapabilities.map (fun capability => .ofLine ("capability=" ++ capability.name))
      ++ .flush :: Call.list.packets))]

theorem attend_alternates_listing :
    ∃ asked later : Instant Exchange.Phase,
      asked.activity = .reading .command ∧ 0 < asked.desk.sink.written ∧ asked.desk.sink.Pushed ∧
      later.activity = .reading .listEnd ∧ later.desk.sink = asked.desk.sink ∧
      Exchange.dialogue.Steps asked later := by
  let sink := Sink.connected (some 100) "full" (some (2, "gone"))
  let journal : Journal := { path := "filter.log" }
  let setup : Setup := { offered := [⟨"clean"⟩] }
  let opened := greeted setup listingSource sink journal
  let asked : Instant Exchange.Phase := .start .command opened.source opened.desk
  obtain ⟨_, pushed, silent⟩ := attend_alternates setup listingSource journal (some 100) "full"
    (some (2, "gone"))
  have answers : Answers setup listingSource sink journal asked := ⟨by decide +kernel, .refl⟩
  -- The command packet is read and noted.
  have walks : (Exchange.dialogue.walk? 3 asked).map
      (fun now => (now.activity.phase?, now.heard.length)) = some (some .listEnd, 1) := by
    decide +kernel
  obtain ⟨later, walked, seen⟩ := Option.map_eq_some_iff.mp walks
  obtain ⟨reading, one⟩ := Prod.mk.inj seen
  have steps := Dialogue.steps_walk? 3 asked later walked
  refine ⟨asked, later, rfl, by decide +kernel, pushed asked .command answers rfl,
    (Activity.phase?_eq_some_iff _ _).mp reading, ?_, steps⟩
  refine silent asked later later.heard answers rfl steps rfl ?_
  intro call request spelled begins
  have short := begins.length_le
  cases spelled <;> simp_all

end Service

end ContentFilter
