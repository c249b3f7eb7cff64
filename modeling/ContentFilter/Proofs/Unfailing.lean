import ContentFilter.Proofs.Announcements

/-!
What never goes wrong by the filter's own doing. A pathname gets onto the waitlist out of a packet
and in no other way, so the line that announces it fits a packet again: `leads_keys` says so of
every point of any number of runs. With that nothing that a run is still to send is too large, and
`Failure.Internal` names the failures that no run ends with.
-/

namespace ContentFilter

/-- The failures that neither the driver nor the channel nor the journal can bring about. -/
inductive Failure.Internal : Failure → Prop
  | duplicate (what : Duplicate) : Internal (.duplicate what)
  | oversize (size : Nat) : Internal (.violation (.oversizePayload size))

/-- The channel or the file of the journal has refused something. -/
inductive Failure.Refusal : Failure → Prop
  | channel (reason : String) : Refusal (.channel reason)
  | journal (path reason : String) : Refusal (.journal path reason)

theorem Failure.Refusal.foreign {failure : Failure} (refusal : failure.Refusal) :
    ¬failure.Internal := by
  rintro ⟨⟩ <;> cases refusal

/-! ### Why a step is halted -/

namespace Progress

variable {State Other : Type}

/-- If it is halted, something outside has refused. -/
def Refused : Progress State → Prop
  | .on _ => True
  | .halted failure _ => failure.Refusal

theorem refused_andThen (first : Progress State) (step : State → Progress State)
    (here : first.Refused) (there : ∀ reached, (step reached).Refused) :
    (first.andThen step).Refused := by
  cases first with
  | on reached => exact there reached
  | halted failure after => exact here

theorem refused_map (first : Progress State) (place : State → Other) (here : first.Refused) :
    (first.map place).Refused := by
  cases first with
  | on reached => trivial
  | halted failure after => exact here

end Progress

namespace Journal

theorem drain_refused (journal : Journal) : journal.drain.Refused := by
  unfold drain
  split
  · trivial
  · exact .journal _ _

theorem direct_refused (raw : Bytes) (journal : Journal) : (direct raw journal).Refused := by
  unfold direct
  split
  · trivial
  · exact .journal _ _

theorem hold_refused (raw : Bytes) (journal : Journal) : (hold raw journal).Refused := by
  apply Progress.refused_andThen
  · unfold makeRoom
    split
    · trivial
    · exact drain_refused journal
  · intro reached
    unfold queue
    split
    · exact direct_refused raw reached
    · trivial

theorem retry_refused (journal : Journal) : journal.retry.Refused := by
  unfold retry
  split
  · exact drain_refused journal
  · trivial

theorem sendLines_refused (lines : Bytes) (journal : Journal) :
    (sendLines lines journal).Refused := by
  unfold sendLines
  split
  · exact direct_refused lines journal
  · exact Progress.refused_andThen _ _ (hold_refused lines journal) drain_refused

theorem write_refused (raw : Bytes) (journal : Journal) : (journal.write raw).Refused := by
  unfold write
  split
  · exact Progress.refused_andThen _ _ (retry_refused journal) (hold_refused raw)
  · exact Progress.refused_andThen _ _ (sendLines_refused _ journal) (hold_refused _)

theorem writeAll_refused (texts : List String) (journal : Journal) :
    (journal.writeAll texts).Refused := by
  induction texts generalizing journal with
  | nil => trivial
  | cons text rest ih => exact Progress.refused_andThen _ _ (write_refused _ journal) ih

theorem note_refused (remark : Remark) (journal : Journal) : (journal.note remark).Refused := by
  have noted := writeAll_refused remark.texts journal
  unfold note
  dsimp only
  split
  · exact Progress.refused_andThen _ _ noted drain_refused
  · exact noted

end Journal

namespace Sink

theorem write_refused (raw : Bytes) (sink : Sink) : (sink.write raw).Refused := by
  unfold write
  split
  · trivial
  · exact .channel _

theorem flush_refused (sink : Sink) : sink.flush.Refused := by
  apply Progress.refused_andThen _ _ (write_refused _ sink)
  intro reached
  unfold push
  dsimp only
  split
  · split
    · exact .channel _
    · trivial
  · trivial

end Sink

theorem Effect.perform_refused (effect : Effect) (desk : Desk)
    (fits : ∀ payload, effect = .send payload → payload.length ≤ Packet.maxPayload) :
    (effect.perform desk).Refused := by
  cases effect with
  | send payload =>
      apply Progress.refused_map
      have small := Nat.not_lt.mpr (fits payload rfl)
      simp only [Sink.send, small, ↓reduceIte]
      exact Sink.write_refused _ desk.sink
  | flush => exact Progress.refused_map _ _ desk.sink.flush_refused
  | note remark => exact Progress.refused_map _ _ (desk.journal.note_refused remark)
  | remember memory => trivial

/-! ### Why the driver is objected to -/

namespace Packet

theorem readHeader_foreign (raw : Bytes) (what : Violation) (read : readHeader raw = .error what)
    (size : Nat) : what ≠ .oversizePayload size := by
  unfold readHeader at read
  split at read
  · cases read
    simp
  · split at read
    · cases read
      simp
    · repeat' split at read
      all_goals
        cases read
      all_goals simp

theorem line_foreign (packet : Packet) (what : Violation) (read : packet.line? = .error what)
    (size : Nat) : what ≠ .oversizePayload size := by
  cases packet with
  | flush => cases read
  | data payload =>
      unfold line? text at read
      dsimp only at read
      split at read <;> cases read
      simp

theorem field_foreign (packet : Packet) (key : String) (what : Violation)
    (read : packet.field key = .error what) (size : Nat) : what ≠ .oversizePayload size := by
  unfold field at read
  split at read
  · cases read
    exact line_foreign packet what ‹_› size
  · dsimp only at read
    split at read
    · split at read <;> cases read
      simp
    · cases read
      simp

end Packet

theorem Source.next_foreign (source rest : Source) (failure : Failure)
    (read : source.next = (.error failure, rest)) : ¬failure.Internal := by
  unfold next at read
  split at read
  · cases read
    rintro ⟨⟩
  · cases read
  · split at read
    · rename_i what header
      cases read
      rintro ⟨⟩
      exact Packet.readHeader_foreign _ _ header _ rfl
    · cases read
    · split at read
      · cases read
        rintro ⟨⟩
      · split at read <;> cases read
        rintro ⟨⟩

theorem announceable_iff (pathname : String) :
    Announceable pathname ↔ (Text.bytes pathname).length ≤ 65507 := by
  have key : (Text.bytes "pathname=").length = 9 := by decide
  have room : Packet.maxPayload = 65516 := by decide
  unfold Announceable
  rw [Exchange.pathnameLine, Text.bytes_append, List.length_append, key, room]
  omega

namespace Exchange

theorem objection_foreign (phase : Phase) (packet : Packet) (what : Violation)
    (objects : phase.objection? (some packet) = some what) (size : Nat) :
    what ≠ .oversizePayload size := by
  cases phase with
  | command | pathname =>
      simp only [Phase.objection?] at objects
      split at objects <;> cases objects
      exact packet.field_foreign _ _ ‹_› size
  | listEnd =>
      cases packet with
      | flush => cases objects
      | data payload =>
          cases objects
          simp
  | details =>
      simp only [Phase.objection?] at objects
      split at objects
      · cases objects
        exact packet.line_foreign _ ‹_› size
      · cases objects
      · split at objects <;> cases objects
        simp
  | content => cases objects

/-! ### Nothing to come fails by itself -/

/-- The effects fit the channel, and what comes behind them is no failure of the filter's own. -/
structure Ready (effects : List Effect) (next : Next Phase) : Prop where
  fits : ∀ payload, .send payload ∈ effects → payload.length ≤ Packet.maxPayload
  outcome : ∀ failure, next = .fail failure → ¬failure.Internal

theorem hear_ready (memory : Memory) (phase : Phase) (packet : Packet)
    (known : memory.Announceable) :
    Ready (hear memory phase packet).effects (hear memory phase packet).next := by
  have hearing := hear_hearing memory phase packet
  generalize hear memory phase packet = reaction at hearing
  cases hearing with
  | noted | allowed => exact ⟨by simp, by simp⟩
  | listed => exact ⟨listReply_fits memory known, by simp⟩
  | concluded command pathname received =>
      refine ⟨conclude_fits memory _, ?_⟩
      intro failure fails
      unfold conclude at fails
      split at fails
      · cases fails
        rintro ⟨⟩
      · dsimp only at fails
        split at fails <;> cases fails
        rintro ⟨⟩
  | unknown =>
      refine ⟨by simp, ?_⟩
      rintro failure ⟨⟩ ⟨⟩
  | objected objects =>
      refine ⟨by simp, ?_⟩
      rintro failure ⟨⟩ ⟨⟩
      exact objection_foreign _ _ _ objects _ rfl

theorem hangUp_ready (phase : Phase) : Ready (hangUp phase).effects (hangUp phase).next := by
  refine ⟨by cases phase <;> simp [hangUp], ?_⟩
  intro failure fails
  cases phase <;> cases fails
  all_goals rintro ⟨⟩

/-- What the run is about to do, or what it has ended with, is no failure of its own. -/
def Secure (now : Instant Phase) : Prop :=
  match now.activity with
  | .reading _ => True
  | .reacting effects next => Ready effects next
  | .ended failure? => ∀ failure, failure? = some failure → ¬failure.Internal

theorem step_secure (now later : Instant Phase) (step : dialogue.Step now later)
    (known : now.desk.memory.Announceable) (secure : Secure now) : Secure later := by
  cases step with
  | fault read =>
      rintro failure ⟨⟩
      exact Source.next_foreign _ _ _ read
  | @closed phase => exact hangUp_ready phase
  | packet read => exact hear_ready _ _ _ known
  | @performed effect effects next =>
      exact ⟨fun payload member => secure.fits payload (List.mem_cons_of_mem effect member),
        secure.outcome⟩
  | @halted effect effects next heard source desk after failure went =>
      rintro failure ⟨⟩
      have refused := effect.perform_refused desk fun payload same =>
        secure.fits payload (same ▸ List.mem_cons_self)
      rw [went] at refused
      exact refused.foreign
  | @settled next =>
      cases next with
      | await => trivial
      | finish =>
          rintro failure ⟨⟩
      | fail failure =>
          rintro failure ⟨⟩
          exact secure.outcome _ rfl

/-! ### At every point of any number of runs -/

namespace Standing

variable (capabilities : List Capability) (delaysAll : Bool) (source : Source) (sink : Sink)
  (journal : Journal)

theorem follows_legal (first second : Standing) (follows : first.Follows second)
    (legal : ∀ packets ∈ first.heard, ∀ packet ∈ packets, packet.Legal) :
    ∀ packets ∈ second.heard, ∀ packet ∈ packets, packet.Legal := by
  simp only [heard, List.forall_mem_append, List.forall_mem_singleton] at legal ⊢
  cases follows with
  | rerun stopped =>
      constructor
      · exact List.forall_mem_append.mpr ⟨legal.1, List.forall_mem_singleton.mpr legal.2⟩
      · simp [Instant.start]
  | step step =>
      refine ⟨legal.1, ?_⟩
      cases step with
      | packet read =>
          exact List.forall_mem_append.mpr
            ⟨legal.2, List.forall_mem_singleton.mpr (Source.next_legal _ _ _ read)⟩
      | fault | closed | performed | halted | settled => exact legal.2

theorem leads_legal (standing : Standing)
    (leads : (opening capabilities delaysAll source sink journal).Leads standing) :
    ∀ packets ∈ standing.heard, ∀ packet ∈ packets, packet.Legal := by
  induction leads with
  | refl => simp [heard, opening, Instant.start]
  | tail _ follows ih => exact follows_legal _ _ follows ih

theorem allows_announceable (pathname : String) (packets : List Packet)
    (legal : ∀ packet ∈ packets, packet.Legal) (allows : Allows pathname packets) :
    pathname ≠ "" ∧ Announceable pathname := by
  rcases allows with ⟨calls, before, call, opened, _, asked, rfl, _, begins⟩
  refine ⟨call.named, ?_⟩
  cases asked with
  | @question command placing details named placed detailed =>
      exact placing.carries_fits _ placed (legal placing (begins.subset (by simp)))

theorem leads_keys (standing : Standing)
    (leads : (opening capabilities delaysAll source sink journal).Leads standing)
    (pathname : String) (member : pathname ∈ standing.memory.waitlist.pathnames) :
    pathname ≠ "" ∧ Announceable pathname := by
  have lawful := leads_lawful capabilities delaysAll source sink journal standing leads
  rcases lawful.entered pathname member with seeded | ⟨_, packets, heard, allows⟩
  · exact ⟨Waitlist.named_seeded pathname seeded, Waitlist.announceable_seeded pathname seeded⟩
  · have legal := leads_legal capabilities delaysAll source sink journal standing leads
    exact allows_announceable pathname packets (legal packets heard) allows

theorem leads_secure (standing : Standing)
    (leads : (opening capabilities delaysAll source sink journal).Leads standing) :
    Secure standing.now := by
  induction leads with
  | refl => trivial
  | tail before follows ih =>
      cases follows with
      | rerun stopped => trivial
      | step step =>
          apply step_secure _ _ step _ ih
          intro pathname member
          exact (leads_keys capabilities delaysAll source sink journal _ before pathname member).2

-- The instants of a run go on from all the runs before it.
theorem converse_unfailing (memory : Memory) (reached : memory.Reached) (failure : Failure)
    (failed : (converse source ⟨memory, sink, journal⟩).failure? = some failure) :
    ¬failure.Internal := by
  rcases reachable_of_reached memory reached with ⟨capabilities, delaysAll, past, reachable⟩
  rcases reachable source sink journal with ⟨first, channel, book, leads⟩
  rcases dialogue.steps_converse .command [] source ⟨memory, sink, journal⟩ with
    ⟨last, steps, ended⟩
  have secure := leads_secure capabilities delaysAll first channel book ⟨past, last⟩
    (leads.trans (leads_steps past _ last steps))
  have stopped := ((last.ending?_eq_some_iff _).mp ended).1
  simp only [Secure, stopped] at secure
  exact secure failure failed

/-- Whatever is fed to any number of runs and whatever refuses anything, no run is ever about to
send more than a packet holds or to enter a pathname twice, and none ends with such a failure. -/
theorem reachable_unfailing (standing : Standing)
    (reachable : Reachable capabilities delaysAll standing) :
    (∀ pathname ∈ standing.memory.waitlist.pathnames,
      pathname ≠ "" ∧ (Text.bytes pathname).length ≤ 65507) ∧
    (∀ effects next, standing.now.activity = .reacting effects next →
      ∀ payload, .send payload ∈ effects → payload.length ≤ Packet.maxPayload) ∧
    (∀ pathname, ∃ after, standing.memory.allowDelay pathname = .ok after) ∧
    (∀ failure, standing.now.activity = .ended (some failure) → ¬failure.Internal) ∧
    ∀ memory : Memory, memory.Reached → ∀ source sink journal failure,
      (converse source ⟨memory, sink, journal⟩).failure? = some failure → ¬failure.Internal := by
  rcases reachable with ⟨source, sink, journal, leads⟩
  have secure := leads_secure capabilities delaysAll source sink journal standing leads
  unfold Secure at secure
  refine ⟨?_, ?_, ?_, ?_, ?_⟩
  · intro pathname member
    rcases leads_keys capabilities delaysAll source sink journal standing leads pathname member with
      ⟨named, fits⟩
    exact ⟨named, (announceable_iff pathname).mp fits⟩
  · intro effects next reacting
    rw [reacting] at secure
    exact secure.fits
  · intro pathname
    exact ⟨_, standing.memory.allowDelay_eq_permit pathname⟩
  · intro failure ended
    rw [ended] at secure
    exact secure failure rfl
  · intro memory reached source sink journal failure
    exact converse_unfailing source sink journal memory reached failure

-- The reply that tells of the delay is refused, and the pathname stays on the list.
theorem reachable_unfailing_refused :
    ∃ standing : Standing, standing.now.activity = .ended (some (.channel "gone")) ∧
      ¬(Failure.channel "gone").Internal ∧
      "a.a" ∈ standing.memory.waitlist.pathnames ∧ (Text.bytes "a.a").length ≤ 65507 := by
  let now : Instant Phase := .start .command (.sending [.file postponedSmudge, .list])
    ⟨Memory.fresh [⟨"smudge"⟩] true, { flushFault := some (0, "gone") }, { path := "filter.log" }⟩
  have walks : (dialogue.walk? 19 now).map (fun later =>
      (later.ending?.map Ending.failure?, later.desk.memory.waitlist.pathnames.contains "a.a")) =
        some (some (some (.channel "gone")), true) := by
    decide +kernel
  rcases Option.map_eq_some_iff.mp walks with ⟨later, walked, seen⟩
  rcases Prod.mk.inj seen with ⟨failed, entered⟩
  rcases Option.map_eq_some_iff.mp failed with ⟨ending, ended, same⟩
  have stopped := ((later.ending?_eq_some_iff ending).mp ended).1
  rw [same] at stopped
  have steps := Dialogue.steps_walk? 19 now later walked
  have leads : Leads ⟨[], now⟩ ⟨[], later⟩ := leads_steps [] now later steps
  have listed : "a.a" ∈ later.desk.memory.waitlist.pathnames := List.contains_iff_mem.mp entered
  rcases reachable_unfailing [⟨"smudge"⟩] true ⟨[], later⟩ ⟨_, _, _, leads⟩ with
    ⟨keys, _, _, foreign, _⟩
  exact ⟨⟨[], later⟩, stopped, foreign _ stopped, listed, (keys "a.a" listed).2⟩

end Standing

end Exchange

end ContentFilter
