import ContentFilter.Proofs.Turns
import ContentFilter.Proofs.Performing

/-!
The memories that a filter can come to have, after any number of runs with whatever input and
whatever faults. Every pathname on such a waitlist came in a packet, so the line that announces it
fits a packet: no reply to a list query is ever refused for its size.
-/

namespace ContentFilter

namespace Effect

theorem perform_memory (effect : Effect) (desk : Desk) :
    (effect.perform desk).state.memory = effect.recallOne desk.memory := by
  cases effect with
  | send payload =>
      simp only [perform]
      cases desk.sink.send payload <;> rfl
  | flush =>
      simp only [perform]
      cases desk.sink.flush <;> rfl
  | note remark =>
      simp only [perform]
      cases desk.journal.note remark <;> rfl
  | remember memory => rfl

-- A halt keeps what the effects in front of it remembered, and no more.
theorem performAll_memory (effects : List Effect) (desk : Desk) :
    ∃ done, done <+: effects ∧
      (performAll effects desk).state.memory = recallAll desk.memory done ∧
      ∀ after, performAll effects desk = .on after → done = effects := by
  induction effects generalizing desk with
  | nil => exact ⟨[], List.prefix_rfl, rfl, fun _ _ => rfl⟩
  | cons effect rest ih =>
      have here := perform_memory effect desk
      simp only [performAll]
      cases went : effect.perform desk with
      | halted failure after =>
          rw [went] at here
          exact ⟨[effect], by simp, here, fun _ halted => by cases halted⟩
      | on after =>
          rw [went] at here
          obtain ⟨done, beginning, later, all⟩ := ih after
          refine ⟨effect :: done, List.cons_prefix_cons.mpr ⟨rfl, beginning⟩, ?_, ?_⟩
          · simp only [Progress.on_andThen, later, recallAll, List.foldl_cons]
            rw [← here]
            rfl
          · intro reached performed
            rw [all reached performed]

theorem recallAll_keeps (Good : Memory → Prop) (memory : Memory) (effects done : List Effect)
    (before : Good memory) (each : ∀ remembered, .remember remembered ∈ effects → Good remembered)
    (beginning : done <+: effects) : Good (recallAll memory done) := by
  have those : ∀ remembered, .remember remembered ∈ done → Good remembered :=
    fun remembered member => each remembered (beginning.subset member)
  clear beginning each
  induction done generalizing memory with
  | nil => exact before
  | cons effect rest ih =>
      simp only [recallAll, List.foldl_cons]
      have later : ∀ remembered, .remember remembered ∈ rest → Good remembered :=
        fun remembered member => those remembered (List.mem_cons_of_mem effect member)
      cases effect with
      | remember remembered => exact ih remembered (those remembered List.mem_cons_self) later
      | send | flush | note => exact ih memory before later

end Effect

namespace Dialogue

variable {Phase : Type}

/-- What every reaction keeps, however far it is carried out, the dialogue keeps. -/
theorem converse_keeps (dialogue : Dialogue Phase) (Keeps : Phase → Memory → Prop)
    (Good : Memory → Prop) (good : ∀ phase memory, Keeps phase memory → Good memory)
    (step : ∀ phase memory packet, Keeps phase memory → packet.Legal →
      (∀ done, done <+: (dialogue.hear memory phase packet).effects →
        Good (Effect.recallAll memory done)) ∧
      ∀ next, (dialogue.hear memory phase packet).next = .await next →
        Keeps next (Effect.recallAll memory (dialogue.hear memory phase packet).effects))
    (parting : ∀ phase memory done, Keeps phase memory →
      done <+: (dialogue.hangUp phase).effects → Good (Effect.recallAll memory done))
    (phase : Phase) (source : Source) (desk : Desk) (start : Keeps phase desk.memory) :
    Good (dialogue.converse phase source desk).desk.memory := by
  induction size : source.unread using Nat.strongRecOn
    generalizing phase source desk with
  | ind unread ih =>
      cases read : source.next with
      | mk outcome rest =>
          cases outcome with
          | error failure =>
              rw [converse_fault dialogue phase source rest desk failure read]
              exact good phase desk.memory start
          | ok found =>
              cases found with
              | none =>
                  rw [converse_closed dialogue phase source rest desk read, part]
                  obtain ⟨done, beginning, remembered, _⟩ :=
                    Effect.performAll_memory (dialogue.hangUp phase).effects desk
                  have kept := parting phase desk.memory done start beginning
                  rw [← remembered] at kept
                  cases went : Effect.performAll (dialogue.hangUp phase).effects desk with
                  | halted failure after =>
                      rw [went] at kept
                      exact kept
                  | on after =>
                      rw [went] at kept
                      exact kept
              | some packet =>
                  rw [converse_packet dialogue phase source rest desk packet read, react]
                  have legal := Source.next_legal source rest packet read
                  obtain ⟨halfway, wholly⟩ := step phase desk.memory packet start legal
                  obtain ⟨done, beginning, remembered, all⟩ := Effect.performAll_memory
                    (dialogue.hear desk.memory phase packet).effects desk
                  have kept := halfway done beginning
                  rw [← remembered] at kept
                  cases went : Effect.performAll
                    (dialogue.hear desk.memory phase packet).effects desk with
                  | halted failure after =>
                      rw [went] at kept
                      exact kept
                  | on after =>
                      rw [went] at kept remembered
                      rw [all after went] at remembered
                      cases next : (dialogue.hear desk.memory phase packet).next with
                      | fail failure => exact kept
                      | finish => exact kept
                      | await phase' =>
                          have shorter := Source.next_shrinks source rest packet read
                          simp only [Packet.headerSize] at shorter
                          refine ih rest.unread (by omega) phase' rest after ?_ rfl
                          have reached := wholly phase' next
                          rwa [← remembered] at reached

end Dialogue

namespace Memory

/-- After runs on arbitrary sources, into arbitrary channels and journals, failed ones included. -/
inductive Reached : Memory → Prop
  | fresh (capabilities : List Capability) (delaysAll : Bool) :
      Reached (fresh capabilities delaysAll)
  | run {memory : Memory} (before : Reached memory) (source : Source) (sink : Sink)
      (journal : Journal) :
      Reached (Exchange.converse source ⟨memory, sink, journal⟩).desk.memory

end Memory

/-- The line that announces the pathname fits a packet. -/
def Announceable (pathname : String) : Prop :=
  (Text.bytes (Exchange.pathnameLine pathname)).length ≤ Packet.maxPayload

theorem announceable_of_field (packet : Packet) (pathname : String) (legal : packet.Legal)
    (found : packet.field "pathname" = .ok pathname) : Announceable pathname := by
  obtain ⟨_, carried⟩ := (Packet.field_eq_ok_iff packet "pathname" pathname).mp found
  exact Packet.carries_fits packet _ carried legal

namespace Waitlist

def Announceable (waitlist : Waitlist) : Prop :=
  ∀ pathname ∈ waitlist.pathnames, ContentFilter.Announceable pathname

theorem announceable_seeded : seeded.Announceable := by
  unfold Announceable ContentFilter.Announceable
  decide

-- Asking and filling put a ticket in the place of another.
theorem pathnames_put? (waitlist : Waitlist) (pathname : String) (ticket? : Option Ticket) :
    ((ticket?.map (waitlist.put pathname)).getD waitlist).pathnames = waitlist.pathnames := by
  cases ticket? with
  | none => rfl
  | some ticket => exact waitlist.pathnames_put pathname ticket

theorem announceable_grown (waitlist after : Waitlist) (pathname : String)
    (known : waitlist.Announceable) (fits : ContentFilter.Announceable pathname)
    (grown : after.pathnames = waitlist.pathnames ∨
      after.pathnames = waitlist.pathnames ++ [pathname]) : after.Announceable := by
  intro other member
  rcases grown with same | more
  · exact known other (same ▸ member)
  · rw [more, List.mem_append, List.mem_singleton] at member
    rcases member with old | new
    · exact known other old
    · rwa [new]

theorem mem_announce (entry : String × Ticket) (pathname : String)
    (member : pathname ∈ announce entry) :
    pathname = entry.1 ∧ isReady entry = true ∨ pathname = Reserved.stranger := by
  simp only [announce, List.mem_append] at member
  rcases member with strange | own
  · split at strange
    · exact .inr (List.mem_singleton.mp strange)
    · cases strange
  · split at own
    · rename_i ready
      exact .inl ⟨List.mem_singleton.mp own, ready⟩
    · cases own

-- The stranger is on no waitlist, but its name is short.
theorem announced_announceable (waitlist : Waitlist) (known : waitlist.Announceable)
    (pathname : String) (member : pathname ∈ waitlist.announcement.announced) :
    ContentFilter.Announceable pathname := by
  obtain ⟨entry, listed, announced⟩ := List.mem_flatMap.mp member
  rcases mem_announce entry pathname announced with ⟨same, _⟩ | strange
  · rw [same]
    exact known entry.1 (List.mem_map_of_mem listed)
  · rw [strange]
    unfold ContentFilter.Announceable
    decide

end Waitlist

namespace Memory

def Announceable (memory : Memory) : Prop := memory.waitlist.Announceable

-- A pathname is entered once, behind the others, and never taken off.
theorem pathnames_allowDelay (memory after : Memory) (pathname : String)
    (allowed : memory.allowDelay pathname = .ok after) :
    after.waitlist.pathnames = memory.waitlist.pathnames ∨
      pathname ∉ memory.waitlist.pathnames ∧
        after.waitlist.pathnames = memory.waitlist.pathnames ++ [pathname] := by
  unfold allowDelay at allowed
  split at allowed
  · cases allowed
    exact .inl (Waitlist.pathnames_put? memory.waitlist pathname _)
  · split at allowed
    · cases added : memory.waitlist.addAsked pathname Ticket.onTheFly with
      | error problem => simp [added, Except.map] at allowed
      | ok waitlist =>
          rw [added] at allowed
          cases allowed
          obtain ⟨absent, entries⟩ := (Waitlist.add_eq_ok_iff _ waitlist pathname _).mp added
          refine .inr ⟨absent, ?_⟩
          simp [Waitlist.pathnames, entries]
    · cases allowed
      exact .inl rfl

theorem pathnames_after (memory : Memory) (request : Request) (answer : Answer) :
    (memory.after request answer).waitlist.pathnames = memory.waitlist.pathnames := by
  cases answer with
  | delayed output => exact Waitlist.pathnames_put? memory.waitlist request.pathname _
  | aborted | refused | content | brokenOff => rfl

theorem pathnames_settle (memory : Memory) (request : Request) (reply : Reply) :
    (memory.settle request reply).waitlist.pathnames = memory.waitlist.pathnames := by
  cases reply with
  | answered answer =>
      rw [settle_answered]
      exact pathnames_after memory request answer
  | listed | unsupported => rfl

theorem pathnames_allowing (memory : Memory) (call : FileCall) :
    (memory.allowing call).waitlist.pathnames = memory.waitlist.pathnames ∨
      call.pathname ∉ memory.waitlist.pathnames ∧
        (memory.allowing call).waitlist.pathnames =
          memory.waitlist.pathnames ++ [call.pathname] := by
  unfold allowing
  split
  · exact pathnames_allowDelay memory _ call.pathname (allowDelay_eq_permit memory call.pathname)
  · exact .inl rfl

theorem pathnames_turn (memory : Memory) (call : Call) :
    (memory.turn call).memory.waitlist.pathnames = memory.waitlist.pathnames ∨
      ∃ asked, call = .file asked ∧ asked.pathname ∉ memory.waitlist.pathnames ∧
        (memory.turn call).memory.waitlist.pathnames =
          memory.waitlist.pathnames ++ [asked.pathname] := by
  cases call with
  | list => exact .inl memory.waitlist.pathnames_countDown
  | file asked =>
      simp only [turn, pathnames_settle]
      rcases memory.pathnames_allowing asked with same | ⟨absent, more⟩
      · exact .inl same
      · exact .inr ⟨asked, rfl, absent, more⟩

theorem announceable_allowDelay (memory after : Memory) (pathname : String)
    (known : memory.Announceable) (fits : ContentFilter.Announceable pathname)
    (allowed : memory.allowDelay pathname = .ok after) : after.Announceable :=
  memory.waitlist.announceable_grown after.waitlist pathname known fits
    ((pathnames_allowDelay memory after pathname allowed).imp_right And.right)

theorem announceable_turn (memory : Memory) (call : Call) (known : memory.Announceable)
    (fits : ∀ asked, call = .file asked → ContentFilter.Announceable asked.pathname) :
    (memory.turn call).memory.Announceable := by
  rcases pathnames_turn memory call with same | ⟨asked, entered, _, more⟩
  · unfold Announceable Waitlist.Announceable
    rwa [same]
  · exact memory.waitlist.announceable_grown _ asked.pathname known (fits asked entered) (.inr more)

/-- Every pathname on the waitlist satisfies `holds`. -/
def Lists (memory : Memory) (holds : String → Prop) : Prop :=
  ∀ pathname ∈ memory.waitlist.pathnames, holds pathname

theorem lists_turn (holds : String → Prop) (memory : Memory) (call : Call)
    (listed : memory.Lists holds) (sent : ∀ asked, call = .file asked → holds asked.pathname) :
    (memory.turn call).memory.Lists holds := by
  intro pathname member
  rcases memory.pathnames_turn call with same | ⟨asked, entered, _, more⟩
  · exact listed pathname (same ▸ member)
  · rw [more, List.mem_append, List.mem_singleton] at member
    rcases member with old | rfl
    · exact listed pathname old
    · exact sent asked entered

end Memory

namespace Exchange

/-- From its arrival to the end of the details a pathname is waiting to be put on the list. -/
def Phase.Announceable : Phase → Prop
  | .details _ name _ => ContentFilter.Announceable name
  | _ => True

theorem fileReply_remembered (memory remembered : Memory) (request : Request) (answer : Answer)
    (member : .remember remembered ∈ fileReply memory request answer) :
    remembered = memory.after request answer := by
  cases answer <;> simp_all [fileReply, sayStatus, contentReply, Effect.say]

theorem listReply_remembered (memory remembered : Memory)
    (member : .remember remembered ∈ listReply memory) : remembered = memory.countDown := by
  simpa [listReply, sayStatus, Effect.say] using member

theorem fileReply_remembers (memory remembered : Memory) (request : Request) (answer : Answer)
    (known : memory.Announceable)
    (member : .remember remembered ∈ fileReply memory request answer) :
    remembered.Announceable := by
  rw [fileReply_remembered memory remembered request answer member]
  unfold Memory.Announceable Waitlist.Announceable
  rwa [Memory.pathnames_after]

theorem hear_remembers (memory remembered : Memory) (phase : Phase) (packet : Packet)
    (known : memory.Announceable) (waiting : phase.Announceable)
    (member : .remember remembered ∈ (hear memory phase packet).effects) :
    remembered.Announceable := by
  cases phase with
  | command =>
      simp only [hear, hearCommand] at member
      split at member
      · cases member
      · split at member
        · cases member
        · simp at member
  | listEnd =>
      simp only [hear, hearListEnd] at member
      split at member
      · cases member
      · rw [listReply_remembered memory remembered member]
        exact Memory.announceable_turn memory .list known (fun _ other => by cases other)
  | pathname command =>
      simp only [hear, hearPathname] at member
      split at member
      · cases member
      · simp at member
  | details command name mayDelay =>
      simp only [hear, hearDetail] at member
      split at member
      · cases member
      · split at member
        · split at member
          · cases member
          · rename_i allowed
            simp only [List.mem_singleton, Effect.remember.injEq] at member
            subst remembered
            exact Memory.announceable_allowDelay memory _ name known waiting allowed
        · cases member
      · split at member
        · cases member
        · split at member
          · simp at member
          · cases member
  | content command name received =>
      cases packet with
      | data payload => cases member
      | flush =>
          simp only [hear, hearContent, conclude] at member
          split at member
          · simp at member
          · simp only [List.mem_cons, reduceCtorEq, false_or] at member
            exact fileReply_remembers memory remembered _ _ known member

theorem hear_awaits (memory : Memory) (phase next : Phase) (packet : Packet)
    (waiting : phase.Announceable) (legal : packet.Legal)
    (awaits : (hear memory phase packet).next = .await next) : next.Announceable := by
  cases phase with
  | command =>
      simp only [hear, hearCommand] at awaits
      split at awaits
      · cases awaits
      · split at awaits
        · cases awaits
        · cases awaits
          split <;> trivial
  | listEnd =>
      simp only [hear, hearListEnd] at awaits
      split at awaits <;> cases awaits
      trivial
  | pathname command =>
      simp only [hear, hearPathname] at awaits
      split at awaits
      · cases awaits
      · rename_i name found
        cases awaits
        exact announceable_of_field packet name legal found
  | details command name mayDelay =>
      simp only [hear, hearDetail] at awaits
      split at awaits
      · cases awaits
      · split at awaits
        · split at awaits <;> cases awaits
          trivial
        · cases awaits
          trivial
      · split at awaits
        · cases awaits
          exact waiting
        · split at awaits <;> cases awaits
          exact waiting
  | content command name received =>
      cases packet with
      | data payload =>
          cases awaits
          trivial
      | flush =>
          simp only [hear, hearContent, conclude] at awaits
          split at awaits
          · cases awaits
          · split at awaits <;> cases awaits
            trivial

theorem converse_announceable (source : Source) (desk : Desk)
    (known : desk.memory.Announceable) :
    (converse source desk).desk.memory.Announceable := by
  refine dialogue.converse_keeps (fun phase memory => memory.Announceable ∧ phase.Announceable)
    Memory.Announceable (fun _ _ kept => kept.1) ?_ ?_ .command source desk ⟨known, trivial⟩
  · intro phase memory packet ⟨kept, waiting⟩ legal
    have each := fun remembered => hear_remembers memory remembered phase packet kept waiting
    refine ⟨fun done => Effect.recallAll_keeps _ memory _ done kept each, ?_⟩
    intro next awaits
    exact ⟨Effect.recallAll_keeps _ memory _ _ kept each List.prefix_rfl,
      hear_awaits memory phase next packet waiting legal awaits⟩
  · intro phase memory done ⟨kept, _⟩ beginning
    refine Effect.recallAll_keeps _ memory _ done kept ?_ beginning
    intro remembered member
    cases phase <;> simp [dialogue, hangUp] at member

end Exchange

namespace Memory

theorem Reached.announceable {memory : Memory} (reached : memory.Reached) :
    memory.Announceable := by
  induction reached with
  | fresh capabilities delaysAll => exact Waitlist.announceable_seeded
  | run before source sink journal ih =>
      exact Exchange.converse_announceable source ⟨_, sink, journal⟩ ih

end Memory

end ContentFilter
