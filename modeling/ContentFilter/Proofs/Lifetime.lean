import ContentFilter.Proofs.Grammar
import ContentFilter.Proofs.Instants
import ContentFilter.Proofs.Tickets

/-!
One memory over any number of runs. Each run may be fed anything and may be cut short by any fault,
so nothing here is said of requests as a whole: `Change` is what a single effect can do to the
memory, `step_placed` that there is nothing else, and the laws of the waitlist are kept by each
change.
-/

namespace ContentFilter

namespace Exchange

/-! ### What has been heard -/

/-- `packets` hold a request that allows a delay of `pathname`, at least up to the flush behind its
details. -/
def Allows (pathname : String) (packets : List Packet) : Prop :=
  ∃ (calls : List Call) (before : List Packet) (call : FileCall) (opened : List Packet),
    Call.AllSpelled calls before ∧ call.Opened opened ∧ call.pathname = pathname ∧
      call.mayDelay = true ∧ before ++ opened ++ [.flush] <+: packets

/-- `packets` are complete requests, and `call` is the last of them. -/
def Ends (call : Call) (packets : List Packet) : Prop :=
  ∃ calls before request, Call.AllSpelled calls before ∧ call.Spelled request ∧
    packets = before ++ request

theorem allows_mono (pathname : String) (packets longer : List Packet)
    (allows : Allows pathname packets) (begins : packets <+: longer) : Allows pathname longer := by
  obtain ⟨calls, before, call, opened, spelled, asked, same, delays, shorter⟩ := allows
  exact ⟨calls, before, call, opened, spelled, asked, same, delays, shorter.trans begins⟩

-- Only the flush behind the details makes a difference.
theorem allows_append_iff (pathname : String) (heard : List Packet) (packet : Packet) :
    Allows pathname (heard ++ [packet]) ↔ Allows pathname heard ∨
      packet = .flush ∧
        ∃ command, Phase.command.reach? heard = some (.details command pathname true) := by
  constructor
  · rintro ⟨calls, before, call, opened, spelled, asked, rfl, delays, begins⟩
    rcases List.prefix_concat_iff.mp begins with same | earlier
    · obtain ⟨behind, last⟩ := List.append_inj' same rfl
      refine .inr ⟨(List.cons.inj last).1.symm, call.command, ?_⟩
      rw [← behind, Phase.reach?_append, reach?_allSpelled calls before spelled, Option.bind_some,
        reach?_opened call opened asked, delays]
    · exact .inl ⟨calls, before, call, opened, spelled, asked, rfl, delays, earlier⟩
  · rintro (allows | ⟨rfl, command, reached⟩)
    · exact allows_mono pathname heard _ allows (List.prefix_append heard _)
    · obtain ⟨calls, before, begun, rfl, spelled, inside⟩ := (reach?_eq_some_iff _ _).mp reached
      obtain ⟨call, opened, rfl, rfl, delays⟩ := begun_details _ _ _ _ inside
      exact ⟨calls, before, call, begun, spelled, opened, rfl, delays, List.prefix_rfl⟩

theorem ends_listEnd (heard : List Packet)
    (reached : Phase.command.reach? heard = some .listEnd) : Ends .list (heard ++ [.flush]) := by
  obtain ⟨calls, before, begun, rfl, spelled, inside⟩ := (reach?_eq_some_iff _ _).mp reached
  exact ⟨calls, before, _, spelled, begun_listEnd begun inside, List.append_assoc _ _ _⟩

theorem ends_content (heard : List Packet) (command : Command) (pathname : String)
    (received : Array UInt8)
    (reached : Phase.command.reach? heard = some (.content command pathname received)) :
    ∃ call : FileCall, Ends (.file call) (heard ++ [.flush]) ∧
      call.request = ⟨command, pathname, received.toList⟩ := by
  obtain ⟨calls, before, begun, rfl, spelled, inside⟩ := (reach?_eq_some_iff _ _).mp reached
  obtain ⟨call, complete, same⟩ := begun_content command pathname received begun inside
  exact ⟨call, ⟨calls, before, _, spelled, complete, List.append_assoc _ _ _⟩, same⟩

end Exchange

namespace Effect

/-- What the effect makes the filter remember. -/
def remembered? : Effect → Option Memory
  | .remember memory => some memory
  | .send _ | .flush | .note _ => none

end Effect

namespace Memory

theorem answer?_delayed (memory : Memory) (request : Request) (output : Bytes)
    (delayed : memory.answer? request = some (.delayed output)) :
    request.command = .smudge ∧ memory.supports .smudge = true ∧
      output = Rotation.rotate request.payload := by
  have decided := memory.replyTo_decides request
  rw [replyTo_eq, delayed] at decided
  cases decided with
  | delayed smudged awaited unforced =>
      refine ⟨smudged, ?_, rfl⟩
      -- Nothing is kept for a pathname that is waited for, so the payload has been rotated.
      have unkept := kept?_of_awaited memory request.pathname awaited
      rw [answer?_unforced memory request unforced] at delayed
      obtain ⟨found, chosen, _⟩ := Option.map_eq_some_iff.mp delayed
      simp only [output?, unkept, Option.ite_none_right_eq_some] at chosen
      exact smudged ▸ chosen.1

end Memory

namespace Exchange

/-! ### What one effect changes -/

/-- What can become of the memory while `heard` is the last that has been heard. -/
inductive Change (heard : List Packet) (memory : Memory) : Memory → Prop
  | permitted (pathname : String) (allows : Allows pathname heard) :
      Change heard memory (memory.permit pathname)
  | counted (ended : Ends .list heard) : Change heard memory memory.countDown
  | aborted (command : Command) : Change heard memory (memory.abort command)
  | filled (call : FileCall) (ended : Ends (.file call) heard) (smudged : call.command = .smudge)
      (supported : memory.supports .smudge = true) :
      Change heard memory (memory.fill call.pathname (Rotation.rotate call.payload))

/-- At most one of the effects is remembered, and a new pathname is entered before anything else is
done. -/
inductive Pending (heard : List Packet) (memory : Memory) (effects : List Effect) : Prop
  | nothing (none : effects.filterMap Effect.remembered? = [])
  | change (after : Memory) (one : effects.filterMap Effect.remembered? = [after])
      (change : Change heard memory after)
      (first : after.waitlist.pathnames = memory.waitlist.pathnames ∨ effects = [.remember after])

theorem recalled_sends (payloads : List Bytes) :
    (payloads.map Effect.send).filterMap Effect.remembered? = [] := by
  rw [List.filterMap_eq_nil_iff]
  intro effect member
  obtain ⟨payload, _, rfl⟩ := List.mem_map.mp member
  rfl

theorem recalled_notes (remarks : List Remark) :
    (remarks.map Effect.note).filterMap Effect.remembered? = [] := by
  rw [List.filterMap_eq_nil_iff]
  intro effect member
  obtain ⟨remark, _, rfl⟩ := List.mem_map.mp member
  rfl

theorem recalled_listReply (memory : Memory) :
    (listReply memory).filterMap Effect.remembered? = [memory.countDown] := by
  have lines := recalled_sends (memory.waitlist.announcement.announced.map fun pathname =>
    Text.bytes (pathnameLine pathname))
  rw [List.map_map] at lines
  simp only [listReply, List.filterMap_append, List.filterMap_cons, Effect.remembered?]
  exact congrArg (fun more => memory.countDown :: (more ++ [] ++ [])) lines

theorem pending_conclude (heard : List Packet) (memory : Memory) (call : FileCall)
    (ended : Ends (.file call) heard) :
    Pending heard memory (conclude memory call.request).effects := by
  unfold conclude
  split
  · exact .nothing rfl
  · rename_i answer decided
    cases answer with
    | aborted => exact .change _ rfl (.aborted call.command) (.inl rfl)
    | delayed output =>
        obtain ⟨smudged, supported, rfl⟩ := memory.answer?_delayed call.request output decided
        refine .change _ rfl (.filled call ended smudged supported) (.inl ?_)
        exact Waitlist.pathnames_put? memory.waitlist call.pathname _
    | content output =>
        refine .nothing ?_
        have sent := recalled_sends (Packet.cut output)
        simp only [fileReply, contentReply, List.filterMap_append, List.filterMap_cons, sent]
        rfl
    | refused | brokenOff => exact .nothing rfl

theorem pending_hear (memory : Memory) (phase : Phase) (packet : Packet) (heard : List Packet)
    (reached : Phase.command.reach? heard = some phase) :
    Pending (heard ++ [packet]) memory (hear memory phase packet).effects ∧
      ∀ next, (hear memory phase packet).next = .await next →
        Phase.command.reach? (heard ++ [packet]) = some next := by
  have onward (next : Phase) (follows : phase.follow? packet = some next) :
      Phase.command.reach? (heard ++ [packet]) = some next := by
    rw [Phase.reach?_append, reached, Option.bind_some, Phase.reach?_cons, follows]
    rfl
  have hearing := hear_hearing memory phase packet
  generalize hear memory phase packet = reaction at hearing
  cases hearing with
  | noted remarks follows =>
      refine ⟨.nothing (recalled_notes remarks), ?_⟩
      rintro _ ⟨⟩
      exact onward _ follows
  | allowed command pathname =>
      refine ⟨.change _ rfl (.permitted pathname ?_) (.inr rfl), ?_⟩
      · exact (allows_append_iff pathname heard .flush).mpr (.inr ⟨rfl, command, reached⟩)
      · rintro _ ⟨⟩
        exact onward _ rfl
  | listed =>
      refine ⟨.change _ (recalled_listReply memory) (.counted (ends_listEnd heard reached))
        (.inl memory.waitlist.pathnames_countDown), ?_⟩
      rintro _ ⟨⟩
      exact onward _ rfl
  | concluded command pathname received =>
      obtain ⟨call, ended, same⟩ := ends_content heard command pathname received reached
      rw [← same]
      refine ⟨pending_conclude _ memory call ended, ?_⟩
      intro next awaits
      unfold conclude at awaits
      split at awaits
      · cases awaits
      · split at awaits <;> cases awaits
        exact onward _ rfl
  | unknown | objected => exact ⟨.nothing rfl, by simp⟩

/-- The phase is the one that the packets lead to, and what is to be remembered comes from them. -/
def Placed (now : Instant Phase) : Prop :=
  match now.activity with
  | .reading phase => Phase.command.reach? now.heard = some phase
  | .reacting effects next =>
      Pending now.heard now.desk.memory effects ∧
        ∀ phase, next = .await phase → Phase.command.reach? now.heard = some phase
  | .ended _ => True

theorem placed_start (source : Source) (desk : Desk) : Placed (.start .command source desk) := rfl

theorem pending_perform (heard : List Packet) (effect : Effect) (effects : List Effect)
    (desk : Desk) (pending : Pending heard desk.memory (effect :: effects)) :
    Pending heard (effect.perform desk).state.memory effects ∧
      ((effect.perform desk).state.memory = desk.memory ∨
        Change heard desk.memory (effect.perform desk).state.memory) := by
  rw [Effect.perform_memory]
  cases effect with
  | remember memory =>
      cases pending with
      | nothing none => cases none
      | change after one change =>
          obtain ⟨rfl, none⟩ := List.cons.inj one
          exact ⟨.nothing none, .inr change⟩
  | send | flush | note =>
      refine ⟨?_, .inl rfl⟩
      cases pending with
      | nothing none => exact .nothing none
      | change after one change first =>
          refine .change after one change (first.imp_right ?_)
          rintro ⟨⟩

theorem step_placed (now later : Instant Phase) (step : dialogue.Step now later)
    (placed : Placed now) :
    Placed later ∧ (later.desk.memory = now.desk.memory ∨
      Change later.heard now.desk.memory later.desk.memory) := by
  cases step with
  | fault read => exact ⟨trivial, .inl rfl⟩
  | @closed phase =>
      refine ⟨⟨?_, ?_⟩, .inl rfl⟩
      · cases phase <;> exact .nothing rfl
      · cases phase <;> simp [dialogue, hangUp, Farewell.next]
  | packet read => exact ⟨pending_hear _ _ _ _ placed, .inl rfl⟩
  | @performed effect effects next heard source desk after went =>
      obtain ⟨pending, changed⟩ := pending_perform heard effect effects desk placed.1
      rw [went] at pending changed
      exact ⟨⟨pending, placed.2⟩, changed⟩
  | @halted effect effects next heard source desk after failure went =>
      obtain ⟨_, changed⟩ := pending_perform heard effect effects desk placed.1
      rw [went] at changed
      exact ⟨trivial, changed⟩
  | @settled next =>
      refine ⟨?_, .inl rfl⟩
      cases next with
      | await phase => exact placed.2 phase rfl
      | finish | fail => trivial

/-! ### What becomes of one ticket -/

/-- The moves that one change can make with the ticket of `pathname`. -/
inductive Moved (memory : Memory) (pathname : String) (heard : List Packet) :
    Option Ticket → Option Ticket → Prop
  | stayed (ticket? : Option Ticket) : Moved memory pathname heard ticket? ticket?
  | entered (all : memory.delaysAll = true) (allows : Allows pathname heard) :
      Moved memory pathname heard none (some ⟨Ticket.onTheFly, .asked⟩)
  | asked (remaining : Nat) :
      Moved memory pathname heard (some ⟨remaining, .idle⟩) (some ⟨remaining, .asked⟩)
  | filled (remaining : Nat) (call : FileCall) (ended : Ends (.file call) heard)
      (smudged : call.command = .smudge) (same : call.pathname = pathname)
      (supported : memory.supports .smudge = true) :
      Moved memory pathname heard (some ⟨remaining, .asked⟩)
        (some ⟨remaining, .filled (Rotation.rotate call.payload)⟩)
  | counted (remaining : Nat) (stage : Stage) (started : stage ≠ .idle) (ended : Ends .list heard) :
      Moved memory pathname heard (some ⟨remaining + 1, stage⟩) (some ⟨remaining, stage⟩)

theorem change_moved (heard : List Packet) (memory after : Memory)
    (change : Change heard memory after) (pathname : String) :
    Moved memory pathname heard (memory.waitlist.find? pathname)
      (after.waitlist.find? pathname) := by
  cases change with
  | permitted asked allows =>
      rw [Memory.find?_permit]
      split
      · rename_i same
        subst same
        cases memory.waitlist.find? pathname with
        | none =>
            cases all : memory.delaysAll with
            | false => exact .stayed none
            | true => exact .entered all allows
        | some ticket =>
            obtain ⟨remaining, stage⟩ := ticket
            cases stage with
            | idle => exact .asked remaining
            | asked | filled => exact .stayed _
      · exact .stayed _
  | counted ended =>
      rw [Memory.countDown, Waitlist.find?_countDown]
      cases memory.waitlist.find? pathname with
      | none => exact .stayed none
      | some ticket =>
          obtain ⟨remaining, stage⟩ := ticket
          by_cases idle : stage = .idle
          · subst idle
            exact .stayed _
          · cases remaining with
            | zero =>
                have still : Ticket.countDown ⟨0, stage⟩ = ⟨0, stage⟩ := by
                  unfold Ticket.countDown
                  split <;> rfl
                rw [Option.map_some, still]
                exact .stayed _
            | succ remaining =>
                have counts : Ticket.countDown ⟨remaining + 1, stage⟩ = ⟨remaining, stage⟩ := by
                  simp [Ticket.countDown, Ticket.isAsked, idle]
                rw [Option.map_some, counts]
                exact .counted remaining stage idle ended
  | aborted command => exact .stayed _
  | filled call ended smudged supported =>
      rw [Memory.find?_fill]
      split
      · rename_i same
        subst same
        cases memory.waitlist.find? call.pathname with
        | none => exact .stayed none
        | some ticket =>
            obtain ⟨remaining, stage⟩ := ticket
            cases stage with
            | asked => exact .filled remaining call ended smudged rfl supported
            | idle | filled => exact .stayed _
      · exact .stayed _

/-- Nothing that the first memory knew is lost in the second, and nothing went back. -/
structure Grown (before after : Memory) : Prop where
  capabilities : after.capabilities = before.capabilities
  delaysAll : after.delaysAll = before.delaysAll
  pathnames : before.waitlist.pathnames <+: after.waitlist.pathnames
  aborted : ∀ command, before.aborted command = true → after.aborted command = true
  tickets : ∀ pathname ticket, before.waitlist.find? pathname = some ticket →
    ∃ later, after.waitlist.find? pathname = some later ∧
      ticket.stage.rank ≤ later.stage.rank ∧ later.remaining ≤ ticket.remaining ∧
      ∀ output, ticket.stage = .filled output → later.stage = .filled output

theorem grown_refl (memory : Memory) : Grown memory memory where
  capabilities := rfl
  delaysAll := rfl
  pathnames := List.prefix_rfl
  aborted := fun _ before => before
  tickets := fun _ ticket found => ⟨ticket, found, Nat.le_refl _, Nat.le_refl _, fun _ => id⟩

theorem Grown.trans {first second third : Memory} (here : Grown first second)
    (there : Grown second third) : Grown first third where
  capabilities := there.capabilities.trans here.capabilities
  delaysAll := there.delaysAll.trans here.delaysAll
  pathnames := here.pathnames.trans there.pathnames
  aborted := fun command before => there.aborted command (here.aborted command before)
  tickets := by
    intro pathname ticket found
    obtain ⟨middle, met, rank, remaining, kept⟩ := here.tickets pathname ticket found
    obtain ⟨last, left, further, fewer, still⟩ := there.tickets pathname middle met
    exact ⟨last, left, Nat.le_trans rank further, Nat.le_trans fewer remaining,
      fun output filled => still output (kept output filled)⟩

theorem pathnames_permit (memory : Memory) (pathname : String) :
    (memory.permit pathname).waitlist.pathnames = memory.waitlist.pathnames ∨
      pathname ∉ memory.waitlist.pathnames ∧ (memory.permit pathname).waitlist.pathnames =
        memory.waitlist.pathnames ++ [pathname] :=
  memory.pathnames_allowDelay _ pathname (memory.allowDelay_eq_permit pathname)

theorem change_grown (heard : List Packet) (memory after : Memory)
    (change : Change heard memory after) : Grown memory after where
  capabilities := by
    cases change with
    | permitted pathname =>
        obtain ⟨waitlist, same⟩ := memory.permit_waitlist pathname
        rw [same]
    | counted | aborted | filled => rfl
  delaysAll := by
    cases change with
    | permitted pathname =>
        obtain ⟨waitlist, same⟩ := memory.permit_waitlist pathname
        rw [same]
    | counted | aborted | filled => rfl
  pathnames := by
    cases change with
    | permitted pathname =>
        rcases pathnames_permit memory pathname with same | ⟨_, more⟩
        · exact same ▸ List.prefix_rfl
        · exact more ▸ List.prefix_append _ _
    | counted => exact memory.waitlist.pathnames_countDown ▸ List.prefix_rfl
    | aborted => exact List.prefix_rfl
    | filled call =>
        exact Waitlist.pathnames_put? memory.waitlist call.pathname _ ▸ List.prefix_rfl
  aborted := by
    intro command before
    cases change with
    | permitted pathname =>
        obtain ⟨waitlist, same⟩ := memory.permit_waitlist pathname
        rwa [same]
    | counted | filled => exact before
    | aborted other => simp [Memory.abort, before]
  tickets := by
    intro pathname ticket found
    have moved := change_moved heard memory after change pathname
    rw [found] at moved
    generalize after.waitlist.find? pathname = later at moved
    cases moved with
    | stayed => exact ⟨ticket, rfl, Nat.le_refl _, Nat.le_refl _, fun _ => id⟩
    | asked remaining => exact ⟨_, rfl, by simp [Stage.rank], Nat.le_refl _, by simp⟩
    | filled remaining call => exact ⟨_, rfl, by simp [Stage.rank], Nat.le_refl _, by simp⟩
    | counted remaining stage => exact ⟨_, rfl, Nat.le_refl _, Nat.le_succ _, fun _ => id⟩

theorem change_distinct (heard : List Packet) (memory after : Memory)
    (change : Change heard memory after) (distinct : memory.Distinct) : after.Distinct := by
  cases change with
  | permitted pathname =>
      rcases pathnames_permit memory pathname with same | ⟨absent, more⟩
      · rwa [Memory.Distinct, same]
      · exact memory.distinct_entered _ pathname distinct absent more
  | counted =>
      have same := memory.waitlist.pathnames_countDown
      rwa [Memory.Distinct, Memory.countDown, same]
  | aborted => exact distinct
  | filled call =>
      have same := Waitlist.pathnames_put? memory.waitlist call.pathname
      rwa [Memory.Distinct, Memory.fill, Waitlist.fill?, same]

theorem mem_pathnames_iff (memory : Memory) (pathname : String) :
    pathname ∈ memory.waitlist.pathnames ↔ memory.waitlist.find? pathname ≠ none := by
  rw [ne_eq, Waitlist.find?_eq_none_iff, not_not]

theorem mem_permit (memory : Memory) (pathname : String) (all : memory.delaysAll = true) :
    pathname ∈ (memory.permit pathname).waitlist.pathnames := by
  rw [mem_pathnames_iff, Memory.find?_permit, if_pos rfl, all]
  cases memory.waitlist.find? pathname <;> simp [Ticket.permitted]

/-! ### Any number of runs -/

/-- What the runs that are over have heard, and an instant of the present one. -/
structure Standing where
  past : List (List Packet)
  now : Instant Phase

namespace Standing

def memory (standing : Standing) : Memory := standing.now.desk.memory

/-- What has been heard, run by run. -/
def heard (standing : Standing) : List (List Packet) := standing.past ++ [standing.now.heard]

/-- The present run goes on, or it is over and another one begins with the memory it has left. -/
inductive Follows : Standing → Standing → Prop
  | step {past : List (List Packet)} {now later : Instant Phase} (step : dialogue.Step now later) :
      Follows ⟨past, now⟩ ⟨past, later⟩
  | rerun {past : List (List Packet)} {now : Instant Phase} {failure? : Option Failure}
      (stopped : now.activity = .ended failure?) (source : Source) (sink : Sink)
      (journal : Journal) :
      Follows ⟨past, now⟩
        ⟨past ++ [now.heard], .start .command source ⟨now.desk.memory, sink, journal⟩⟩

def Leads : Standing → Standing → Prop := Relation.ReflTransGen Follows

theorem leads_steps (past : List (List Packet)) (now later : Instant Phase)
    (steps : dialogue.Steps now later) : Leads ⟨past, now⟩ ⟨past, later⟩ :=
  Relation.ReflTransGen.lift (Standing.mk past) (fun _ _ step => .step step) _ _ steps

/-- The start of the first run of a new filter. -/
def opening (capabilities : List Capability) (delaysAll : Bool) (source : Source) (sink : Sink)
    (journal : Journal) : Standing :=
  ⟨[], .start .command source ⟨Memory.fresh capabilities delaysAll, sink, journal⟩⟩

def Reachable (capabilities : List Capability) (delaysAll : Bool) (standing : Standing) : Prop :=
  ∃ source sink journal, Leads (opening capabilities delaysAll source sink journal) standing

def Allowed (standing : Standing) (pathname : String) : Prop :=
  ∃ packets ∈ standing.heard, Allows pathname packets

def Sent (standing : Standing) (call : Call) : Prop :=
  ∃ packets ∈ standing.heard, ∃ request, request <+: packets ∧ Ends call request

/-- The flush behind the details has just been read, and `pathname` is about to be entered. -/
def Entering (standing : Standing) (pathname : String) : Prop :=
  ∃ next, standing.now.activity =
    .reacting [.remember (standing.memory.permit pathname)] next

/-- What holds of the memory at every point. -/
structure Lawful (capabilities : List Capability) (delaysAll : Bool) (standing : Standing) :
    Prop where
  agreed : standing.memory.capabilities = capabilities
  rule : standing.memory.delaysAll = delaysAll
  distinct : standing.memory.Distinct
  seeded : ∀ pathname ∈ Waitlist.seeded.pathnames, pathname ∈ standing.memory.waitlist.pathnames
  entered : ∀ pathname ∈ standing.memory.waitlist.pathnames,
    pathname ∈ Waitlist.seeded.pathnames ∨ delaysAll = true ∧ standing.Allowed pathname
  known : ∀ pathname, delaysAll = true → standing.Allowed pathname →
    pathname ∈ standing.memory.waitlist.pathnames ∨ standing.Entering pathname
  cached : ∀ pathname output, standing.memory.kept? pathname = some output ↔
    ∃ remaining, standing.memory.waitlist.find? pathname = some ⟨remaining, .filled output⟩
  kept : ∀ pathname output, standing.memory.kept? pathname = some output →
    ⟨"smudge"⟩ ∈ capabilities ∧ ∃ call : FileCall, call.command = .smudge ∧
      call.pathname = pathname ∧ output = Rotation.rotate call.payload ∧
      standing.Sent (.file call)

theorem follows_heard (first second : Standing) (follows : first.Follows second)
    (packets : List Packet) (member : packets ∈ first.heard) :
    ∃ longer ∈ second.heard, packets <+: longer := by
  cases follows with
  | step step =>
      rcases List.mem_append.mp member with old | present
      · exact ⟨packets, List.mem_append_left _ old, List.prefix_rfl⟩
      · rw [List.mem_singleton.mp present]
        exact ⟨_, List.mem_append_right _ (List.mem_singleton_self _),
          Dialogue.step_heard _ _ step⟩
  | rerun stopped => exact ⟨packets, List.mem_append_left _ member, List.prefix_rfl⟩

theorem follows_allowed (first second : Standing) (follows : first.Follows second)
    (pathname : String) (allowed : first.Allowed pathname) : second.Allowed pathname := by
  obtain ⟨packets, member, allows⟩ := allowed
  obtain ⟨longer, further, begins⟩ := follows_heard first second follows packets member
  exact ⟨longer, further, allows_mono pathname packets longer allows begins⟩

theorem follows_sent (first second : Standing) (follows : first.Follows second) (call : Call)
    (sent : first.Sent call) : second.Sent call := by
  obtain ⟨packets, member, request, begins, ended⟩ := sent
  obtain ⟨longer, further, more⟩ := follows_heard first second follows packets member
  exact ⟨longer, further, request, begins.trans more, ended⟩

theorem follows_placed (first second : Standing) (follows : first.Follows second)
    (placed : Placed first.now) :
    Placed second.now ∧
      (second.memory = first.memory ∨ Change second.now.heard first.memory second.memory) := by
  cases follows with
  | step step => exact step_placed _ _ step placed
  | rerun stopped source sink journal => exact ⟨placed_start _ _, .inl rfl⟩

theorem follows_moved (first second : Standing) (follows : first.Follows second)
    (placed : Placed first.now) (pathname : String) :
    Moved first.memory pathname second.now.heard (first.memory.waitlist.find? pathname)
      (second.memory.waitlist.find? pathname) := by
  rcases (follows_placed first second follows placed).2 with same | change
  · rw [same]
    exact .stayed _
  · exact change_moved _ _ _ change pathname

theorem follows_grown (first second : Standing) (follows : first.Follows second)
    (placed : Placed first.now) : Grown first.memory second.memory := by
  rcases (follows_placed first second follows placed).2 with same | change
  · rw [same]
    exact grown_refl _
  · exact change_grown _ _ _ change

theorem follows_distinct (first second : Standing) (follows : first.Follows second)
    (placed : Placed first.now) (distinct : first.memory.Distinct) : second.memory.Distinct := by
  rcases (follows_placed first second follows placed).2 with same | change
  · rwa [same]
  · exact change_distinct _ _ _ change distinct

theorem leads_placed (first second : Standing) (leads : first.Leads second)
    (placed : Placed first.now) : Placed second.now := by
  induction leads with
  | refl => exact placed
  | tail _ follows ih => exact (follows_placed _ _ follows ih).1

theorem leads_grown (first second : Standing) (leads : first.Leads second)
    (placed : Placed first.now) : Grown first.memory second.memory := by
  induction leads with
  | refl => exact grown_refl _
  | tail before follows ih =>
      exact ih.trans (follows_grown _ _ follows (leads_placed _ _ before placed))

/-! ### The laws at every point -/

theorem lawful_opening (capabilities : List Capability) (delaysAll : Bool) (source : Source)
    (sink : Sink) (journal : Journal) :
    (opening capabilities delaysAll source sink journal).Lawful capabilities delaysAll where
  agreed := rfl
  rule := rfl
  distinct := by
    have seeded : Waitlist.seeded.pathnames.Nodup := by decide
    exact seeded
  seeded := fun _ member => member
  entered := fun _ member => .inl member
  known := by
    rintro pathname _ ⟨packets, member, calls, before, call, opened, _, _, _, _, begins⟩
    obtain rfl := List.mem_singleton.mp member
    simp [opening, Instant.start] at begins
  cached := Memory.kept?_eq_some_iff _
  kept := by
    intro pathname output kept
    obtain ⟨remaining, found⟩ := (Memory.kept?_eq_some_iff _ _ _).mp kept
    cases (Waitlist.find?_seeded pathname remaining _ found).1

-- Only the flush behind the details can make a pathname known, and the entry is the next effect.
theorem packet_known (past : List (List Packet)) (phase : Phase) (heard : List Packet)
    (source rest : Source) (desk : Desk) (packet : Packet) (pathname : String)
    (placed : Phase.command.reach? heard = some phase)
    (known : Allowed ⟨past, ⟨.reading phase, heard, source, desk⟩⟩ pathname →
      pathname ∈ desk.memory.waitlist.pathnames)
    (allowed : Allowed ⟨past, ⟨.reacting (hear desk.memory phase packet).effects
      (hear desk.memory phase packet).next, heard ++ [packet], rest, desk⟩⟩ pathname) :
    pathname ∈ desk.memory.waitlist.pathnames ∨
      Entering ⟨past, ⟨.reacting (hear desk.memory phase packet).effects
        (hear desk.memory phase packet).next, heard ++ [packet], rest, desk⟩⟩ pathname := by
  obtain ⟨packets, member, allows⟩ := allowed
  rcases List.mem_append.mp member with old | present
  · exact .inl (known ⟨packets, List.mem_append_left _ old, allows⟩)
  obtain rfl := List.mem_singleton.mp present
  rcases (allows_append_iff pathname heard packet).mp allows with earlier | ⟨rfl, command, reached⟩
  · have running : heard ∈ past ++ [heard] := by simp
    exact .inl (known ⟨heard, running, earlier⟩)
  · obtain rfl := Option.some.inj (reached.symm.trans placed)
    refine .inr ⟨.await (.content command pathname #[]), ?_⟩
    simp [hear, hearDetail, Packet.line?, Memory.allowDelay_eq_permit, Standing.memory]

-- Remembering never halts, so the entry is made in any case.
theorem perform_enters (effect : Effect) (effects : List Effect) (next after : Next Phase)
    (desk : Desk) (pathname : String) (all : desk.memory.delaysAll = true)
    (entering : Activity.reacting (effect :: effects) next =
      .reacting [.remember (desk.memory.permit pathname)] after) :
    pathname ∈ (effect.perform desk).state.memory.waitlist.pathnames := by
  have same : effect = .remember (desk.memory.permit pathname) :=
    (List.cons.inj (Activity.reacting.inj entering).1).1
  subst same
  exact mem_permit desk.memory pathname all

theorem follows_known (first second : Standing) (follows : first.Follows second)
    (placed : Placed first.now) (all : first.memory.delaysAll = true) (pathname : String)
    (known : first.Allowed pathname →
      pathname ∈ first.memory.waitlist.pathnames ∨ first.Entering pathname)
    (allowed : second.Allowed pathname) :
    pathname ∈ second.memory.waitlist.pathnames ∨ second.Entering pathname := by
  have grown := (follows_grown first second follows placed).pathnames
  cases follows with
  | @rerun past now failure? stopped source sink journal =>
      obtain ⟨packets, member, allows⟩ := allowed
      rcases List.mem_append.mp member with old | present
      · rcases known ⟨packets, old, allows⟩ with found | ⟨next, entering⟩
        · exact .inl found
        · rw [stopped] at entering
          cases entering
      · obtain ⟨calls, before, call, opened, _, _, _, _, begins⟩ := allows
        rw [List.mem_singleton.mp present] at begins
        simp [Instant.start] at begins
  | @step past now later step =>
      have unheard (same : later.heard = now.heard) :
          pathname ∈ now.desk.memory.waitlist.pathnames ∨
            (⟨past, now⟩ : Standing).Entering pathname := by
        unfold Allowed heard at allowed
        rw [same] at allowed
        exact known allowed
      cases step with
      | fault read | closed read =>
          rcases unheard rfl with found | ⟨next, ⟨⟩⟩
          exact .inl found
      | @packet phase heard source rest desk packet read =>
          refine packet_known past phase heard source rest desk packet pathname placed ?_ allowed
          intro allowed
          rcases known allowed with found | ⟨next, ⟨⟩⟩
          exact found
      | @performed effect effects next heard source desk after went
      | @halted effect effects next heard source desk after failure went =>
          rcases unheard rfl with found | ⟨next, entering⟩
          · exact .inl (grown.subset found)
          · have enters := perform_enters effect effects _ next desk pathname all entering
            rw [went] at enters
            exact .inl enters
      | settled =>
          rcases unheard rfl with found | ⟨next, entering⟩
          · exact .inl found
          · cases entering

theorem follows_lawful (capabilities : List Capability) (delaysAll : Bool)
    (first second : Standing) (follows : first.Follows second) (placed : Placed first.now)
    (lawful : first.Lawful capabilities delaysAll) : second.Lawful capabilities delaysAll := by
  have grown := follows_grown first second follows placed
  have moved := follows_moved first second follows placed
  have present : second.now.heard ∈ second.heard :=
    List.mem_append_right _ (List.mem_singleton_self _)
  refine ⟨grown.capabilities.trans lawful.agreed, grown.delaysAll.trans lawful.rule,
    follows_distinct first second follows placed lawful.distinct,
    fun pathname member => grown.pathnames.subset (lawful.seeded pathname member), ?_, ?_,
    Memory.kept?_eq_some_iff _, ?_⟩
  case refine_1 =>
    intro pathname member
    by_cases old : pathname ∈ first.memory.waitlist.pathnames
    · exact (lawful.entered pathname old).imp_right fun ⟨all, allowed⟩ =>
        ⟨all, follows_allowed first second follows pathname allowed⟩
    · have absent := (first.memory.waitlist.find?_eq_none_iff pathname).mpr old
      have step := moved pathname
      rw [absent] at step
      rw [mem_pathnames_iff] at member
      generalize second.memory.waitlist.find? pathname = ticket? at step member
      cases step with
      | stayed => exact absurd rfl member
      | entered all allows => exact .inr ⟨lawful.rule ▸ all, second.now.heard, present, allows⟩
  case refine_2 =>
    intro pathname all
    exact follows_known first second follows placed (lawful.rule.trans all) pathname
      (lawful.known pathname all)
  case refine_3 =>
    intro pathname output kept
    obtain ⟨remaining, found⟩ := (Memory.kept?_eq_some_iff _ _ _).mp kept
    have step := moved pathname
    rw [found] at step
    have before (earlier : Nat)
        (held : first.memory.waitlist.find? pathname = some ⟨earlier, .filled output⟩) :
        ⟨"smudge"⟩ ∈ capabilities ∧ ∃ call : FileCall, call.command = .smudge ∧
          call.pathname = pathname ∧ output = Rotation.rotate call.payload ∧
          second.Sent (.file call) := by
      obtain ⟨supported, call, smudged, same, rotated, sent⟩ := lawful.kept pathname output
        ((Memory.kept?_eq_some_iff _ _ _).mpr ⟨earlier, held⟩)
      exact ⟨supported, call, smudged, same, rotated,
        follows_sent first second follows (.file call) sent⟩
    generalize held : first.memory.waitlist.find? pathname = ticket? at step
    cases step with
    | stayed => exact before remaining held
    | counted => exact before _ held
    | filled _ call ended smudged same supported =>
        refine ⟨?_, call, smudged, same, rfl, second.now.heard, present, _, List.prefix_rfl, ended⟩
        simpa [Memory.supports, Command.capability?, Command.name, lawful.agreed] using supported

/-- The laws hold at every point of any number of runs, each ticket moves forward one step at a
time, and nothing is taken back later. -/
theorem reachable_lawful (capabilities : List Capability) (delaysAll : Bool) (standing : Standing)
    (reachable : Reachable capabilities delaysAll standing) :
    standing.Lawful capabilities delaysAll ∧
    (∀ next, standing.Follows next → ∀ pathname,
      Moved standing.memory pathname next.now.heard (standing.memory.waitlist.find? pathname)
        (next.memory.waitlist.find? pathname)) ∧
    ∀ later, standing.Leads later → Grown standing.memory later.memory := by
  obtain ⟨source, sink, journal, leads⟩ := reachable
  have start := placed_start source ⟨Memory.fresh capabilities delaysAll, sink, journal⟩
  have placed := leads_placed _ standing leads start
  refine ⟨?_, ?_, ?_⟩
  · induction leads with
    | refl => exact lawful_opening capabilities delaysAll source sink journal
    | tail before follows ih =>
        have earlier := leads_placed _ _ before start
        exact follows_lawful capabilities delaysAll _ _ follows earlier (ih earlier)
  · intro next follows pathname
    exact follows_moved standing next follows placed pathname
  · intro later further
    exact leads_grown standing later further placed

-- A whole run, whatever its ending, is followed by any other.
theorem leads_converse (past : List (List Packet)) (source : Source) (desk : Desk) :
    ∃ heard, ∀ later sink journal,
      Leads ⟨past, .start .command source desk⟩ ⟨past ++ [heard],
        .start .command later ⟨(converse source desk).desk.memory, sink, journal⟩⟩ := by
  obtain ⟨last, steps, ended⟩ := dialogue.steps_converse .command [] source desk
  refine ⟨last.heard, ?_⟩
  intro later sink journal
  have run : Leads ⟨past, .start .command source desk⟩ ⟨past, last⟩ := leads_steps past _ last steps
  obtain ⟨activity, heard, rest, after⟩ := last
  cases activity with
  | reading | reacting => cases ended
  | ended failure? =>
      have same : (converse source desk).desk = after :=
        congrArg Ending.desk (Option.some.inj ended).symm
      rw [same]
      exact run.tail (.rerun rfl later sink journal)

-- Every memory that whole runs can leave behind is met on the way.
theorem reachable_of_reached (memory : Memory) (reached : memory.Reached) :
    ∃ capabilities delaysAll past, ∀ source sink journal,
      Reachable capabilities delaysAll ⟨past, .start .command source ⟨memory, sink, journal⟩⟩ := by
  induction reached with
  | fresh capabilities delaysAll =>
      exact ⟨capabilities, delaysAll, [], fun source sink journal => ⟨source, sink, journal, .refl⟩⟩
  | @run memory _ source sink journal ih =>
      obtain ⟨capabilities, delaysAll, past, reachable⟩ := ih
      obtain ⟨heard, run⟩ := leads_converse past source ⟨memory, sink, journal⟩
      refine ⟨capabilities, delaysAll, past ++ [heard], ?_⟩
      intro later other another
      obtain ⟨first, channel, book, leads⟩ := reachable source sink journal
      exact ⟨first, channel, book, leads.trans (run later other another)⟩

-- The run breaks off before the reply has reached the driver, and the output is kept all the same.
theorem reachable_lawful_brokenOff :
    ∃ standing : Standing, standing.past ≠ [] ∧
      standing.memory.kept? "test-delay10.a" = some (Text.bytes "nop") ∧
      ∃ call : FileCall, call.pathname = "test-delay10.a" ∧
        Text.bytes "nop" = Rotation.rotate call.payload ∧ standing.Sent (.file call) := by
  let source := Source.sending (delayedSession.take 1)
  let desk : Desk := ⟨Memory.fresh [⟨"smudge"⟩] false,
    { flushFault := some (0, "gone") }, { path := "filter.log" }⟩
  obtain ⟨heard, run⟩ := leads_converse [] source desk
  have kept : (converse source desk).desk.memory.kept? "test-delay10.a" =
      some (Text.bytes "nop") := by
    decide +kernel
  let standing : Standing :=
    ⟨[heard], .start .command [] ⟨(converse source desk).desk.memory, {}, { path := "filter.log" }⟩⟩
  obtain ⟨lawful, _, _⟩ := reachable_lawful [⟨"smudge"⟩] false standing
    ⟨source, desk.sink, desk.journal, run [] {} { path := "filter.log" }⟩
  obtain ⟨_, call, _, same, rotated, sent⟩ := lawful.kept "test-delay10.a" _ kept
  exact ⟨standing, by simp [standing], kept, call, same, rotated, sent⟩

end Standing

end Exchange

end ContentFilter
