import ContentFilter.Proofs.Reached

/-!
A turn as one pathname sees it. A list query counts its ticket down, a smudge that finds the ticket
asked for fills it, and any other turn at most asks for it: `Turn.Shifts` are these three cases and
`turn_shifts` says that there are no others.
-/

namespace ContentFilter

namespace Turn

/-- A request for `pathname` that allows a delay. -/
def asks (pathname : String) (turn : Turn) : Bool :=
  match turn.call with
  | .list => false
  | .file call => decide (call.pathname = pathname) && call.mayDelay

def sends (command : Command) (pathname : String) (turn : Turn) : Bool :=
  match turn.call with
  | .list => false
  | .file call => decide (call.pathname = pathname) && decide (call.command = command)

/-- The payload of a request for `pathname` that was answered with a delay. -/
def delayed? (pathname : String) (turn : Turn) : Option Bytes :=
  match turn.call, turn.reply with
  | .file call, .answered (.delayed _) =>
      if call.pathname = pathname then some call.payload else none
  | _, _ => none

/-- An error or an abort was reported. -/
def turnedAway (turn : Turn) : Bool :=
  match turn.reply with
  | .answered .refused | .answered .aborted => true
  | _ => false

def isQuery (turn : Turn) : Bool :=
  match turn.call with
  | .list => true
  | .file _ => false

/-- The pathnames that became available with the turn. -/
def ready (turn : Turn) : List String :=
  match turn.reply with
  | .listed announcement => announcement.ready
  | _ => []

end Turn

/-! ### Finding a ticket after a change -/

namespace Ticket

/-- The ticket of a pathname once a request for it has been read, where `asked` says that the
request allows a delay. -/
def permitted (delaysAll asked : Bool) (ticket? : Option Ticket) : Option Ticket :=
  if asked then
    match ticket? with
    | some ticket => some (ticket.ask?.getD ticket)
    | none => if delaysAll then some ⟨onTheFly, .asked⟩ else none
  else ticket?

end Ticket

namespace Waitlist

theorem find?_change (waitlist : Waitlist) (pathname other : String)
    (change : Ticket → Option Ticket) :
    ((((waitlist.find? pathname).bind change).map (waitlist.put pathname)).getD waitlist).find?
        other =
      if other = pathname then
        (waitlist.find? pathname).map fun ticket => (change ticket).getD ticket
      else waitlist.find? other := by
  by_cases same : other = pathname
  · subst same
    cases found : waitlist.find? other with
    | none => simp [found]
    | some ticket =>
        cases changed : change ticket with
        | none => simp [changed, found]
        | some after => simp [changed, find?_put, found]
  · cases (waitlist.find? pathname).bind change with
    | none => simp [same]
    | some after => simp [find?_put, same]

theorem find?_seeded (pathname : String) (remaining : Nat) (stage : Stage)
    (found : seeded.find? pathname = some ⟨remaining, stage⟩) : stage = .idle ∧ remaining ≠ 0 := by
  have every : ∀ entry ∈ seeded.entries, entry.2.stage = .idle ∧ entry.2.remaining ≠ 0 := by
    decide
  obtain ⟨_, _, entries, _⟩ := List.lookup_eq_some_iff.mp found
  exact every (pathname, ⟨remaining, stage⟩) (entries ▸ by simp)

theorem isReady_iff (pathname : String) (present : pathname ≠ Reserved.missingDelay)
    (ticket : Ticket) :
    isReady (pathname, ticket) = true ↔ ticket.stage ≠ .idle ∧ ticket.remaining = 1 := by
  have announced : Reserved.listRule? pathname ≠ some .withhold := by
    unfold Reserved.listRule?
    rw [if_neg present]
    split <;> decide
  simp [isReady, Ticket.isDue, Ticket.isAsked, announced]

theorem ready_announced (waitlist : Waitlist) (pathname : String)
    (ready : pathname ∈ waitlist.announcement.ready) :
    pathname ∈ waitlist.announcement.announced := by
  simp only [announcement, Text.mem_sortedSet, List.mem_map, List.mem_filter] at ready
  obtain ⟨entry, ⟨member, due⟩, same⟩ := ready
  refine List.mem_flatMap.mpr ⟨entry, member, ?_⟩
  simp [announce, due, same]

-- With a pathname entered twice only the first ticket would be found.
theorem mem_entries_iff (waitlist : Waitlist) (distinct : waitlist.pathnames.Nodup)
    (pathname : String) (ticket : Ticket) :
    (pathname, ticket) ∈ waitlist.entries ↔ waitlist.find? pathname = some ticket := by
  obtain ⟨entries⟩ := waitlist
  simp only [pathnames] at distinct
  simp only [find?]
  induction entries with
  | nil => simp
  | cons entry rest ih =>
      obtain ⟨name, first⟩ := entry
      obtain ⟨absent, distinct⟩ := List.nodup_cons.mp distinct
      rw [List.mem_cons, ih distinct, List.lookup_cons]
      by_cases same : pathname = name
      · subst same
        have alone : rest.lookup pathname = none :=
          ((⟨rest⟩ : Waitlist).find?_eq_none_iff pathname).mpr absent
        simp [alone, eq_comm]
      · have apart : (pathname == name) = false := beq_eq_false_iff_ne.mpr same
        simp [same, apart]

theorem mem_ready_iff (waitlist : Waitlist) (distinct : waitlist.pathnames.Nodup)
    (pathname : String) :
    pathname ∈ waitlist.announcement.ready ↔
      ∃ ticket, waitlist.find? pathname = some ticket ∧ isReady (pathname, ticket) = true := by
  have found := waitlist.mem_entries_iff distinct pathname
  simp only [announcement, Text.mem_sortedSet, List.mem_map, List.mem_filter]
  constructor
  · rintro ⟨⟨name, ticket⟩, ⟨member, ready⟩, same⟩
    subst same
    exact ⟨ticket, (found ticket).mp member, ready⟩
  · rintro ⟨ticket, entered, ready⟩
    exact ⟨(pathname, ticket), ⟨(found ticket).mpr entered, ready⟩, rfl⟩

theorem mem_ready_due_iff (waitlist : Waitlist) (distinct : waitlist.pathnames.Nodup)
    (pathname : String) :
    pathname ∈ waitlist.announcement.ready ↔ pathname ≠ Reserved.missingDelay ∧
      ∃ ticket, waitlist.find? pathname = some ticket ∧ ticket.stage ≠ .idle ∧
        ticket.remaining = 1 := by
  rw [waitlist.mem_ready_iff distinct]
  by_cases withheld : pathname = Reserved.missingDelay
  · subst withheld
    have rule : Reserved.listRule? Reserved.missingDelay = some .withhold := rfl
    simp [isReady, rule]
  · simp only [isReady_iff pathname withheld, ne_eq, withheld, not_false_eq_true, true_and]

end Waitlist

namespace Memory

def Distinct (memory : Memory) : Prop := memory.waitlist.pathnames.Nodup

theorem distinct_entered (memory after : Memory) (pathname : String) (distinct : memory.Distinct)
    (absent : pathname ∉ memory.waitlist.pathnames)
    (more : after.waitlist.pathnames = memory.waitlist.pathnames ++ [pathname]) :
    after.Distinct := by
  rw [Distinct, more]
  refine List.nodup_append.mpr ⟨distinct, by simp, ?_⟩
  rintro known member entered new rfl
  exact absent (List.mem_singleton.mp new ▸ member)

theorem distinct_turn (memory : Memory) (call : Call) (distinct : memory.Distinct) :
    (memory.turn call).memory.Distinct := by
  rcases pathnames_turn memory call with same | ⟨asked, _, absent, more⟩
  · rwa [Distinct, same]
  · exact distinct_entered memory _ asked.pathname distinct absent more

theorem find?_permit (memory : Memory) (pathname other : String) :
    (memory.permit pathname).waitlist.find? other =
      if other = pathname then
        Ticket.permitted memory.delaysAll true (memory.waitlist.find? pathname)
      else memory.waitlist.find? other := by
  cases found : memory.waitlist.find? pathname with
  | some ticket =>
      have changed := memory.waitlist.find?_change pathname other Ticket.ask?
      simp only [permit, allowDelay, found]
      simpa only [found, Waitlist.ask?, Ticket.permitted, Option.map_some, ↓reduceIte]
        using changed
  | none =>
      cases all : memory.delaysAll with
      | false =>
          simp only [permit, allowDelay, found, all, Ticket.permitted]
          by_cases same : other = pathname
          · simpa [same] using found
          · simp [same]
      | true =>
          have added : memory.waitlist.addAsked pathname Ticket.onTheFly =
              .ok ⟨memory.waitlist.entries ++ [(pathname, ⟨Ticket.onTheFly, .asked⟩)]⟩ := by
            simp [Waitlist.addAsked, Waitlist.add, found]
          have entered := memory.waitlist.find?_add _ pathname other _ added
          simpa only [permit, allowDelay, found, all, added, Except.map, Ticket.permitted,
            ↓reduceIte] using entered

theorem find?_allowing (memory : Memory) (call : FileCall) (pathname : String) :
    (memory.allowing call).waitlist.find? pathname =
      Ticket.permitted memory.delaysAll (decide (call.pathname = pathname) && call.mayDelay)
        (memory.waitlist.find? pathname) := by
  unfold allowing
  cases call.mayDelay with
  | false => simp [Ticket.permitted]
  | true =>
      rw [if_pos rfl, find?_permit]
      by_cases same : call.pathname = pathname
      · subst same
        simp
      · simp [same, Ne.symm same, Ticket.permitted]

theorem permit_waitlist (memory : Memory) (pathname : String) :
    ∃ waitlist, memory.permit pathname = { memory with waitlist } := by
  have allowed := memory.allowDelay_eq_permit pathname
  generalize memory.permit pathname = after at allowed
  unfold allowDelay at allowed
  split at allowed
  · cases allowed
    exact ⟨_, rfl⟩
  · split at allowed
    · cases added : memory.waitlist.addAsked pathname Ticket.onTheFly with
      | error problem => simp [added, Except.map] at allowed
      | ok waitlist =>
          rw [added] at allowed
          cases allowed
          exact ⟨waitlist, rfl⟩
    · cases allowed
      exact ⟨memory.waitlist, rfl⟩

theorem allowing_waitlist (memory : Memory) (call : FileCall) :
    ∃ waitlist, memory.allowing call = { memory with waitlist } := by
  unfold allowing
  split
  · exact memory.permit_waitlist call.pathname
  · exact ⟨memory.waitlist, rfl⟩

theorem find?_fill (memory : Memory) (pathname other : String) (output : Bytes) :
    (memory.fill pathname output).waitlist.find? other =
      if other = pathname then
        (memory.waitlist.find? pathname).map fun ticket => (ticket.fill? output).getD ticket
      else memory.waitlist.find? other :=
  memory.waitlist.find?_change pathname other (Ticket.fill? output)

/-! ### Why a reply is what it is -/

/-- The cases of `replyTo`, each with what has to hold for it. -/
inductive Decides (memory : Memory) (request : Request) : Reply → Prop
  | aborted (rule : memory.rule? request.command request.pathname = some .abort) :
      Decides memory request (.answered .aborted)
  | refused (rule : memory.rule? request.command request.pathname = some .refuse) :
      Decides memory request (.answered .refused)
  | unsupported (unkept : memory.kept? request.pathname = none)
      (missing : memory.supports request.command = false) : Decides memory request .unsupported
  | delayed (smudged : request.command = .smudge)
      (awaited : memory.isAwaited request.pathname = true)
      (unforced : memory.rule? request.command request.pathname ≠ some .refuse ∧
        memory.rule? request.command request.pathname ≠ some .abort) :
      Decides memory request (.answered (.delayed (Rotation.rotate request.payload)))
  | content {output : Bytes} (found : memory.output? request = some output)
      (prompt : ¬(request.command = .smudge ∧ memory.isAwaited request.pathname = true)) :
      Decides memory request (.answered (.content output))
  | brokenOff {output : Bytes} (found : memory.output? request = some output)
      (prompt : ¬(request.command = .smudge ∧ memory.isAwaited request.pathname = true))
      (rule : memory.rule? request.command request.pathname = some .breakOff) :
      Decides memory request (.answered .brokenOff)

theorem kept?_eq_some_iff (memory : Memory) (pathname : String) (output : Bytes) :
    memory.kept? pathname = some output ↔
      ∃ remaining, memory.waitlist.find? pathname = some ⟨remaining, .filled output⟩ := by
  unfold kept?
  cases memory.waitlist.find? pathname with
  | none => simp
  | some ticket =>
      obtain ⟨remaining, stage⟩ := ticket
      cases stage <;> simp [Stage.output?]

theorem kept?_of_awaited (memory : Memory) (pathname : String)
    (awaited : memory.isAwaited pathname = true) : memory.kept? pathname = none := by
  unfold isAwaited at awaited
  unfold kept?
  cases found : memory.waitlist.find? pathname with
  | none => rfl
  | some ticket =>
      rw [found] at awaited
      have stage : ticket.stage = .asked := beq_iff_eq.mp awaited
      rw [Option.bind_some, stage]
      rfl

theorem replyTo_decides (memory : Memory) (request : Request) :
    memory.Decides request (memory.replyTo request) := by
  by_cases abort : memory.rule? request.command request.pathname = some .abort
  · rw [replyTo_eq, answer?, abort]
    exact .aborted abort
  by_cases refuse : memory.rule? request.command request.pathname = some .refuse
  · rw [replyTo_eq, answer?, refuse]
    exact .refused refuse
  rw [replyTo_eq, answer?_unforced memory request ⟨refuse, abort⟩]
  cases found : memory.output? request with
  | none =>
      unfold output? at found
      split at found
      · cases found
      · rename_i unkept
        split at found
        · cases found
        · rename_i missing
          exact .unsupported unkept (Bool.eq_false_iff.mpr missing)
  | some output =>
      simp only [Option.map_some, Bool.and_eq_true, decide_eq_true_eq]
      by_cases awaited : request.command = .smudge ∧ memory.isAwaited request.pathname = true
      · -- Nothing can have been kept for a ticket that is still to be filled.
        have unkept := kept?_of_awaited memory request.pathname awaited.2
        simp only [output?, unkept, Option.ite_none_right_eq_some, Option.some.injEq] at found
        rw [if_pos awaited, ← found.2]
        exact .delayed awaited.1 awaited.2 ⟨refuse, abort⟩
      · rw [if_neg awaited]
        split
        · rename_i rule
          exact .brokenOff found awaited rule
        · exact .content found awaited

theorem turn_decides (memory : Memory) (call : FileCall) :
    (memory.allowing call).Decides call.request (memory.turn (.file call)).reply :=
  replyTo_decides _ call.request

end Memory

/-! ### The three cases -/

/-- What becomes of the ticket of `pathname` in one turn. -/
inductive Turn.Shifts (pathname : String) (delaysAll : Bool) (turn : Turn) :
    Option Ticket → Option Ticket → Prop
  | counted {ticket? : Option Ticket} (query : turn.isQuery = true)
      (other : turn.asks pathname = false ∧ turn.sends .smudge pathname = false ∧
        turn.delayed? pathname = none)
      (ready : pathname ∈ turn.ready ↔
        ∃ ticket, ticket? = some ticket ∧ Waitlist.isReady (pathname, ticket) = true) :
      Shifts pathname delaysAll turn ticket? (ticket?.map Ticket.countDown)
  | filled {ticket? : Option Ticket} {ticket : Ticket} {payload : Bytes}
      (file : turn.isQuery = false ∧ turn.ready = [])
      (smudged : turn.sends .smudge pathname = true)
      (delayed : turn.delayed? pathname = some payload)
      (permitted : Ticket.permitted delaysAll (turn.asks pathname) ticket? = some ticket)
      (awaited : ticket.stage = .asked) :
      Shifts pathname delaysAll turn ticket?
        (some { ticket with stage := .filled (Rotation.rotate payload) })
  -- A smudge that finds the ticket asked for and does not fill it was turned away.
  | left {ticket? : Option Ticket} (file : turn.isQuery = false ∧ turn.ready = [])
      (undelayed : turn.delayed? pathname = none)
      (missed : ∀ ticket,
        Ticket.permitted delaysAll (turn.asks pathname) ticket? = some ticket →
          ticket.stage = .asked → turn.sends .smudge pathname = true → turn.failure? = none →
            turn.turnedAway = true) :
      Shifts pathname delaysAll turn ticket?
        (Ticket.permitted delaysAll (turn.asks pathname) ticket?)

namespace Memory

theorem file_shifts (memory : Memory) (call : FileCall) (pathname : String) (reply : Reply)
    (decided : (memory.allowing call).Decides call.request reply) :
    Turn.Shifts pathname memory.delaysAll
      ⟨.file call, reply, (memory.allowing call).settle call.request reply⟩
      (memory.waitlist.find? pathname)
      (((memory.allowing call).settle call.request reply).waitlist.find? pathname) := by
  have permitted := find?_allowing memory call pathname
  cases decided with
  | delayed smudged awaited unforced =>
      by_cases same : call.pathname = pathname
      · subst same
        unfold isAwaited at awaited
        cases found : (memory.allowing call).waitlist.find? call.pathname with
        | none => simp [found] at awaited
        | some ticket =>
            have stage : ticket.stage = .asked := by simpa [found] using awaited
            have filled := find?_fill (memory.allowing call) call.pathname call.pathname
              (Rotation.rotate call.payload)
            simp only [found, Ticket.fill?, stage, Option.map_some, Option.getD_some, ↓reduceIte]
              at filled
            simp only [settle, FileCall.request_pathname, FileCall.request_payload, filled]
            refine .filled ⟨rfl, rfl⟩ ?_ ?_ (permitted.symm.trans found) stage
            · simpa [Turn.sends] using smudged
            · simp [Turn.delayed?]
      · have apart := find?_fill (memory.allowing call) call.pathname pathname
          (Rotation.rotate call.payload)
        rw [if_neg (Ne.symm same), permitted] at apart
        simp only [settle, FileCall.request_pathname, FileCall.request_payload, apart]
        refine .left ⟨rfl, rfl⟩ ?_ ?_
        · simp [Turn.delayed?, same]
        · simp [Turn.sends, same]
  | aborted | refused =>
      simp only [settle, abort, permitted]
      exact .left ⟨rfl, rfl⟩ rfl fun _ _ _ _ _ => rfl
  | unsupported =>
      simp only [settle, permitted]
      exact .left ⟨rfl, rfl⟩ rfl fun _ _ _ _ goes => by cases goes
  | content found prompt | brokenOff found prompt =>
      simp only [settle, permitted]
      refine .left ⟨rfl, rfl⟩ rfl fun ticket entered stage smudged _ => ?_
      -- Such a smudge would have been answered with a delay.
      simp only [Turn.sends, Bool.and_eq_true, decide_eq_true_eq] at smudged
      obtain ⟨same, smudge⟩ := smudged
      subst same
      have awaited : (memory.allowing call).isAwaited call.pathname = true := by
        rw [isAwaited, permitted.trans entered]
        exact beq_iff_eq.mpr stage
      exact absurd ⟨smudge, awaited⟩ prompt

theorem turn_shifts (memory : Memory) (call : Call) (distinct : memory.Distinct)
    (pathname : String) :
    (memory.turn call).Shifts pathname memory.delaysAll (memory.waitlist.find? pathname)
      ((memory.turn call).memory.waitlist.find? pathname) := by
  cases call with
  | list =>
      have counted := memory.waitlist.find?_countDown pathname
      simp only [turn, countDown, counted]
      exact .counted rfl ⟨rfl, rfl, rfl⟩ (memory.waitlist.mem_ready_iff distinct pathname)
  | file call => exact file_shifts memory call pathname _ (memory.turn_decides call)

end Memory

end ContentFilter
