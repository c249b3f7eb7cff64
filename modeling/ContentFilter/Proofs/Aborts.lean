import ContentFilter.Proofs.Acceptance
import ContentFilter.Proofs.Course

/-!
What an abort does. A request is aborted for its pathname or because its command has been aborted
before, in the same run or in an earlier one; nothing else aborts, and no other command notices.
`Trail` follows the aborted commands from turn to turn and from run to run; `abort_sticks` tells
them by the requests alone.
-/

namespace ContentFilter

/-- A request with `command` for the pathname that aborts. -/
def Call.Aborts (command : Command) : Call → Prop
  | .list => False
  | .file call => call.command = command ∧ call.pathname = Reserved.aborted

namespace Memory

/-! ### One turn -/

theorem aborted_allowing (memory : Memory) (call : FileCall) :
    (memory.allowing call).aborted = memory.aborted := by
  obtain ⟨waitlist, allowed⟩ := memory.allowing_waitlist call
  rw [allowed]

theorem replyTo_aborted_iff (memory : Memory) (request : Request) :
    memory.replyTo request = .answered .aborted ↔
      memory.rule? request.command request.pathname = some .abort := by
  constructor
  · intro aborted
    have decided := memory.replyTo_decides request
    rw [aborted] at decided
    cases decided with
    | aborted rule => exact rule
  · intro rule
    rw [replyTo_eq, answer?, rule]

theorem turn_aborted_iff (memory : Memory) (call : FileCall) :
    (memory.turn (.file call)).reply = .answered .aborted ↔
      memory.aborted call.command = true ∨ call.pathname = Reserved.aborted := by
  have rule : memory.rule? call.command call.pathname = some .abort ↔
      memory.aborted call.command = true ∨ call.pathname = Reserved.aborted := by
    unfold rule?
    cases memory.aborted call.command with
    | true => simp
    | false => simpa using Reserved.fileRule?_abort_iff call.command call.pathname
  rw [← rule, ← memory.rule?_allowing call]
  exact (memory.allowing call).replyTo_aborted_iff call.request

-- Every other reply begins with another status, or is empty.
theorem turn_abort_sent_iff (memory : Memory) (call : FileCall) :
    (memory.turn (.file call)).reply.packets = Packet.ofStatus .abort ↔
      (memory.turn (.file call)).reply = .answered .aborted := by
  constructor
  · intro sent
    have decided := memory.turn_decides call
    have other (status : Status) (rest : List Packet)
        (sent : Packet.ofStatus status ++ rest = Packet.ofStatus .abort) : status = .abort := by
      have first := (List.cons.inj sent).1
      cases status with
      | abort => rfl
      | success | error | delayed => exact absurd first (by decide)
    generalize (memory.turn (.file call)).reply = reply at decided sent
    cases decided with
    | aborted => rfl
    | refused => cases other .error [] sent
    | delayed => cases other .delayed [] sent
    | brokenOff => cases other .success [] sent
    | content => cases other .success _ ((List.append_assoc _ _ _).symm.trans sent)
    | unsupported => cases sent
  · intro aborted
    rw [aborted]
    rfl

theorem aborted_settle_iff (memory : Memory) (request : Request) (reply : Reply)
    (command : Command) :
    (memory.settle request reply).aborted command = true ↔ memory.aborted command = true ∨
      reply = .answered .aborted ∧ request.command = command := by
  cases reply with
  | listed | unsupported => simp [settle]
  | answered answer =>
      cases answer with
      | aborted =>
          simp only [settle, abort, Bool.or_eq_true, beq_iff_eq, true_and]
          exact ⟨fun found => found.symm.imp id Eq.symm, fun found => found.symm.imp Eq.symm id⟩
      | delayed | refused | content | brokenOff => simp [settle, fill]

theorem aborted_turn_iff (memory : Memory) (call : Call) (command : Command) :
    (memory.turn call).memory.aborted command = true ↔
      memory.aborted command = true ∨ call.Aborts command := by
  cases call with
  | list => simp [turn, countDown, Call.Aborts]
  | file call =>
      have decided := memory.turn_aborted_iff call
      simp only [turn] at decided ⊢
      rw [aborted_settle_iff, decided, aborted_allowing, FileCall.request_command, Call.Aborts]
      constructor
      · rintro (before | ⟨before | named, rfl⟩)
        · exact .inl before
        · exact .inl before
        · exact .inr ⟨rfl, named⟩
      · rintro (before | ⟨rfl, named⟩)
        · exact .inl before
        · exact .inr ⟨.inr named, rfl⟩

/-! ### Other commands -/

theorem permit_unnoticed (memory : Memory) (pathname : String) (aborted : Command → Bool) :
    ({ memory with aborted }.permit pathname) = { memory.permit pathname with aborted } := by
  obtain ⟨capabilities, delaysAll, waitlist, before⟩ := memory
  unfold permit allowDelay
  dsimp only
  cases waitlist.find? pathname with
  | some ticket => rfl
  | none =>
      cases delaysAll with
      | false => rfl
      | true => cases waitlist.addAsked pathname Ticket.onTheFly <;> rfl

-- A reply looks at the aborts of its own command only.
theorem turn_unnoticed (memory : Memory) (call : FileCall) (aborted : Command → Bool)
    (same : aborted call.command = memory.aborted call.command) :
    ({ memory with aborted }.turn (.file call)).reply = (memory.turn (.file call)).reply := by
  have allowed : { memory with aborted }.allowing call = { memory.allowing call with aborted } := by
    unfold allowing
    split
    · exact memory.permit_unnoticed call.pathname aborted
    · rfl
  have rule : { memory.allowing call with aborted }.rule? call.command call.pathname =
      (memory.allowing call).rule? call.command call.pathname := by
    simp only [rule?, same, aborted_allowing]
  simp only [turn, allowed]
  rw [replyTo_eq, replyTo_eq]
  unfold answer?
  simp only [FileCall.request_command, FileCall.request_pathname, rule]
  rfl

end Memory

namespace Exchange

/-! ### From turn to turn -/

/-- The turns lead from one memory to another. Between two of them the memory may change, as it
does when a request is not heard to its end, but no command is aborted. -/
inductive Trail : Memory → List Turn → Memory → Prop
  | silent {start stop : Memory} (same : stop.aborted = start.aborted) : Trail start [] stop
  | turn {start now stop : Memory} {turns : List Turn} (same : now.aborted = start.aborted)
      (call : Call) (onward : Trail (now.turn call).memory turns stop) :
      Trail start (now.turn call :: turns) stop

theorem Trail.since {start now stop : Memory} {turns : List Turn} (trail : Trail now turns stop)
    (same : now.aborted = start.aborted) : Trail start turns stop := by
  cases trail with
  | silent silent => exact .silent (silent.trans same)
  | turn silent call onward => exact .turn (silent.trans same) call onward

theorem Trail.trans {start middle stop : Memory} {first second : List Turn}
    (here : Trail start first middle) (there : Trail middle second stop) :
    Trail start (first ++ second) stop := by
  induction here with
  | silent same => exact there.since same
  | turn same call _ ih => exact .turn same call (ih there)

theorem Trail.split (earlier later : List Turn) (turn : Turn) (start stop : Memory)
    (trail : Trail start (earlier ++ turn :: later) stop) :
    ∃ now call, turn = now.turn call ∧ Trail start earlier now := by
  induction earlier generalizing start with
  | nil =>
      cases trail with
      | @turn _ now _ _ same call => exact ⟨now, call, rfl, .silent same⟩
  | cons first earlier ih =>
      cases trail with
      | turn same call onward =>
          obtain ⟨now, asked, here, before⟩ := ih _ onward
          exact ⟨now, asked, here, .turn same call before⟩

theorem Trail.aborted_iff {start stop : Memory} {turns : List Turn} (trail : Trail start turns stop)
    (command : Command) :
    stop.aborted command = true ↔
      start.aborted command = true ∨ ∃ turn ∈ turns, turn.call.Aborts command := by
  induction trail with
  | silent same => simp [same]
  | @turn start now stop turns same call _ ih =>
      rw [ih, now.aborted_turn_iff, same, or_assoc]
      simp only [List.exists_mem_cons_iff, now.turn_call]

/-! ### From run to run -/

theorem held_aborted (before after : Memory) (phase : Phase) (packets : List Packet)
    (held : Held before phase packets after) : after.aborted = before.aborted := by
  cases held with
  | question => rfl
  | content call => exact before.aborted_allowing call

theorem takes_trail (memory : Memory) (source : Source) (course : Course)
    (takes : Takes memory source course) : Trail memory course.turns course.memory := by
  induction takes with
  | closed => exact .silent rfl
  | answered _ _ _ _ _ ih => exact .turn rfl _ ih
  | failed => exact .turn rfl _ (.silent rfl)
  | refused => exact .silent rfl
  | unfinished held => exact .silent (held_aborted _ _ _ _ held)

/-- One run on a channel and a journal of its own. -/
structure Visit where
  source : Source
  sink : Sink
  journal : Journal

def Visit.desk (visit : Visit) (memory : Memory) : Desk := ⟨memory, visit.sink, visit.journal⟩

/-- Neither the channel nor the journal will refuse anything. -/
def Visit.Free (visit : Visit) : Prop := visit.sink.Free ∧ visit.journal.file.room = none

theorem Visit.free_desk (visit : Visit) (free : visit.Free) (memory : Memory) :
    (visit.desk memory).Free := ⟨free.1, free.2⟩

/-- A run on the open channel with a journal that takes everything. -/
def Visit.opening (source : Source) : Visit := ⟨source, {}, { path := "filter.log" }⟩

theorem Visit.free_opening (source : Source) : (opening source).Free := ⟨⟨rfl, rfl⟩, rfl⟩

/-- The courses of visits that are made one after another, each with the memory the last has
left. -/
inductive Courses : Memory → List Visit → List Course → Prop
  | none {memory : Memory} : Courses memory [] []
  | visit {memory : Memory} {visit : Visit} {visits : List Visit} {course : Course}
      {courses : List Course} (takes : Takes memory visit.source course)
      (follows : (converse visit.source (visit.desk memory)).Follows (visit.desk memory) course)
      (later : Courses (converse visit.source (visit.desk memory)).desk.memory visits courses) :
      Courses memory (visit :: visits) (course :: courses)

theorem courses_total (memory : Memory) (visits : List Visit)
    (free : ∀ visit ∈ visits, visit.Free) : ∃ courses, Courses memory visits courses := by
  induction visits generalizing memory with
  | nil => exact ⟨[], .none⟩
  | cons visit visits ih =>
      obtain ⟨here, rest⟩ := List.forall_mem_cons.mp free
      obtain ⟨course, takes, follows⟩ :=
        converse_takes visit.source (visit.desk memory) (visit.free_desk here memory)
      obtain ⟨courses, later⟩ := ih (converse visit.source (visit.desk memory)).desk.memory rest
      exact ⟨course :: courses, .visit takes follows later⟩

theorem courses_trail (memory : Memory) (visits : List Visit) (courses : List Course)
    (taken : Courses memory visits courses) :
    ∃ stop, Trail memory (courses.flatMap Course.turns) stop := by
  induction taken with
  | @none memory => exact ⟨memory, .silent rfl⟩
  | visit takes follows _ ih =>
      obtain ⟨stop, onward⟩ := ih
      rw [follows.remembered] at onward
      exact ⟨stop, (takes_trail _ _ _ takes).trans onward⟩

theorem courses_sent (memory : Memory) (visits : List Visit) (courses : List Course)
    (taken : Courses memory visits courses) (course : Course) (member : course ∈ courses) :
    (course.turns.flatMap fun turn => turn.reply.packets) <+: course.sent := by
  induction taken with
  | none => cases member
  | visit takes _ _ ih =>
      rcases List.mem_cons.mp member with rfl | later
      · exact takes_sent _ _ _ takes
      · exact ih later

/-- One run after another with one filter that has aborted nothing yet, whatever arrives. A request
is aborted exactly when it or an earlier request with its command is for the pathname that aborts.
Then the session goes on, and nothing else is decided of the request. What other commands have been
aborted never shows in a reply. -/
theorem abort_sticks (memory : Memory) (unaborted : ∀ command, memory.aborted command = false)
    (visits : List Visit) (free : ∀ visit ∈ visits, visit.Free) :
    (∃ courses, Courses memory visits courses) ∧
    ∀ courses, Courses memory visits courses →
      (∀ course ∈ courses,
        (course.turns.flatMap fun turn => turn.reply.packets) <+: course.sent) ∧
      ∀ earlier turn later call, courses.flatMap Course.turns = earlier ++ turn :: later →
        turn.call = .file call →
        (turn.reply.packets = Packet.ofStatus .abort ↔ call.pathname = Reserved.aborted ∨
          ∃ other ∈ earlier, other.call.Aborts call.command) ∧
        ((call.pathname = Reserved.aborted ∨ ∃ other ∈ earlier, other.call.Aborts call.command) →
          turn.reply = .answered .aborted ∧ turn.failure? = none) ∧
        ∃ now : Memory, turn = now.turn (.file call) ∧
          (∀ command, now.aborted command = true ↔
            ∃ other ∈ earlier, other.call.Aborts command) ∧
          ∀ aborted, aborted call.command = now.aborted call.command →
            ({ now with aborted }.turn (.file call)).reply = turn.reply := by
  refine ⟨courses_total memory visits free, ?_⟩
  intro courses taken
  refine ⟨courses_sent memory visits courses taken, ?_⟩
  intro earlier turn later call order asked
  obtain ⟨stop, trail⟩ := courses_trail memory visits courses taken
  rw [order] at trail
  obtain ⟨now, same, rfl, before⟩ := trail.split
  rw [now.turn_call] at asked
  subst asked
  have flagged (command : Command) : now.aborted command = true ↔
      ∃ other ∈ earlier, other.call.Aborts command := by
    simpa [unaborted command] using before.aborted_iff command
  have aborts := now.turn_aborted_iff call
  rw [flagged, or_comm] at aborts
  refine ⟨(now.turn_abort_sent_iff call).trans aborts, ?_, now, rfl, flagged,
    now.turn_unnoticed call⟩
  intro found
  have reply := aborts.mpr found
  exact ⟨reply, by rw [Turn.failure?, reply]; rfl⟩

-- The second run fails inside a request, and the third goes on as if it had not been made.
theorem abort_sticks_rerun :
    let memory := Memory.fresh [⟨"smudge"⟩] false
    let first := Visit.opening (.sending abortedSession)
    let second := Visit.opening [.bytes (Text.bytes "0011command=clean"), .fault "reset"]
    let third := Visit.opening (.sending [.file strayClean])
    let afterFirst := (converse first.source (first.desk memory)).desk.memory
    let afterSecond := (converse second.source (second.desk afterFirst)).desk.memory
    (converse second.source (second.desk afterFirst)).failure? = some (.channel "reset") ∧
    (converse third.source (third.desk afterSecond)).desk.sink.outlet.contents =
      Text.bytes "0010status=abort0000" ∧
    (∃ courses, Courses memory [first, second, third] courses) ∧
    ∀ courses, Courses memory [first, second, third] courses →
      ∀ earlier turn later call, courses.flatMap Course.turns = earlier ++ turn :: later →
        turn.call = .file call →
        (turn.reply.packets = Packet.ofStatus .abort ↔ call.pathname = Reserved.aborted ∨
          ∃ other ∈ earlier, other.call.Aborts call.command) := by
  intro memory first second third afterFirst afterSecond
  obtain ⟨followed, sticks⟩ := abort_sticks memory (by intro command; rfl) [first, second, third]
    (by simp [first, second, third, Visit.free_opening])
  refine ⟨by decide +kernel, by decide +kernel, followed, ?_⟩
  intro courses taken earlier turn later call order asked
  exact ((sticks courses taken).2 earlier turn later call order asked).1

end Exchange

end ContentFilter
