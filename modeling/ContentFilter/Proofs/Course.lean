import ContentFilter.Proofs.Completed
import ContentFilter.Proofs.RoundTrip

/-!
The course of an exchange on a channel and a journal that refuse nothing, whatever arrives and
whatever the memory is. `Takes` tells it request by request: complete requests take their turns
until one of them ends the session, or until something else does; `converse_takes` says that every
exchange has a course. A request that is not heard to its end sends nothing, and at most its delay
is remembered.
-/

namespace ContentFilter

/-- What an exchange has done by its end. -/
structure Course where
  turns : List Turn := []
  failure? : Option Failure
  sent : List Packet := []
  memory : Memory

/-- One more turn in front. -/
def Course.behind (turn : Turn) (course : Course) : Course :=
  { course with
    turns := turn :: course.turns
    sent := turn.reply.packets ++ course.sent }

/-- A run that started at `desk` has gone this course. -/
structure Ending.Follows (ending : Ending) (desk : Desk) (course : Course) : Prop where
  failure : ending.failure? = course.failure?
  remembered : ending.desk.memory = course.memory
  sent : ending.desk.sink.outlet.contents =
    desk.sink.outlet.contents ++ Packet.encodeAll course.sent

theorem Effect.packets_legal (effects : List Effect)
    (fits : ∀ payload, .send payload ∈ effects → payload.length ≤ Packet.maxPayload) :
    ∀ packet ∈ effects.flatMap Effect.packets, packet.Legal := by
  intro packet member
  obtain ⟨effect, listed, sent⟩ := List.mem_flatMap.mp member
  cases effect with
  | send payload =>
      rw [Effect.packets, List.mem_singleton] at sent
      subst sent
      exact fits payload listed
  | flush =>
      rw [Effect.packets, List.mem_singleton] at sent
      subst sent
      trivial
  | note | remember => cases sent

namespace Exchange

/-- Why a request that is waited for in `phase` is not heard to its end. -/
inductive Halts : Phase → Source → Failure → Prop
  | fault {phase : Phase} {source rest : Source} {failure : Failure}
      (read : source.next = (.error failure, rest)) : Halts phase source failure
  | ended {phase : Phase} {source : Source} {what : Violation} (closed : source.Closed)
      (objects : phase.objection? none = some what) : Halts phase source (.violation what)
  | objected {phase : Phase} {source rest : Source} {packet : Packet} {what : Violation}
      (read : source.next = (.ok (some packet), rest))
      (objects : phase.objection? (some packet) = some what) :
      Halts phase source (.violation what)
  | unknown {source rest : Source} {packet : Packet} {name : String}
      (read : source.next = (.ok (some packet), rest)) (found : packet.field "command" = .ok name)
      (unknown : Command.ofName? name = none) : Halts .command source (.unsupported name)

/-- The course that the arrivals take with a memory. A pathname whose announcement does not fit a
packet ends the reply to a list query where it stands. -/
inductive Takes : Memory → Source → Course → Prop
  | closed {memory : Memory} {source : Source} (closed : source.Closed) :
      Takes memory source { failure? := none, memory }
  | answered {memory : Memory} {source rest : Source} {call : Call} {packets : List Packet}
      {course : Course} (spelled : call.Spelled packets) (read : source.Yields packets rest)
      (legal : ∀ packet ∈ (memory.turn call).reply.packets, packet.Legal)
      (goes : (memory.turn call).failure? = none)
      (later : Takes (memory.turn call).memory rest course) :
      Takes memory source (course.behind (memory.turn call))
  | failed {memory : Memory} {source rest : Source} {call : FileCall} {packets : List Packet}
      {failure : Failure} (spelled : (Call.file call).Spelled packets)
      (read : source.Yields packets rest)
      (fails : (memory.turn (.file call)).failure? = some failure) :
      Takes memory source
        { turns := [memory.turn (.file call)]
          failure? := some failure
          sent := (memory.turn (.file call)).reply.packets
          memory := (memory.turn (.file call)).memory }
  | refused {memory : Memory} {source rest : Source} {packets : List Packet}
      {before behind : List String} {pathname : String} (spelled : Call.list.Spelled packets)
      (read : source.Yields packets rest)
      (first : memory.waitlist.announcement.announced = before ++ pathname :: behind)
      (fits : ∀ other ∈ before, Announceable other) (large : ¬Announceable pathname) :
      Takes memory source
        { failure? := some (.violation (.oversizePayload
            (Text.bytes (pathnameLine pathname)).length))
          sent := before.map fun other => .say (pathnameLine other)
          memory := memory.countDown }
  | unfinished {memory after : Memory} {source rest : Source} {phase : Phase}
      {packets : List Packet} {failure : Failure} (held : Held memory phase packets after)
      (read : source.Yields packets rest) (halts : Halts phase rest failure) :
      Takes memory source { failure? := some failure, memory := after }

/-- Nothing is sent but replies and, at the end, the beginning of one that cannot be sent. -/
theorem takes_sent (memory : Memory) (source : Source) (course : Course)
    (takes : Takes memory source course) :
    (course.turns.flatMap fun turn => turn.reply.packets) <+: course.sent := by
  induction takes with
  | closed | unfinished => exact List.prefix_rfl
  | failed => simp
  | refused => exact List.nil_prefix
  | @answered memory source rest call packets course _ _ _ _ _ ih =>
      simp only [Course.behind, List.flatMap_cons]
      exact (List.prefix_append_right_inj _).mpr ih

/-! ### The replies -/

theorem conclude_fits (memory : Memory) (request : Request) (payload : Bytes)
    (member : .send payload ∈ (conclude memory request).effects) :
    payload.length ≤ Packet.maxPayload := by
  unfold conclude at member
  cases answered : memory.answer? request with
  | none => simp [answered] at member
  | some answer =>
      simp only [answered, List.mem_cons, reduceCtorEq, false_or] at member
      exact fileReply_fits memory request answer payload member

theorem announceable_or (names : List String) :
    (∀ name ∈ names, Announceable name) ∨ ∃ before name behind,
      names = before ++ name :: behind ∧ (∀ other ∈ before, Announceable other) ∧
        ¬Announceable name := by
  induction names with
  | nil => exact .inl (by simp)
  | cons first rest ih =>
      by_cases here : Announceable first
      · rcases ih with all | ⟨before, name, behind, rfl, fits, large⟩
        · exact .inl (List.forall_mem_cons.mpr ⟨here, all⟩)
        · exact .inr ⟨first :: before, name, behind, rfl, List.forall_mem_cons.mpr ⟨here, fits⟩,
            large⟩
      · exact .inr ⟨[], first, rest, rfl, by simp, here⟩

-- The countdown has been remembered by then, and nothing behind the refused line is begun.
theorem listReply_refused (desk : Desk) (free : desk.Free) (before behind : List String)
    (pathname : String)
    (first : desk.memory.waitlist.announcement.announced = before ++ pathname :: behind)
    (fits : ∀ other ∈ before, Announceable other) (large : ¬Announceable pathname) :
    ∃ after, Effect.performAll (listReply desk.memory) desk =
        .halted (.violation (.oversizePayload (Text.bytes (pathnameLine pathname)).length)) after ∧
      desk.Moves (before.map fun other => .say (pathnameLine other)) [] desk.memory.countDown
        after := by
  have lines (names : List String) :
      (names.map fun other => Effect.say (pathnameLine other)) =
        (names.map fun other => Text.bytes (pathnameLine other)).map .send := by
    rw [List.map_map]
    rfl
  obtain ⟨rest, parts⟩ : ∃ rest, listReply desk.memory =
      .remember desk.memory.countDown :: ((before.map fun other => .say (pathnameLine other))
        ++ .say (pathnameLine pathname) :: rest) := by
    simp only [listReply, first, List.map_append, List.map_cons, List.append_assoc,
      List.cons_append]
    exact ⟨_, rfl⟩
  obtain ⟨after, performed, moved⟩ := Effect.performAll_free
    (before.map fun other => .say (pathnameLine other))
    { desk with memory := desk.memory.countDown } ⟨free.sink, free.journal⟩ (by
      intro payload member
      obtain ⟨other, listed, same⟩ := List.mem_map.mp member
      cases same
      exact fits other listed)
  rw [lines, Effect.packets_sends, Effect.remarks_sends, Effect.recallAll_sends, List.map_map]
    at moved
  have halts : Effect.performAll (.say (pathnameLine pathname) :: rest) after = .halted
      (.violation (.oversizePayload (Text.bytes (pathnameLine pathname)).length)) after := by
    simp only [Effect.performAll, Effect.say, Effect.perform,
      Sink.send_oversize _ (Nat.not_le.mp large), Progress.map, Progress.halted_andThen]
  refine ⟨after, ?_, moved.free, moved.sent, moved.noted, moved.remembered⟩
  rw [parts, Effect.performAll, Effect.perform, Progress.on_andThen, Effect.performAll_append,
    performed, Progress.on_andThen, halts]

/-! ### From packet to packet -/

theorem follows_silent (desk after : Desk) (remarks : List Remark) (memory : Memory)
    (ending : Ending) (course : Course) (moved : desk.Moves [] remarks memory after)
    (follows : ending.Follows after course) : ending.Follows desk course where
  failure := follows.failure
  remembered := follows.remembered
  sent := by
    rw [follows.sent, moved.sent]
    simp [Packet.encodeAll]

theorem follows_behind (desk after : Desk) (turn : Turn) (remarks : List Remark) (memory : Memory)
    (ending : Ending) (course : Course)
    (moved : desk.Moves turn.reply.packets remarks memory after)
    (follows : ending.Follows after course) : ending.Follows desk (course.behind turn) where
  failure := follows.failure
  remembered := follows.remembered
  sent := by
    rw [follows.sent, moved.sent, Course.behind, Packet.encodeAll_append, List.append_assoc]

section

variable {start source rest : Source} {packets : List Packet} {before : Memory} (desk : Desk)

-- What comes behind a complete request is a course of its own.
variable (onward : ∀ after : Desk, after.Free →
  ∃ course, Takes after.memory rest course ∧ (converse rest after).Follows after course)

include onward

theorem converse_listed (complete : start.Yields (packets ++ [.flush]) rest)
    (next : source.next = (.ok (some .flush), rest)) (free : desk.Free)
    (held : Held before .listEnd packets desk.memory) :
    ∃ course, Takes before start course ∧
      (dialogue.converse .listEnd source desk).Follows desk course := by
  cases held with
  | question begun =>
  have spelled := begun_listEnd packets begun
  rcases announceable_or desk.memory.waitlist.announcement.announced with
    fits | ⟨names, pathname, behind, first, fits, large⟩
  · obtain ⟨after, moved, step⟩ := dialogue.converse_step .listEnd source rest desk .flush
      (listReply desk.memory) (.await .command) next rfl free
      (listReply_announced_fits desk.memory fits)
    have legal := Effect.packets_legal _ (listReply_announced_fits desk.memory fits)
    rw [listReply_packets] at moved legal
    rw [listReply_recall] at moved
    obtain ⟨course, takes, ended⟩ := onward after moved.free
    rw [moved.remembered] at takes
    refine ⟨course.behind (desk.memory.turn .list), .answered spelled complete legal rfl takes, ?_⟩
    rw [step]
    exact follows_behind desk after (desk.memory.turn .list) _ _ _ course moved ended
  · obtain ⟨after, halted, moved⟩ :=
      listReply_refused desk free names behind pathname first fits large
    refine ⟨_, .refused spelled complete first fits large, ?_⟩
    rw [dialogue.converse_packet .listEnd source rest desk .flush next]
    simp only [dialogue, hear, hearListEnd, Packet.closing, Dialogue.react, halted]
    exact ⟨rfl, moved.remembered, moved.sent⟩

theorem converse_concluded (command : Command) (pathname : String) (received : Array UInt8)
    (complete : start.Yields (packets ++ [.flush]) rest)
    (next : source.next = (.ok (some .flush), rest)) (free : desk.Free)
    (held : Held before (.content command pathname received) packets desk.memory) :
    ∃ course, Takes before start course ∧
      (dialogue.converse (.content command pathname received) source desk).Follows desk
        course := by
  generalize phase : Phase.content command pathname received = waiting at held
  generalize remembered : desk.memory = memory at held
  cases held with
  | question begun early => exact absurd phase.symm (early command pathname received)
  | @content call packets opened =>
  obtain ⟨rfl, rfl, rfl⟩ := Phase.content.inj phase
  have spelled := Call.spelled_opened call packets opened
  rw [← List.cons_append, ← List.append_assoc] at spelled
  obtain ⟨settled, sent, decides⟩ := conclude_turn before call
  rw [← remembered] at settled sent decides
  obtain ⟨after, moved, step⟩ := dialogue.converse_step
    (.content call.command call.pathname call.payload.toArray) source rest desk .flush
    (conclude desk.memory call.request).effects (conclude desk.memory call.request).next next rfl
    free (conclude_fits desk.memory call.request)
  have legal := Effect.packets_legal _ (conclude_fits desk.memory call.request)
  rw [sent] at moved legal
  rw [settled] at moved
  rw [step, decides]
  cases goes : (before.turn (.file call)).failure? with
  | some failure =>
      exact ⟨_, .failed spelled complete goes, rfl, moved.remembered, moved.sent⟩
  | none =>
      obtain ⟨course, takes, ended⟩ := onward after moved.free
      rw [moved.remembered] at takes
      exact ⟨course.behind (before.turn (.file call)), .answered spelled complete legal goes takes,
        follows_behind desk after _ _ _ _ course moved ended⟩

end

/-- The first `packets` of a request have been read from `start`, and `phase` waits for the next. -/
theorem converse_held (before : Memory) (phase : Phase) (packets : List Packet)
    (start source : Source) (read : start.Yields packets source) (desk : Desk) (free : desk.Free)
    (held : Held before phase packets desk.memory) :
    ∃ course, Takes before start course ∧
      (dialogue.converse phase source desk).Follows desk course := by
  induction size : source.unread using Nat.strongRecOn
    generalizing before phase packets start source desk with
  | ind unread ih =>
  have halted (failure : Failure) (rest : Source) (halts : Halts phase source failure)
      (ends : dialogue.converse phase source desk = ⟨some failure, rest, desk⟩) :
      ∃ course, Takes before start course ∧
        (dialogue.converse phase source desk).Follows desk course := by
    refine ⟨_, .unfinished held read halts, ?_⟩
    rw [ends]
    exact ⟨rfl, rfl, by simp [Packet.encodeAll]⟩
  cases next : source.next with
  | mk outcome rest =>
  cases outcome with
  | error failure =>
      exact halted failure rest (.fault next)
        (dialogue.converse_fault phase source rest desk failure next)
  | ok found =>
  cases found with
  | none =>
      have parted := dialogue.converse_closed phase source rest desk next
      cases phase with
      | command =>
          cases held with
          | question begun =>
          cases begun
          cases read
          have told := converse_closing start ⟨rest, next⟩ desk free
          exact ⟨_, .closed ⟨rest, next⟩, told.failure, told.moves.remembered, told.moves.sent⟩
      | listEnd | pathname | details | content =>
          exact halted _ rest (.ended ⟨rest, next⟩ rfl) parted
  | some packet =>
  have shorter := Source.next_shrinks source rest packet next
  simp only [Packet.headerSize] at shorter
  have more : start.Yields (packets ++ [packet]) rest :=
    (Source.yields_append_iff _ _ _ _).mpr ⟨source, read, .more next (.done rest)⟩
  -- Nothing is sent before the request is complete.
  have onward (phase' : Phase) (after : Desk) (remarks : List Remark) (memory : Memory)
      (moved : desk.Moves [] remarks memory after)
      (step : dialogue.converse phase source desk = dialogue.converse phase' rest after)
      (further : Held before phase' (packets ++ [packet]) memory) :
      ∃ course, Takes before start course ∧
        (dialogue.converse phase source desk).Follows desk course := by
    rw [← moved.remembered] at further
    obtain ⟨course, takes, ended⟩ :=
      ih rest.unread (by omega) before phase' _ start rest more after moved.free further rfl
    rw [step]
    exact ⟨course, takes, follows_silent desk after remarks memory _ course moved ended⟩
  have again (after : Desk) (afterFree : after.Free) :
      ∃ course, Takes after.memory rest course ∧ (converse rest after).Follows after course :=
    ih rest.unread (by omega) after.memory .command [] rest rest (.done rest) after afterFree
      (.question .nothing (by simp)) rfl
  have heard : dialogue.hear desk.memory phase packet = hear desk.memory phase packet := rfl
  have hearing := hear_hearing desk.memory phase packet
  generalize hear desk.memory phase packet = reaction at hearing heard
  cases hearing with
  | @noted _ phase' _ remarks follows inside idle =>
      obtain ⟨after, moved, step⟩ := dialogue.converse_noting phase source rest desk packet remarks
        _ next heard free
      exact onward phase' after remarks desk.memory moved step
        (held_noted before desk.memory phase phase' packets packet held follows inside idle)
  | allowed command pathname =>
      obtain ⟨after, moved, step⟩ := dialogue.converse_step _ source rest desk .flush _ _ next
        heard free (by simp)
      cases held with
      | question begun =>
          exact onward _ after _ _ moved step
            (held_silent desk.memory command pathname true packets begun)
  | listed => exact converse_listed desk again more next free held
  | concluded command pathname received =>
      exact converse_concluded desk again command pathname received more next free held
  | unknown found unknown =>
      apply halted _ rest (.unknown next found unknown)
      rw [dialogue.converse_packet .command source rest desk packet next, heard]
      rfl
  | objected objects =>
      apply halted _ rest (.objected next objects)
      rw [dialogue.converse_packet phase source rest desk packet next, heard]
      rfl

theorem converse_takes (source : Source) (desk : Desk) (free : desk.Free) :
    ∃ course, Takes desk.memory source course ∧ (converse source desk).Follows desk course :=
  converse_held desk.memory .command [] source source (.done source) desk free
    (.question .nothing (by simp))

end Exchange

end ContentFilter
