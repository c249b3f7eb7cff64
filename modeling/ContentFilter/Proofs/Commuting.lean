import ContentFilter.Proofs.Aborts

/-!
Two file requests in either order. A request looks at the ticket of its pathname and at the aborts
of its command and changes nothing else, so requests that share neither do not notice each other:
`turn_reply_apart` says so of the replies and `turns_match` of what is remembered behind both.
`files_commute` says it of whole runs.
-/

namespace ContentFilter

/-- Neither request is for the pathname of the other one, and neither aborts the other one. -/
structure FileCall.Apart (first second : FileCall) : Prop where
  pathnames : first.pathname ≠ second.pathname
  aborts : first.pathname ≠ Reserved.aborted ∧ second.pathname ≠ Reserved.aborted ∨
    first.command ≠ second.command

theorem FileCall.Apart.symm {first second : FileCall} (apart : first.Apart second) :
    second.Apart first where
  pathnames := apart.pathnames.symm
  aborts := apart.aborts.imp And.symm Ne.symm

/-- What a reply leaves of the ticket that it was given with. -/
def Ticket.settled (reply : Reply) (ticket? : Option Ticket) : Option Ticket :=
  match reply with
  | .answered (.delayed output) => ticket?.map fun ticket => (ticket.fill? output).getD ticket
  | _ => ticket?

namespace Memory

/-! ### What a request looks at -/

/-- A request with `command` for `pathname` finds the same. -/
structure AlikeFor (command : Command) (pathname : String) (memory other : Memory) : Prop where
  capabilities : memory.capabilities = other.capabilities
  delaysAll : memory.delaysAll = other.delaysAll
  ticket : memory.waitlist.find? pathname = other.waitlist.find? pathname
  aborted : memory.aborted command = other.aborted command

theorem alike_allowing (memory other : Memory) (call : FileCall)
    (alike : AlikeFor call.command call.pathname memory other) :
    AlikeFor call.command call.pathname (memory.allowing call) (other.allowing call) := by
  obtain ⟨_, same⟩ := memory.allowing_waitlist call
  obtain ⟨_, also⟩ := other.allowing_waitlist call
  constructor
  · rw [same, also]
    exact alike.capabilities
  · rw [same, also]
    exact alike.delaysAll
  · rw [find?_allowing, find?_allowing, alike.delaysAll, alike.ticket]
  · rw [aborted_allowing, aborted_allowing]
    exact alike.aborted

theorem answer?_alike (memory other : Memory) (request : Request)
    (alike : AlikeFor request.command request.pathname memory other) :
    memory.answer? request = other.answer? request := by
  have rule : memory.rule? request.command request.pathname =
      other.rule? request.command request.pathname := by
    simp only [rule?, alike.aborted]
  have kept : memory.kept? request.pathname = other.kept? request.pathname := by
    simp only [kept?, alike.ticket]
  have awaited : memory.isAwaited request.pathname = other.isAwaited request.pathname := by
    simp only [isAwaited, alike.ticket]
  have supports : memory.supports request.command = other.supports request.command := by
    simp only [Memory.supports, alike.capabilities]
  simp only [answer?, output?, rule, kept, awaited, supports]

theorem replyTo_alike (memory other : Memory) (request : Request)
    (alike : AlikeFor request.command request.pathname memory other) :
    memory.replyTo request = other.replyTo request := by
  simp only [replyTo_eq, answer?_alike memory other request alike]

theorem turn_reply_alike (memory other : Memory) (call : FileCall)
    (alike : AlikeFor call.command call.pathname memory other) :
    (memory.turn (.file call)).reply = (other.turn (.file call)).reply :=
  replyTo_alike _ _ call.request (alike_allowing memory other call alike)

/-! ### What a request changes -/

theorem find?_settle (memory : Memory) (request : Request) (reply : Reply) (pathname : String) :
    (memory.settle request reply).waitlist.find? pathname =
      if pathname = request.pathname then
        Ticket.settled reply (memory.waitlist.find? pathname)
      else memory.waitlist.find? pathname := by
  cases reply with
  | listed | unsupported => simp [settle, Ticket.settled]
  | answered answer =>
      cases answer with
      | delayed output =>
          simp only [settle, find?_fill, Ticket.settled]
          by_cases same : pathname = request.pathname
          · simp [same]
          · simp [same]
      | aborted | refused | content | brokenOff => simp [settle, abort, Ticket.settled]

theorem find?_turn (memory : Memory) (call : FileCall) (pathname : String) :
    (memory.turn (.file call)).memory.waitlist.find? pathname =
      if pathname = call.pathname then
        Ticket.settled (memory.turn (.file call)).reply
          (Ticket.permitted memory.delaysAll call.mayDelay (memory.waitlist.find? pathname))
      else memory.waitlist.find? pathname := by
  simp only [turn, find?_settle, find?_allowing, FileCall.request_pathname]
  by_cases same : pathname = call.pathname
  · simp [same]
  · simp [same, Ne.symm same, Ticket.permitted]

theorem turn_settings (memory : Memory) (call : Call) :
    (memory.turn call).memory.capabilities = memory.capabilities ∧
      (memory.turn call).memory.delaysAll = memory.delaysAll := by
  obtain ⟨_, _, after, _⟩ := memory.turn_keeps call
  rw [after]
  exact ⟨rfl, rfl⟩

/-! ### Two requests -/

/-- Nothing tells the memories apart, except the order in which pathnames came. -/
structure Matches (memory other : Memory) : Prop where
  capabilities : memory.capabilities = other.capabilities
  delaysAll : memory.delaysAll = other.delaysAll
  tickets : ∀ pathname, memory.waitlist.find? pathname = other.waitlist.find? pathname
  aborted : memory.aborted = other.aborted

theorem turn_alike (memory : Memory) (first second : FileCall) (apart : first.Apart second) :
    AlikeFor second.command second.pathname (memory.turn (.file first)).memory memory where
  capabilities := (memory.turn_settings (.file first)).1
  delaysAll := (memory.turn_settings (.file first)).2
  ticket := by rw [find?_turn, if_neg apart.pathnames.symm]
  aborted := by
    apply Bool.eq_iff_iff.mpr
    rw [aborted_turn_iff, Call.Aborts]
    constructor
    · rintro (before | ⟨same, named⟩)
      · exact before
      -- An abort shows to requests with its own command only.
      · rcases apart.aborts with ⟨other, _⟩ | other
        · exact absurd named other
        · exact absurd same other
    · exact Or.inl

theorem turn_reply_apart (memory : Memory) (first second : FileCall) (apart : first.Apart second) :
    ((memory.turn (.file first)).memory.turn (.file second)).reply =
      (memory.turn (.file second)).reply :=
  turn_reply_alike _ _ second (memory.turn_alike first second apart)

theorem turn_failure_apart (memory : Memory) (first second : FileCall)
    (apart : first.Apart second) :
    ((memory.turn (.file first)).memory.turn (.file second)).failure? =
      (memory.turn (.file second)).failure? := by
  simp only [Turn.failure?, turn_call, turn_reply_apart memory first second apart]

theorem turn_record_apart (memory : Memory) (first second : FileCall)
    (apart : first.Apart second) :
    ((memory.turn (.file first)).memory.turn (.file second)).record =
      (memory.turn (.file second)).record := by
  simp only [Turn.record, Turn.remarks, turn_call, turn_reply_apart memory first second apart]

theorem turns_match (memory : Memory) (first second : FileCall) (apart : first.Apart second) :
    ((memory.turn (.file first)).memory.turn (.file second)).memory.Matches
      ((memory.turn (.file second)).memory.turn (.file first)).memory := by
  have settings (one other : FileCall) :
      ((memory.turn (.file one)).memory.turn (.file other)).memory.capabilities =
          memory.capabilities ∧
        ((memory.turn (.file one)).memory.turn (.file other)).memory.delaysAll =
          memory.delaysAll := by
    have ⟨early, earlyAll⟩ := memory.turn_settings (.file one)
    have ⟨late, lateAll⟩ := (memory.turn (.file one)).memory.turn_settings (.file other)
    exact ⟨late.trans early, lateAll.trans earlyAll⟩
  constructor
  · exact (settings first second).1.trans (settings second first).1.symm
  · exact (settings first second).2.trans (settings second first).2.symm
  · intro pathname
    simp only [find?_turn, turn_reply_apart memory first second apart,
      turn_reply_apart memory second first apart.symm, turn_settings]
    -- Each pathname was changed by one of the two requests at most.
    by_cases one : pathname = first.pathname
    · subst one
      simp only [apart.pathnames, ↓reduceIte]
    · simp only [one, ↓reduceIte]
  · funext command
    apply Bool.eq_iff_iff.mpr
    simp only [aborted_turn_iff]
    exact or_right_comm

end Memory

/-! ### Two runs -/

namespace Exchange

/-- The run ends well, and its two requests have the replies and the records of these turns. -/
structure Visit.Answers (visit : Visit) (memory : Memory) (first second : Turn) : Prop where
  well : (converse visit.source (visit.desk memory)).failure? = none
  sent : (converse visit.source (visit.desk memory)).desk.sink.outlet.contents =
    visit.sink.outlet.contents ++ (Packet.encodeAll first.reply.packets ++
      Packet.encodeAll second.reply.packets)
  noted : (converse visit.source (visit.desk memory)).desk.journal.close.contents =
    visit.journal.text ++ Text.bytes (first.record ++ second.record ++ "STOP\n")

section

variable (visit : Visit) (free : visit.Free) (memory : Memory) (reached : memory.Reached)
  (first second : FileCall) (apart : first.Apart second)
  (brings : visit.source.Brings [.file first, .file second])

include free reached apart brings

theorem goes_of_well (well : (converse visit.source (visit.desk memory)).failure? = none) :
    (memory.turn (.file first)).failure? = none ∧
      (memory.turn (.file second)).failure? = none := by
  have tells := converse_brings _ visit.source brings (visit.desk memory)
    (visit.free_desk free memory) reached.announceable
  have ends := tells.failure.symm.trans well
  rw [← memory.turn_failure_apart first second apart]
  simp only [Visit.desk, Memory.turns] at ends
  cases goes : (memory.turn (.file first)).failure? with
  | some failure => simp [goes] at ends
  | none =>
      cases further : ((memory.turn (.file first)).memory.turn (.file second)).failure? with
      | some failure => simp [goes, further] at ends
      | none => exact ⟨rfl, rfl⟩

theorem answers_apart (goes : (memory.turn (.file first)).failure? = none)
    (further : (memory.turn (.file second)).failure? = none) :
    visit.Answers memory (memory.turn (.file first)) (memory.turn (.file second)) ∧
      (converse visit.source (visit.desk memory)).desk.memory =
        ((memory.turn (.file first)).memory.turn (.file second)).memory := by
  have late := (memory.turn_failure_apart first second apart).trans further
  have played : (visit.desk memory).memory.turns [.file first, .file second] =
      [memory.turn (.file first), (memory.turn (.file first)).memory.turn (.file second)] := by
    simp only [Visit.desk, Memory.turns, goes, late]
  have tells := converse_brings _ visit.source brings (visit.desk memory)
    (visit.free_desk free memory) reached.announceable
  rw [played] at tells
  have well : (converse visit.source (visit.desk memory)).failure? = none := by
    rw [tells.failure]
    simp [goes, late]
  have moves := tells.moves
  rw [if_pos well] at moves
  refine ⟨⟨well, ?_, ?_⟩, moves.remembered⟩
  · rw [moves.sent]
    simp [Packet.encodeAll_append, Visit.desk, memory.turn_reply_apart first second apart]
  · have stopped : Remark.stopped.bytes = Text.bytes "STOP\n" := by
      simp [Remark.bytes, Remark.texts]
    rw [Journal.close_contents _ moves.free.journal, moves.noted, Text.bytes_append,
      Text.bytes_append, ← stopped, ← memory.turn_record_apart first second apart,
      ← Turn.bytes_record, ← Turn.bytes_record]
    simp [Visit.desk]

end

/-- Two requests that do not concern each other are answered alike in either order, and nothing
that is remembered tells the orders apart. -/
theorem files_commute (first second : FileCall) (apart : first.Apart second) (memory : Memory)
    (reached : memory.Reached) (there back : Visit) (free : there.Free) (backFree : back.Free)
    (brings : there.source.Brings [.file first, .file second])
    (swapped : back.source.Brings [.file second, .file first])
    (well : (converse there.source (there.desk memory)).failure? = none) :
    let one := memory.turn (.file first)
    let other := memory.turn (.file second)
    there.Answers memory one other ∧ back.Answers memory other one ∧
      (converse there.source (there.desk memory)).desk.memory.Matches
        (converse back.source (back.desk memory)).desk.memory := by
  intro one other
  have ⟨goes, further⟩ := goes_of_well there free memory reached first second apart brings well
  have ⟨answers, remembered⟩ :=
    answers_apart there free memory reached first second apart brings goes further
  have ⟨alsoAnswers, alsoRemembered⟩ :=
    answers_apart back backFree memory reached second first apart.symm swapped further goes
  refine ⟨answers, alsoAnswers, ?_⟩
  rw [remembered, alsoRemembered]
  exact memory.turns_match first second apart

-- Each of them enters its pathname, so the two waitlists differ in their order.
theorem files_commute_aborting :
    let memory := Memory.fresh [⟨"smudge"⟩] true
    let there := Visit.opening (.sending [.file abortingClean, .file postponedSmudge])
    let back := Visit.opening (.sending [.file postponedSmudge, .file abortingClean])
    let forth := converse there.source (there.desk memory)
    let reverse := converse back.source (back.desk memory)
    forth.failure? = none ∧
      forth.desk.sink.outlet.contents =
        Text.bytes "0010status=abort0000" ++ Text.bytes "0012status=delayed0000" ∧
      reverse.desk.sink.outlet.contents =
        Text.bytes "0012status=delayed0000" ++ Text.bytes "0010status=abort0000" ∧
      forth.desk.memory.waitlist ≠ reverse.desk.memory.waitlist ∧
      there.Answers memory (memory.turn (.file abortingClean))
        (memory.turn (.file postponedSmudge)) ∧
      back.Answers memory (memory.turn (.file postponedSmudge))
        (memory.turn (.file abortingClean)) ∧
      forth.desk.memory.Matches reverse.desk.memory := by
  intro memory there back forth reverse
  have well : forth.failure? = none := by decide +kernel
  have apart : abortingClean.Apart postponedSmudge := ⟨by decide, .inr (by decide)⟩
  refine ⟨well, by decide +kernel, by decide +kernel, by decide +kernel, ?_⟩
  exact files_commute abortingClean postponedSmudge apart memory (.fresh [⟨"smudge"⟩] true)
    there back (Visit.free_opening _) (Visit.free_opening _)
    (Source.brings_sending _ (by decide)) (Source.brings_sending _ (by decide)) well

end Exchange

end ContentFilter
