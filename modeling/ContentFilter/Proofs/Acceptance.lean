import ContentFilter.Proofs.Promises
import ContentFilter.Proofs.Records

/-!
Which bytes are accepted, and what becomes of all others. `Verdict` reads a byte string request by
request, without a filter: it is well, or it stops at the first request that is not answered, and
then it says why and what is left unread. `verdict_total` says that every byte string has a verdict
and `converse_leaves` that the exchange comes to it, with which turns and what they leave behind.
-/

namespace ContentFilter

/-- Why the session ends with a complete request that it cannot answer. A refusal or an abort needs
no capability, and a delay is decided before a planned death. -/
inductive FileCall.Fails (call : FileCall) (memory : Memory) : Failure → Prop
  | unsupported (unbarred : ¬memory.Bars call.command call.pathname)
      (unkept : memory.kept? call.pathname = none)
      (missing : memory.supports call.command = false) :
      Fails call memory (.unsupported call.command.name)
  | brokenOff (planned : memory.rule? call.command call.pathname = some .breakOff)
      (prompt : ¬(call.command = .smudge ∧ (memory.allowing call).isAwaited call.pathname = true))
      (found : memory.kept? call.pathname ≠ none ∨ memory.supports call.command = true) :
      Fails call memory (.brokenOff call.command)

theorem Reply.failure?_eq_some_iff (command : Command) (reply : Reply) (failure : Failure) :
    reply.failure? command = some failure ↔
      reply = .unsupported ∧ failure = .unsupported command.name ∨
        reply = .answered .brokenOff ∧ failure = .brokenOff command := by
  cases reply with
  | answered answer => cases answer <;> simp [failure?, eq_comm]
  | listed | unsupported => simp [failure?, eq_comm]

namespace Memory

theorem rule?_allowing (memory : Memory) (call : FileCall) (command : Command)
    (pathname : String) :
    (memory.allowing call).rule? command pathname = memory.rule? command pathname := by
  obtain ⟨waitlist, same⟩ := memory.allowing_waitlist call
  rw [same]
  rfl

theorem supports_allowing (memory : Memory) (call : FileCall) (command : Command) :
    (memory.allowing call).supports command = memory.supports command := by
  obtain ⟨waitlist, same⟩ := memory.allowing_waitlist call
  rw [same]
  rfl

theorem output?_eq_none_iff (memory : Memory) (request : Request) :
    memory.output? request = none ↔
      memory.kept? request.pathname = none ∧ memory.supports request.command = false := by
  unfold output?
  cases memory.kept? request.pathname with
  | some kept => simp
  | none => cases memory.supports request.command <;> simp

theorem replyTo_unsupported_iff (memory : Memory) (request : Request) :
    memory.replyTo request = .unsupported ↔
      ¬memory.Bars request.command request.pathname ∧ memory.output? request = none := by
  have undecided : memory.replyTo request = .unsupported ↔ memory.answer? request = none := by
    rw [replyTo_eq]
    cases memory.answer? request <;> simp
  rw [undecided]
  by_cases bars : memory.Bars request.command request.pathname
  · simp only [bars, not_true, false_and, iff_false]
    rcases bars with rule | rule <;> simp [answer?, rule]
  · rw [answer?_unforced memory request (not_or.mp bars), Option.map_eq_none_iff]
    simp [bars]

theorem replyTo_brokenOff_iff (memory : Memory) (request : Request) :
    memory.replyTo request = .answered .brokenOff ↔
      memory.rule? request.command request.pathname = some .breakOff ∧
        ¬(request.command = .smudge ∧ memory.isAwaited request.pathname = true) ∧
        memory.output? request ≠ none := by
  have decided : memory.replyTo request = .answered .brokenOff ↔
      memory.answer? request = some .brokenOff := by
    rw [replyTo_eq]
    cases memory.answer? request <;> simp
  rw [decided]
  by_cases bars : memory.Bars request.command request.pathname
  · rcases bars with rule | rule <;> simp [answer?, rule]
  · rw [answer?_unforced memory request (not_or.mp bars)]
    cases memory.output? request with
    | none => simp
    | some output =>
        simp only [Option.map_some, Option.some.injEq, Bool.and_eq_true, decide_eq_true_eq]
        split
        · rename_i awaited
          simp [awaited]
        · rename_i prompt
          split <;> simp_all

theorem turn_fails_iff (memory : Memory) (call : FileCall) (failure : Failure) :
    (memory.turn (.file call)).failure? = some failure ↔ call.Fails memory failure := by
  have kept := memory.kept?_allowing call call.pathname
  have rule := memory.rule?_allowing call call.command call.pathname
  have supports := memory.supports_allowing call call.command
  have unsupported := (memory.allowing call).replyTo_unsupported_iff call.request
  have brokenOff := (memory.allowing call).replyTo_brokenOff_iff call.request
  simp only [ne_eq, output?_eq_none_iff, FileCall.request_command, FileCall.request_pathname,
    Bars, rule, kept, supports] at unsupported brokenOff
  have present : ¬(memory.kept? call.pathname = none ∧ memory.supports call.command = false) ↔
      memory.kept? call.pathname ≠ none ∨ memory.supports call.command = true := by
    rw [Classical.not_and_iff_not_or_not, Bool.not_eq_false]
  rw [present] at brokenOff
  simp only [turn, Turn.failure?, Reply.failure?_eq_some_iff, unsupported, brokenOff]
  constructor
  · rintro (⟨⟨unbarred, unkept, missing⟩, rfl⟩ | ⟨⟨planned, prompt, found⟩, rfl⟩)
    · exact .unsupported unbarred unkept missing
    · exact .brokenOff planned prompt found
  · intro fails
    cases fails with
    | unsupported unbarred unkept missing => exact .inl ⟨⟨unbarred, unkept, missing⟩, rfl⟩
    | brokenOff planned prompt found =>
        exact .inr ⟨⟨planned, prompt, found⟩, rfl⟩

end Memory

namespace Exchange

theorem hear_objects (memory : Memory) (phase : Phase) (packet : Packet) (what : Violation)
    (objects : phase.objection? (some packet) = some what) :
    hear memory phase packet = .violation what := by
  cases phase with
  | command =>
      simp only [Phase.objection?] at objects
      split at objects <;> cases objects
      simp only [hear, hearCommand, *]
  | listEnd =>
      cases packet with
      | data payload =>
          cases objects
          rfl
      | flush => cases objects
  | pathname command =>
      simp only [Phase.objection?] at objects
      split at objects <;> cases objects
      simp only [hear, hearPathname, *]
  | details command pathname mayDelay =>
      simp only [Phase.objection?] at objects
      split at objects
      · cases objects
        simp only [hear, hearDetail, *]
      · cases objects
      · rename_i line found
        split at objects
        · cases objects
        · rename_i unknown
          cases objects
          simp only [isDetail, Bool.or_eq_true, beq_iff_eq, not_or] at unknown
          simp only [hear, hearDetail, found, unknown, ↓reduceIte, Bool.false_eq_true]
  | content => cases objects

theorem hangUp_objects (phase : Phase) (what : Violation)
    (objects : phase.objection? none = some what) :
    hangUp phase = { failure? := some (.violation what) } := by
  cases phase <;> cases objects <;> rfl

theorem follow?_eq_none (phase : Phase) (packet : Packet) (stuck : phase.follow? packet = none) :
    (∃ what, phase.objection? (some packet) = some what) ∨
      phase = .command ∧ ∃ name, packet.field "command" = .ok name ∧
        Command.ofName? name = none := by
  cases phase with
  | command =>
      simp only [Phase.follow?] at stuck
      split at stuck
      · rename_i what found
        exact .inl ⟨what, by simp only [Phase.objection?, found]⟩
      · exact .inr ⟨rfl, _, ‹_›, Option.map_eq_none_iff.mp stuck⟩
  | listEnd =>
      cases packet with
      | data payload => exact .inl ⟨_, rfl⟩
      | flush => cases stuck
  | pathname command =>
      simp only [Phase.follow?] at stuck
      split at stuck
      · rename_i what found
        exact .inl ⟨what, by simp only [Phase.objection?, found]⟩
      · cases stuck
  | details command pathname mayDelay =>
      simp only [Phase.follow?] at stuck
      split at stuck
      · rename_i what found
        exact .inl ⟨what, by simp only [Phase.objection?, found]⟩
      · cases stuck
      · rename_i line found
        split at stuck
        · cases stuck
        · rename_i unknown
          exact .inl ⟨.unknownDetail line, by simp only [Phase.objection?, found, unknown]; rfl⟩
  | content => cases packet <;> cases stuck

/-- What is wrong with the bytes from here on, and what of them has not been looked at. -/
inductive Stopped (phase : Phase) : Bytes → Violation → Bytes → Prop
  | ended {what : Violation} (objects : phase.objection? none = some what) :
      Stopped phase [] what []
  | misframed {raw left : Bytes} {what : Violation}
      (framing : Packet.first raw = (.error what, left)) : Stopped phase raw what left
  | misplaced {packet : Packet} {raw : Bytes} (left : Bytes) {what : Violation}
      (written : packet.Written raw) (objects : phase.objection? (some packet) = some what) :
      Stopped phase (raw ++ left) what left

/-- How an exchange ends on these bytes, and which of them are left unread. -/
inductive Verdict : Memory → Bytes → Option Failure → Bytes → Prop
  | closed (memory : Memory) : Verdict memory [] none []
  | answered {memory : Memory} {call : Call} {packets : List Packet} {raw rest left : Bytes}
      {failure? : Option Failure} (spelled : call.Spelled packets)
      (written : Packet.AllWritten packets raw) (goes : (memory.turn call).failure? = none)
      (later : Verdict (memory.turn call).memory rest failure? left) :
      Verdict memory (raw ++ rest) failure? left
  | failed {memory : Memory} {call : FileCall} {packets : List Packet} {raw : Bytes}
      (left : Bytes) {failure : Failure} (spelled : (Call.file call).Spelled packets)
      (written : Packet.AllWritten packets raw) (fails : call.Fails memory failure) :
      Verdict memory (raw ++ left) (some failure) left
  | unknown {memory : Memory} {packet : Packet} {name : String} {raw : Bytes} (left : Bytes)
      (written : packet.Written raw) (named : packet.Carries ("command=" ++ name))
      (nonempty : name ≠ "") (unknown : Command.ofName? name = none) :
      Verdict memory (raw ++ left) (some (.unsupported name)) left
  | malformed {memory : Memory} {phase : Phase} {packets : List Packet} {raw rest left : Bytes}
      {what : Violation} (begun : Begun phase packets) (written : Packet.AllWritten packets raw)
      (stopped : Stopped phase rest what left) :
      Verdict memory (raw ++ rest) (some (.violation what)) left

/-! ### Every byte string has a verdict -/

theorem verdict_ended (memory : Memory) (phase : Phase) (packets : List Packet) (raw : Bytes)
    (begun : Begun phase packets) (written : Packet.AllWritten packets raw) :
    ∃ failure? left, Verdict memory (raw ++ []) failure? left := by
  cases phase with
  | command =>
      cases begun
      cases written
      exact ⟨none, [], .closed memory⟩
  | listEnd | pathname | details | content =>
      exact ⟨_, [], .malformed begun written (.ended rfl)⟩

theorem verdict_stuck (memory : Memory) (phase : Phase) (packets : List Packet) (packet : Packet)
    (raw one left : Bytes) (begun : Begun phase packets) (written : Packet.AllWritten packets raw)
    (spelled : packet.Written one) (stuck : phase.follow? packet = none) :
    ∃ failure? unread, Verdict memory (raw ++ (one ++ left)) failure? unread := by
  rcases follow?_eq_none phase packet stuck with ⟨what, objects⟩ | ⟨rfl, name, found, unknown⟩
  · exact ⟨_, left, .malformed begun written (.misplaced left spelled objects)⟩
  · cases begun
    cases written
    obtain ⟨nonempty, named⟩ := (Packet.field_eq_ok_iff packet "command" name).mp found
    exact ⟨_, left, .unknown left spelled named nonempty unknown⟩

theorem verdict_complete (memory : Memory) (call : Call) (packets : List Packet)
    (raw left : Bytes) (complete : call.Spelled packets) (written : Packet.AllWritten packets raw)
    (later : ∃ failure? unread, Verdict (memory.turn call).memory left failure? unread) :
    ∃ failure? unread, Verdict memory (raw ++ left) failure? unread := by
  cases goes : (memory.turn call).failure? with
  | none =>
      obtain ⟨failure?, unread, later⟩ := later
      exact ⟨failure?, unread, .answered complete written goes later⟩
  | some failure =>
      cases call with
      | list => cases goes
      | file call =>
          have fails := (memory.turn_fails_iff call failure).mp goes
          exact ⟨_, left, .failed left complete written fails⟩

theorem verdict_from (memory : Memory) (phase : Phase) (packets : List Packet)
    (raw rest : Bytes) (begun : Begun phase packets) (written : Packet.AllWritten packets raw) :
    ∃ failure? left, Verdict memory (raw ++ rest) failure? left := by
  induction rest using Packet.reading_induction generalizing memory phase packets raw with
  | ended => exact verdict_ended memory phase packets raw begun written
  | misframed rest what left framing =>
      exact ⟨_, left, .malformed begun written (.misframed framing)⟩
  | packet packet one left spelled ih =>
      have more := Packet.allWritten_concat packets packet raw one written spelled
      cases follows : phase.follow? packet with
      | none =>
          exact verdict_stuck memory phase packets packet raw one left begun written spelled
            follows
      | some next =>
          rw [← List.append_assoc]
          rcases begun_follow phase next packets packet begun follows with
            ⟨_, inside⟩ | ⟨_, call, complete⟩
          · exact ih memory next _ _ inside more
          · exact verdict_complete memory call _ _ left complete more
              (ih _ .command [] [] .nothing .nothing)

/-! ### The exchange comes to its verdict -/

theorem converse_stopped (phase : Phase) (raw left : Bytes) (what : Violation)
    (stopped : Stopped phase raw what left) (source : Source) (clear : source.Faultless)
    (sent : source.bytes = raw) (desk : Desk) :
    ∃ rest, dialogue.converse phase source desk = ⟨some (.violation what), rest, desk⟩ ∧
      rest.bytes = left := by
  have stops : Packet.Stops phase.objection? raw what left := by
    cases stopped with
    | ended objects => exact .ended objects
    | misframed framing => exact .misframed framing
    | misplaced left written objects => exact .misplaced left written objects
  obtain ⟨rest, ended, _, unread⟩ := dialogue.converse_stops phase phase.objection?
    (fun memory packet what => hear_objects memory phase packet what) (hangUp_objects phase)
    raw left what stops source clear sent desk
  exact ⟨rest, ended, unread⟩

theorem converse_ended (source : Source) (clear : source.Faultless) (sent : source.bytes = [])
    (desk : Desk) (free : desk.Free) :
    ∃ rest after, desk.Moves [] [.stopped] desk.memory after ∧
      converse source desk = ⟨none, rest, after⟩ ∧ rest.bytes = [] := by
  obtain ⟨rest, read, _, unread⟩ := source.next_faultless clear
  rw [sent] at read unread
  obtain ⟨after, performed, moved⟩ := Effect.performAll_free [.note .stopped] desk free (by simp)
  refine ⟨rest, after, moved, ?_, unread⟩
  rw [converse, dialogue.converse_closed .command source rest desk read]
  simp only [Dialogue.part, dialogue, hangUp, performed]

theorem converse_unknown (source : Source) (clear : source.Faultless) (packet : Packet)
    (raw left : Bytes) (written : packet.Written raw) (sent : source.bytes = raw ++ left)
    (name : String) (found : packet.field "command" = .ok name)
    (unknown : Command.ofName? name = none) (desk : Desk) :
    ∃ rest, converse source desk = ⟨some (.unsupported name), rest, desk⟩ ∧
      rest.bytes = left := by
  obtain ⟨rest, read, _, unread⟩ := source.next_written clear packet raw left written sent
  refine ⟨rest, ?_, unread⟩
  rw [converse, dialogue.converse_packet .command source rest desk packet read]
  simp only [dialogue, hear, hearCommand, found, unknown, Dialogue.react, Effect.performAll]

/-- What comes behind the records of the turns that were taken: how the session ends on the bytes
that are left for it, and what the journal gets last. -/
inductive Leaves (turns : List Turn) : Bytes → Option Failure → String → Prop
  | stopped (goes : ∀ turn ∈ turns, turn.failure? = none) : Leaves turns [] none "STOP\n"
  | failed {turn : Turn} {failure : Failure} (rest : Bytes) (last : turns.getLast? = some turn)
      (fails : turn.failure? = some failure) : Leaves turns rest (some failure) ""
  | unknown {packet : Packet} {name : String} {raw : Bytes} (left : Bytes)
      (goes : ∀ turn ∈ turns, turn.failure? = none) (written : packet.Written raw)
      (named : packet.Carries ("command=" ++ name)) (nonempty : name ≠ "")
      (unknown : Command.ofName? name = none) :
      Leaves turns (raw ++ left) (some (.unsupported name)) ""
  | malformed {phase : Phase} {packets : List Packet} {raw rest left : Bytes} {what : Violation}
      {text : String} (goes : ∀ turn ∈ turns, turn.failure? = none)
      (unfinished : Unfinished phase packets text) (written : Packet.AllWritten packets raw)
      (stopped : Stopped phase rest what left) :
      Leaves turns (raw ++ rest) (some (.violation what)) text

theorem leaves_cons (turn : Turn) (turns : List Turn) (rest : Bytes) (failure? : Option Failure)
    (text : String) (goes : turn.failure? = none) (leaves : Leaves turns rest failure? text) :
    Leaves (turn :: turns) rest failure? text := by
  cases leaves with
  | stopped go => exact .stopped (List.forall_mem_cons.mpr ⟨goes, go⟩)
  | failed rest last fails =>
      refine .failed rest ?_ fails
      rw [List.getLast?_cons, last]
      rfl
  | unknown left go written named nonempty unknown =>
      exact .unknown left (List.forall_mem_cons.mpr ⟨goes, go⟩) written named nonempty unknown
  | malformed go unfinished written stopped =>
      exact .malformed (List.forall_mem_cons.mpr ⟨goes, go⟩) unfinished written stopped

end Exchange

/-- What a run that started at `desk` shows for these turns: their replies on the channel, their
records in the journal and `text` behind them, how it ended and what is left unread. -/
structure Ending.Shows (ending : Ending) (desk : Desk) (turns : List Turn) (text : String)
    (failure? : Option Failure) (left : Bytes) : Prop where
  failure : ending.failure? = failure?
  left : ending.source.bytes = left
  free : ending.desk.Free
  sent : ending.desk.sink.outlet.contents = desk.sink.outlet.contents
    ++ Packet.encodeAll (turns.flatMap fun turn => turn.reply.packets)
  noted : ending.desk.journal.text =
    desk.journal.text ++ Text.bytes (String.join (turns.map Turn.record) ++ text)

namespace Exchange

theorem shows_last (desk : Desk) (remarks : List Remark) (memory : Memory) (text : String)
    (ending : Ending) (moved : desk.Moves [] remarks memory ending.desk)
    (noted : remarks.flatMap Remark.bytes = Text.bytes text) (failure? : Option Failure)
    (left : Bytes) (ended : ending.failure? = failure?) (unread : ending.source.bytes = left) :
    ending.Shows desk [] text failure? left where
  failure := ended
  left := unread
  free := moved.free
  sent := moved.sent
  noted := by
    rw [moved.noted, noted]
    simp

theorem shows_cons (desk after : Desk) (turn : Turn) (turns : List Turn) (text : String)
    (ending : Ending) (failure? : Option Failure) (left : Bytes)
    (moved : desk.Moves turn.reply.packets turn.remarks turn.memory after)
    (later : ending.Shows after turns text failure? left) :
    ending.Shows desk (turn :: turns) text failure? left where
  failure := later.failure
  left := later.left
  free := later.free
  sent := by
    rw [later.sent, moved.sent, List.flatMap_cons, Packet.encodeAll_append, List.append_assoc]
  noted := by
    rw [later.noted, moved.noted, turn.bytes_record, List.append_assoc, ← Text.bytes_append,
      List.map_cons, String.join_cons, String.append_assoc]

/-- The turns that the bytes ask for, and what comes behind them. -/
theorem converse_leaves (memory : Memory) (raw left : Bytes) (failure? : Option Failure)
    (verdict : Verdict memory raw failure? left) (source : Source) (clear : source.Faultless)
    (sent : source.bytes = raw) (desk : Desk) (free : desk.Free)
    (remembered : desk.memory = memory) (known : desk.memory.Announceable) :
    ∃ calls packets front rest text, raw = front ++ rest ∧ Packet.AllWritten packets front ∧
      Call.AllSpelled calls packets ∧ (memory.turns calls).map Turn.call = calls ∧
      Leaves (memory.turns calls) rest failure? text ∧
      (converse source desk).Shows desk (memory.turns calls) text failure? left := by
  induction verdict generalizing source desk with
  | closed memory =>
      obtain ⟨rest, after, moved, ended, unread⟩ := converse_ended source clear sent desk free
      refine ⟨[], [], [], [], "STOP\n", rfl, .nothing, .none, rfl,
        .stopped (by simp [Memory.turns]), ?_⟩
      rw [ended]
      exact shows_last desk [.stopped] _ _ _ moved rfl none [] rfl unread
  | @answered memory call packets raw rest left failure? spelled written goes _ ih =>
      obtain ⟨middle, read, middleClear, behind⟩ :=
        source.yields_allWritten packets raw rest written clear sent
      obtain ⟨after, moved, replied⟩ :=
        converse_call call packets spelled source middle read desk free known
      have legal := source.yields_legal middle packets read
      have kept := Memory.announceable_turn desk.memory call known
        (spelled_announceable call packets spelled legal)
      rw [remembered] at moved replied kept
      obtain ⟨calls, others, front, tail, text, rfl, further, spells, asked, leaves, shown⟩ :=
        ih middle middleClear behind after moved.free moved.remembered (moved.remembered ▸ kept)
      refine ⟨call :: calls, packets ++ others, raw ++ front, tail, text,
        (List.append_assoc _ _ _).symm,
        (Packet.allWritten_append_iff _ _ _).mpr ⟨raw, front, rfl, written, further⟩,
        .call spelled spells, ?_⟩
      rw [memory.turns_cons call calls goes, replied, goes]
      exact ⟨by rw [List.map_cons, asked, memory.turn_call],
        leaves_cons _ _ tail failure? text goes leaves,
        shows_cons desk after _ _ text _ failure? left moved shown⟩
  | @failed memory call packets raw left failure spelled written fails =>
      obtain ⟨middle, read, _, behind⟩ :=
        source.yields_allWritten packets raw left written clear sent
      obtain ⟨after, moved, replied⟩ :=
        converse_file call packets spelled source middle read desk free
      have failed := (memory.turn_fails_iff call failure).mpr fails
      rw [remembered] at moved replied
      have alone : memory.turns [.file call] = [memory.turn (.file call)] := by
        simp only [Memory.turns, failed]
      have last := shows_last after [] _ "" ⟨some failure, middle, after⟩
        (after.moves_refl moved.free) rfl (some failure) left rfl behind
      refine ⟨[.file call], packets, raw, left, "", rfl, written, ?_, ?_⟩
      · simpa using Call.AllSpelled.call spelled .none
      rw [alone, replied, failed]
      exact ⟨rfl, .failed left rfl failed, shows_cons desk after _ [] "" _ _ left moved last⟩
  | @unknown memory packet name raw left written named nonempty unknown =>
      have found := (Packet.field_eq_ok_iff packet "command" name).mpr ⟨nonempty, named⟩
      obtain ⟨rest, ended, unread⟩ :=
        converse_unknown source clear packet raw left written sent name found unknown desk
      refine ⟨[], [], [], raw ++ left, "", rfl, .nothing, .none, rfl,
        .unknown left (by simp [Memory.turns]) written named nonempty unknown, ?_⟩
      rw [ended]
      exact shows_last desk [] _ "" _ (desk.moves_refl free) rfl _ left rfl unread
  | @malformed memory phase packets raw rest left what begun written stopped =>
      obtain ⟨middle, read, middleClear, behind⟩ :=
        source.yields_allWritten packets raw rest written clear sent
      obtain ⟨after, remarks, _, text, unfinished, noted, moved, onward⟩ :=
        converse_unfinished phase packets begun source middle read desk free
      obtain ⟨last, ended, unread⟩ :=
        converse_stopped phase rest left what stopped middle middleClear behind after
      refine ⟨[], [], [], raw ++ rest, text, rfl, .nothing, .none, rfl,
        .malformed (by simp [Memory.turns]) unfinished written stopped, ?_⟩
      rw [onward, ended]
      exact shows_last desk remarks _ text _ moved noted _ left rfl unread

theorem converse_verdict (memory : Memory) (raw left : Bytes) (failure? : Option Failure)
    (verdict : Verdict memory raw failure? left) (source : Source) (clear : source.Faultless)
    (sent : source.bytes = raw) (desk : Desk) (free : desk.Free)
    (remembered : desk.memory = memory) (known : desk.memory.Announceable) :
    (converse source desk).failure? = failure? ∧ (converse source desk).source.bytes = left := by
  obtain ⟨_, _, _, _, _, _, _, _, _, _, shown⟩ := converse_leaves memory raw left failure? verdict
    source clear sent desk free remembered known
  exact ⟨shown.failure, shown.left⟩

theorem verdict_total (memory : Memory) (raw : Bytes) :
    ∃ failure? left, Verdict memory raw failure? left :=
  verdict_from memory .command [] [] raw .nothing .nothing

/-- Nothing but complete requests, none of which ends the session. -/
def Accepted (memory : Memory) (raw : Bytes) : Prop :=
  ∃ calls packets, Packet.AllWritten packets raw ∧ Call.AllSpelled calls packets ∧
    ∀ turn ∈ memory.turns calls, turn.failure? = none

theorem accepted_of_verdict (memory : Memory) (raw left : Bytes) (failure? : Option Failure)
    (verdict : Verdict memory raw failure? left) (well : failure? = none) :
    Accepted memory raw := by
  induction verdict with
  | closed memory => exact ⟨[], [], .nothing, .none, by simp [Memory.turns]⟩
  | @answered memory call packets raw rest left failure? spelled written goes _ ih =>
      obtain ⟨calls, others, further, spells, go⟩ := ih well
      refine ⟨call :: calls, packets ++ others, ?_, .call spelled spells, ?_⟩
      · exact (Packet.allWritten_append_iff _ _ _).mpr ⟨raw, rest, rfl, written, further⟩
      · rw [memory.turns_cons call calls goes]
        exact List.forall_mem_cons.mpr ⟨goes, go⟩
  | failed | unknown | malformed => cases well

theorem verdict_of_accepted (memory : Memory) (raw : Bytes) (accepted : Accepted memory raw) :
    Verdict memory raw none [] := by
  obtain ⟨calls, packets, written, spelled, goes⟩ := accepted
  induction spelled generalizing memory raw with
  | none =>
      cases written
      exact .closed memory
  | @call call calls packets rest spelled _ ih =>
      obtain ⟨front, back, rfl, here, there⟩ := (Packet.allWritten_append_iff _ _ _).mp written
      have first : (memory.turn call).failure? = none := goes _ (by simp [Memory.turns])
      rw [memory.turns_cons call calls first] at goes
      exact .answered spelled here first
        (ih _ back there fun turn member => goes turn (List.mem_cons_of_mem _ member))

/-- An exchange over a channel without faults ends well exactly when the bytes are complete
requests that can all be answered. On any other bytes it ends at the first request that is not
answered, as the verdict says. -/
theorem converse_accepts (source : Source) (clear : source.Faultless) (desk : Desk)
    (free : desk.Free) (reached : desk.memory.Reached) :
    ((converse source desk).failure? = none ↔ Accepted desk.memory source.bytes) ∧
    ∀ failure? left, Verdict desk.memory source.bytes failure? left ↔
      (converse source desk).failure? = failure? ∧ (converse source desk).source.bytes = left := by
  have comes (failure? : Option Failure) (left : Bytes)
      (verdict : Verdict desk.memory source.bytes failure? left) :=
    converse_verdict desk.memory source.bytes left failure? verdict source clear rfl desk free rfl
      reached.announceable
  have only (failure? : Option Failure) (left : Bytes) :
      Verdict desk.memory source.bytes failure? left ↔
        (converse source desk).failure? = failure? ∧
          (converse source desk).source.bytes = left := by
    constructor
    · exact comes failure? left
    · rintro ⟨rfl, rfl⟩
      obtain ⟨failure?, left, verdict⟩ := verdict_total desk.memory source.bytes
      obtain ⟨rfl, rfl⟩ := comes failure? left verdict
      exact verdict
  refine ⟨?_, only⟩
  constructor
  · intro well
    exact accepted_of_verdict _ _ _ none ((only none _).mpr ⟨well, rfl⟩) rfl
  · intro accepted
    exact (comes none [] (verdict_of_accepted _ _ accepted)).1

/-- A clean request, with a capital letter in one header and a newline behind one line. -/
def shortRequest : Bytes := Text.bytes "0012command=clean\n000Epathname=a00000007abc0000"

theorem converse_accepts_short :
    let memory := Memory.fresh [⟨"clean"⟩] false
    Accepted memory shortRequest ∧
      Verdict memory (shortRequest ++ Text.bytes "00") (some (.violation (.shortHeader 2))) [] := by
  intro memory
  have free : (Desk.opened memory).Free := Desk.free_opened memory
  have reached : memory.Reached := .fresh [⟨"clean"⟩] false
  constructor
  · have decided := converse_accepts [.bytes shortRequest] (by simp [Source.Faultless])
      (.opened memory) free reached
    exact decided.1.mp (by decide +kernel)
  · have decided := converse_accepts [.bytes (shortRequest ++ Text.bytes "00")]
      (by simp [Source.Faultless]) (.opened memory) free reached
    exact (decided.2 _ _).mpr (by decide +kernel)

end Exchange

end ContentFilter
