import ContentFilter.Proofs.Acceptance
import ContentFilter.Proofs.Course

/-!
A request that fails while it is read or while its output is looked for. The requests before it
have been answered wholly, and to it nothing is sent. What it leaves behind depends on how far it
came: before its details are closed nothing is remembered of it, and behind them only that its
pathname may be delayed, if it said so. `converse_unanswered` says so of every run that fails, the
planned death apart.
-/

namespace ContentFilter

namespace FileCall

/-- What the details of the call do to the memory. -/
def Permits (call : FileCall) (before after : Memory) : Prop :=
  if Exchange.mayDelayLine ∈ call.details then before.allowDelay call.pathname = .ok after
  else after = before

theorem permits_allowing (call : FileCall) (memory : Memory) :
    call.Permits memory (memory.allowing call) := by
  unfold Permits Memory.allowing mayDelay
  by_cases said : Exchange.mayDelayLine ∈ call.details
  · simp only [said, ↓reduceIte, decide_true]
    exact memory.allowDelay_eq_permit call.pathname
  · simp [said]

end FileCall

theorem Memory.unsupported_turn (memory : Memory) (call : FileCall)
    (failed : (memory.turn (.file call)).failure? = some (.unsupported call.command.name)) :
    (memory.turn (.file call)).reply.packets = [] ∧
      (memory.turn (.file call)).memory = memory.allowing call := by
  rw [turn, Turn.failure?, Reply.failure?_eq_some_iff] at failed
  rcases failed with ⟨unsupported, _⟩ | ⟨_, other⟩
  · simp only at unsupported
    constructor
    · simp only [turn, unsupported, Reply.packets]
    · simp only [turn, unsupported, settle]
  · cases other

namespace Exchange

/-- The request at the front of `source`, made of a filter that remembers `before`, fails; and what
is remembered then. -/
inductive Unanswered (before : Memory) (source : Source) : Failure → Memory → Prop
  /-- Its details have not been closed, or it has none. -/
  | early {phase : Phase} {packets : List Packet} {rest : Source} {failure : Failure}
      (begun : Begun phase packets)
      (early : ∀ command pathname received, phase ≠ .content command pathname received)
      (read : source.Yields packets rest) (halts : Halts phase rest failure) :
      Unanswered before source failure before
  /-- Its content has not been heard to the end. -/
  | late {call : FileCall} {packets : List Packet} {rest : Source} {failure : Failure}
      {after : Memory} (opened : call.Opened packets)
      (read : source.Yields (packets ++ .flush :: call.pieces.map .data) rest)
      (halts : Halts (.content call.command call.pathname call.payload.toArray) rest failure)
      (permits : call.Permits before after) : Unanswered before source failure after
  /-- It is complete, and its command may not be used. -/
  | unsupported {call : FileCall} {packets : List Packet} {rest : Source} {after : Memory}
      (spelled : (Call.file call).Spelled packets) (read : source.Yields packets rest)
      (unkept : before.kept? call.pathname = none)
      (missing : before.supports call.command = false) (permits : call.Permits before after) :
      Unanswered before source (.unsupported call.command.name) after

theorem unanswered_of_held (before after : Memory) (phase : Phase) (packets : List Packet)
    (source rest : Source) (failure : Failure) (held : Held before phase packets after)
    (read : source.Yields packets rest) (halts : Halts phase rest failure) :
    Unanswered before source failure after := by
  cases held with
  | question begun early => exact .early begun early read halts
  | content call opened => exact .late opened read halts (call.permits_allowing before)

theorem takes_unanswered (memory : Memory) (source : Source) (course : Course)
    (takes : Takes memory source course) (known : memory.Announceable) (failure : Failure)
    (failed : course.failure? = some failure)
    (unplanned : ∀ command, failure ≠ .brokenOff command) :
    ∃ earlier now packets rest, Run memory earlier now ∧
      Call.AllSpelled (earlier.map Turn.call) packets ∧ source.Yields packets rest ∧
      course.sent = (earlier.flatMap fun turn => turn.reply.packets) ∧
      Unanswered now rest failure course.memory := by
  induction takes with
  | closed => cases failed
  | @answered memory source rest call packets course spelled read legal goes later ih =>
      have heard := Source.yields_legal source rest packets read
      have further := Memory.announceable_turn memory call known
        (spelled_announceable call packets spelled heard)
      obtain ⟨earlier, now, others, left, run, allSpelled, yields, sent, unanswered⟩ :=
        ih further failed
      refine ⟨memory.turn call :: earlier, now, packets ++ others, left, .next call goes run, ?_,
        ?_, ?_, unanswered⟩
      · rw [List.map_cons, memory.turn_call]
        exact .call spelled allSpelled
      · exact (Source.yields_append_iff _ _ _ _).mpr ⟨rest, read, yields⟩
      · rw [Course.behind, sent, List.flatMap_cons]
  | @failed memory source rest call packets problem spelled read fails =>
      cases failed
      cases (memory.turn_fails_iff call failure).mp fails with
      | brokenOff => exact absurd rfl (unplanned call.command)
      | unsupported unbarred unkept missing =>
          obtain ⟨silent, remembered⟩ := memory.unsupported_turn call fails
          refine ⟨[], memory, [], source, .none memory, .none, .done source, silent, ?_⟩
          rw [remembered]
          exact .unsupported spelled read unkept missing (call.permits_allowing memory)
  | @refused memory source rest packets before behind pathname spelled read first fits large =>
      -- Whatever has been entered came in a packet, so it fits one.
      have listed : pathname ∈ memory.waitlist.announcement.announced := by
        rw [first]
        exact List.mem_append_cons_self
      exact absurd (memory.waitlist.announced_announceable known pathname listed) large
  | @unfinished memory after source rest phase packets problem held read halts =>
      cases failed
      exact ⟨[], memory, [], source, .none memory, .none, .done source, rfl,
        unanswered_of_held memory after phase packets source rest failure held read halts⟩

/-- A run that fails without having planned to has answered the requests before the last one, and
has sent nothing else. -/
theorem converse_unanswered (source : Source) (desk : Desk) (free : desk.Free)
    (reached : desk.memory.Reached) (failure : Failure)
    (failed : (converse source desk).failure? = some failure)
    (unplanned : ∀ command, failure ≠ .brokenOff command) :
    ∃ earlier now packets rest, Run desk.memory earlier now ∧
      Call.AllSpelled (earlier.map Turn.call) packets ∧ source.Yields packets rest ∧
      (converse source desk).desk.sink.outlet.contents = desk.sink.outlet.contents ++
        Packet.encodeAll (earlier.flatMap fun turn => turn.reply.packets) ∧
      Unanswered now rest failure (converse source desk).desk.memory := by
  obtain ⟨course, takes, follows⟩ := converse_takes source desk free
  obtain ⟨earlier, now, packets, rest, run, spelled, read, sent, unanswered⟩ :=
    takes_unanswered desk.memory source course takes reached.announceable failure
      (follows.failure ▸ failed) unplanned
  refine ⟨earlier, now, packets, rest, run, spelled, read, ?_, ?_⟩
  · rw [follows.sent, sent]
  · rw [follows.remembered]
    exact unanswered

-- The second of two delayed smudges loses its last flush, and stays awaited.
theorem converse_unanswered_reset :
    let memory := Memory.fresh [⟨"smudge"⟩] false
    let calls := delayedSession.take 1 ++ countedSession.take 1
    let bytes := Packet.encodeAll (calls.flatMap Call.packets)
    let source : Source := [.bytes (bytes.take (bytes.length - 4)), .fault "reset"]
    let ending := converse source (.opened memory)
    ending.failure? = some (.channel "reset") ∧
      ending.desk.sink.outlet.contents = Text.bytes "0012status=delayed0000" ∧
      ending.desk.memory.isAwaited "test-delay20.a" = true ∧
      ∃ earlier now packets rest, Run memory earlier now ∧
        Call.AllSpelled (earlier.map Turn.call) packets ∧ source.Yields packets rest ∧
        ending.desk.sink.outlet.contents =
          [] ++ Packet.encodeAll (earlier.flatMap fun turn => turn.reply.packets) ∧
        Unanswered now rest (.channel "reset") ending.desk.memory := by
  intro memory calls bytes source ending
  have failed : ending.failure? = some (.channel "reset") := by decide +kernel
  refine ⟨failed, by decide +kernel, by decide +kernel, ?_⟩
  exact converse_unanswered source (.opened memory) (Desk.free_opened memory)
    (.fresh [⟨"smudge"⟩] false) (.channel "reset") failed (by simp)

end Exchange

end ContentFilter
