import ContentFilter.Proofs.Acceptance
import ContentFilter.Proofs.Alternation
import ContentFilter.Proofs.Greeted

/-!
The journal of a whole session against its wire. Behind the greeting the journal holds one record
for each command, in order, and every record agrees with what was sent for that command;
`Recorded` says how. What comes last tells how the session ended: `Leaves`.
-/

namespace ContentFilter

/-- The record of a turn that was taken with the memory `now`. -/
inductive Turn.Recorded (now : Memory) (turn : Turn) : Prop
  | list (asked : turn.call = .list)
      (record : turn.record =
        "IN: list_available_blobs" ++ String.join (turn.ready.map (" " ++ ·)) ++ " [OK]\n")
      (ascending : turn.ready.Pairwise fun left right => Text.bytes left < Text.bytes right)
      (due : ∀ pathname, pathname ∈ turn.ready ↔ pathname ≠ Reserved.missingDelay ∧
        ∃ ticket, now.waitlist.find? pathname = some ticket ∧ ticket.stage ≠ .idle ∧
          ticket.remaining = 1)
      (announced : ∀ pathname ∈ turn.ready,
        .say (Exchange.pathnameLine pathname) ∈ turn.reply.packets) : Recorded now turn
  | file (call : FileCall) (asked : turn.call = .file call) (result : String)
      (record : turn.record = s!"{call.entry} {call.payload.length} [OK] -- {result}")
      (closes : turn.Closes result) (tags : turn.Tags result) : Recorded now turn

theorem Memory.recorded (memory : Memory) (distinct : memory.Distinct) (call : Call) :
    (memory.turn call).Recorded memory := by
  cases call with
  | list =>
      have ascending : (memory.turn .list).ready.Pairwise
          fun left right => Text.bytes left < Text.bytes right :=
        (Text.sortedSet_ascending _).imp fun below => Text.bytes_lt _ _ below
      exact .list rfl (Turn.record_list memory) ascending
        (memory.waitlist.mem_ready_due_iff distinct) (Turn.ready_sent memory .list)
  | file call =>
      have closes := Turn.closes_file memory call
      exact .file call rfl _ (Turn.record_file memory call) closes (Turn.tags_of_closes _ _ closes)

namespace Exchange

theorem leaves_failed (turns : List Turn) (turn : Turn) (rest : Bytes) (failure? : Option Failure)
    (text : String) (leaves : Leaves (turns ++ [turn]) rest failure? text) (failure : Failure)
    (fails : turn.failure? = some failure) : failure? = some failure := by
  have contradiction (go : ∀ other ∈ turns ++ [turn], other.failure? = none) : False := by
    have goes := go turn (by simp)
    rw [fails] at goes
    cases goes
  cases leaves with
  | failed rest last other =>
      rw [List.getLast?_append] at last
      cases last
      exact other.symm.trans fails
  | stopped go => exact (contradiction go).elim
  | unknown left go => exact (contradiction go).elim
  | malformed go => exact (contradiction go).elim

theorem unfinished_ne_stop (phase : Phase) (packets : List Packet) (text : String)
    (unfinished : Unfinished phase packets text) : text ≠ "STOP\n" := by
  -- A record begins with another letter.
  have recorded (rest : String) : "IN: " ++ rest ≠ "STOP\n" := by
    intro same
    have letters := congrArg String.toList same
    simp at letters
  cases unfinished with
  | nothing | list => decide
  | @file command => exact recorded command.name
  | details call | content call =>
      simp only [FileCall.entry, String.append_assoc]
      exact recorded _

theorem leaves_stop_iff (turns : List Turn) (rest : Bytes) (failure? : Option Failure)
    (text : String) (leaves : Leaves turns rest failure? text) :
    text = "STOP\n" ↔ failure? = none := by
  cases leaves with
  | stopped => simp
  | failed | unknown => simp
  | malformed _ unfinished => simp [unfinished_ne_stop _ _ text unfinished]

end Exchange

namespace Service

theorem noting_free (remark : Remark) (source : Source) (desk : Desk) (free : desk.Free) :
    ∃ after, desk.Moves [] [remark] desk.memory after ∧
      noting remark source desk = ⟨none, source, after⟩ := by
  obtain ⟨after, noted, moved⟩ := Effect.perform_free (.note remark) desk free (by simp)
  refine ⟨after, moved, ?_⟩
  simp only [noting, noted]

variable (setup : Setup) (source : Source) (sink : Sink) (journal : Journal)

/-- A session that comes to its first request has noted so, and remembers the offer and nothing
else. -/
theorem greeted_fresh (clear : source.Faultless) (free : sink.Free)
    (room : journal.file.room = none)
    (greets : (greeted setup source sink journal).failure? = none) :
    (greeted setup source sink journal).source.Faultless ∧
      (greeted setup source sink journal).desk.Free ∧
      (greeted setup source sink journal).desk.memory =
        .fresh setup.offered setup.delaysAll ∧
      (greeted setup source sink journal).desk.journal.text =
        journal.text ++ Text.bytes "START\ninit handshake complete\n" := by
  obtain ⟨opened, started, first⟩ :=
    noting_free .started source ⟨setup.memory, sink, journal⟩ ⟨free, room⟩
  obtain ⟨what?, sent, left, verdict⟩ :=
    Greeting.verdict_total requiredCapabilities setup.offered source.bytes
  have settled := Greeting.greet_verdict requiredCapabilities setup.offered source clear opened
    started.free.sink what? sent left verdict
  have whole : greeted setup source sink journal =
      (greet requiredCapabilities setup.offered source opened).andThen (noting .greeted) := by
    rw [greeted, first]
    rfl
  rw [whole] at greets ⊢
  cases what? with
  | some what =>
      have stays := settled.failure
      simp only [Ending.andThen, stays, Option.map_some] at greets
      cases greets
  | none =>
      have goes := settled.failure
      have ready : (greet requiredCapabilities setup.offered source opened).desk.Free :=
        ⟨settled.sent.1, settled.journal ▸ started.free.journal⟩
      obtain ⟨after, noted, second⟩ := noting_free .greeted
        (greet requiredCapabilities setup.offered source opened).source _ ready
      simp only [Ending.andThen, goes, Option.map_none, second]
      refine ⟨settled.clear, noted.free, ?_, ?_⟩
      · rw [noted.remembered, settled.memory, started.remembered]
        rfl
      · rw [noted.noted, settled.journal, started.noted, List.append_assoc]
        rfl

/-- Behind the greeting the journal and the channel of a session tell the same story: one record
for each command that was read to its end, which agrees with what was sent for it, and then
`STOP` or the part of a record that a failure left behind. -/
theorem attend_journals (clear : source.Faultless) (free : sink.Free)
    (room : journal.file.room = none)
    (greets : (greeted setup source sink journal).failure? = none) :
    let opened := greeted setup source sink journal
    let ending := attend setup source sink journal
    let start := Memory.fresh setup.offered setup.delaysAll
    ∃ calls packets front rest text,
      opened.source.bytes = front ++ rest ∧ Packet.AllWritten packets front ∧
      Call.AllSpelled calls packets ∧ (start.turns calls).map Turn.call = calls ∧
      ending.desk.sink.outlet.contents = opened.desk.sink.outlet.contents ++
        Packet.encodeAll ((start.turns calls).flatMap fun turn => turn.reply.packets) ∧
      ending.desk.journal.close.contents = journal.text ++
        Text.bytes ("START\ninit handshake complete\n" ++
          String.join ((start.turns calls).map Turn.record) ++ text) ∧
      Exchange.Leaves (start.turns calls) rest ending.failure? text ∧
      (text = "STOP\n" ↔ ending.failure? = none) ∧
      ∀ earlier turn later, start.turns calls = earlier ++ turn :: later →
        (∃ now, Run start earlier now ∧ turn.Recorded now) ∧
        ∀ failure, turn.failure? = some failure → later = [] ∧ ending.failure? = some failure := by
  intro opened ending start
  obtain ⟨openedClear, openedFree, fresh, noted⟩ :=
    greeted_fresh setup source sink journal clear free room greets
  have known : opened.desk.memory.Announceable :=
    fresh ▸ (Memory.Reached.fresh setup.offered setup.delaysAll).announceable
  have onward : ending = Exchange.converse opened.source opened.desk := by
    have whole : ending = opened.andThen Exchange.converse := rfl
    rw [whole, Ending.andThen, greets]
  obtain ⟨failure?, left, verdict⟩ := Exchange.verdict_total start opened.source.bytes
  obtain ⟨calls, packets, front, rest, text, whole, written, spelled, asked, leaves, shown⟩ :=
    Exchange.converse_leaves start opened.source.bytes left failure? verdict opened.source
      openedClear rfl opened.desk openedFree fresh known
  rw [← onward] at shown
  rw [← shown.failure] at leaves
  refine ⟨calls, packets, front, rest, text, whole, written, spelled, asked, shown.sent, ?_, leaves,
    Exchange.leaves_stop_iff _ rest _ text leaves, ?_⟩
  · obtain ⟨file, drained, _, contents⟩ := ending.desk.journal.drain_free shown.free.journal
    rw [Journal.close, drained]
    refine contents.trans ?_
    rw [shown.noted, noted, List.append_assoc, ← Text.bytes_append, String.append_assoc]
  · intro earlier turn later played
    obtain ⟨now, call, _, run, same, taken⟩ := start.turns_taken calls earlier later turn played
    constructor
    · subst same
      exact ⟨now, run, now.recorded (run.distinct Memory.distinct_fresh) call⟩
    · -- A turn that ends the session is its last.
      intro failure fails
      rw [fails] at taken
      subst taken
      rw [played] at leaves
      exact ⟨rfl, Exchange.leaves_failed earlier turn rest _ text leaves failure fails⟩

theorem attend_journals_delayed :
    let setup : Setup := { offered := [⟨"smudge"⟩] }
    let source : Source := [.bytes Greeting.driverGreeting, .pause,
      .bytes (Packet.encodeAll (Exchange.delayedSession.flatMap Call.packets))]
    let journaled := (attend setup source {} { path := "filter.log" }).desk.journal.close.contents
    let start := Memory.fresh setup.offered setup.delaysAll
    ∃ calls text, text = "STOP\n" ∧
      journaled = Text.bytes ("START\ninit handshake complete\n" ++
        String.join ((start.turns calls).map Turn.record) ++ text) ∧
      journaled = Text.bytes "START\ninit handshake complete\n" ++
        Text.bytes "IN: smudge test-delay10.a ref=main 3 [OK] -- [DELAYED]\n" ++
        Text.bytes "IN: list_available_blobs test-delay10.a [OK]\n" ++
        Text.bytes "IN: smudge test-delay10.a 0 [OK] -- OUT: 3 . [OK]\nSTOP\n" := by
  intro setup source journaled start
  obtain ⟨calls, _, _, _, text, _, _, _, _, _, logged, _, stopped, _⟩ :=
    attend_journals setup source {} { path := "filter.log" } (by simp [Source.Faultless, source])
      ⟨rfl, rfl⟩ rfl (by decide +kernel)
  exact ⟨calls, text, stopped.mpr (by decide +kernel), logged, by decide +kernel⟩

end Service

end ContentFilter
