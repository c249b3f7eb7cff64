import ContentFilter.Proofs.Conversation
import ContentFilter.Proofs.Countdown
import ContentFilter.Proofs.History

/-!
What a session that starts afresh keeps of its promises. A delayed pathname is announced once, when
its countdown says so, and its output is waiting then. The countdown starts with the first request
that allows a delay, though, and what was kept is handed out whatever the command: the three
theorems say how far each promise goes, and the sessions next to them where it stops. The stranger
may be announced beside what is ready, so announcements are counted for every other name.
-/

namespace ContentFilter

theorem Memory.file_ready (memory : Memory) (call : FileCall) :
    (memory.turn (.file call)).ready = [] := by
  have decided := memory.turn_decides call
  unfold Turn.ready
  generalize (memory.turn (.file call)).reply = reply at decided
  cases decided <;> rfl

/-- The pathnames that the reply announces, in its order. -/
def Turn.announced (turn : Turn) : List String :=
  match turn.reply with
  | .listed announcement => announcement.announced
  | _ => []

theorem Memory.file_announced (memory : Memory) (call : FileCall) :
    (memory.turn (.file call)).announced = [] := by
  have decided := memory.turn_decides call
  unfold Turn.announced
  generalize (memory.turn (.file call)).reply = reply at decided
  cases decided <;> rfl

theorem Memory.ready_known (memory : Memory) (call : Call) (pathname : String)
    (ready : pathname ∈ (memory.turn call).ready) : pathname ∈ memory.waitlist.pathnames := by
  cases call with
  | list =>
      simp only [turn, Turn.ready, Waitlist.announcement, Text.mem_sortedSet] at ready
      obtain ⟨entry, listed, same⟩ := List.mem_map.mp ready
      exact same ▸ List.mem_map_of_mem (List.mem_of_mem_filter listed)
  | file asked =>
      rw [memory.file_ready asked] at ready
      cases ready

namespace Turn

theorem ready_sent (memory : Memory) (call : Call) (pathname : String)
    (ready : pathname ∈ (memory.turn call).ready) :
    .say (Exchange.pathnameLine pathname) ∈ (memory.turn call).reply.packets := by
  cases call with
  | list =>
      have announced := memory.waitlist.ready_announced pathname ready
      exact List.mem_append_left _ (List.mem_append_left _ (List.mem_map_of_mem announced))
  | file call =>
      rw [memory.file_ready call] at ready
      cases ready

theorem sends_of_asks (pathname : String) (turn : Turn) (asks : turn.asks pathname = true) :
    turn.sends .clean pathname = true ∨ turn.sends .smudge pathname = true := by
  obtain ⟨call, reply, memory⟩ := turn
  cases call with
  | list => cases asks
  | file call =>
      simp only [Turn.asks, Turn.sends, Bool.and_eq_true, decide_eq_true_eq] at asks ⊢
      have forFile := call.forFile
      cases command : call.command with
      | clean => exact .inl ⟨asks.1, rfl⟩
      | smudge => exact .inr ⟨asks.1, rfl⟩
      | listAvailable => exact absurd command forFile

theorem goes_of_delayed (pathname : String) (turn : Turn) (payload : Bytes)
    (delayed : turn.delayed? pathname = some payload) : turn.failure? = none := by
  obtain ⟨call, reply, memory⟩ := turn
  cases call with
  | list => rfl
  | file call =>
      cases reply with
      | listed | unsupported => cases delayed
      | answered answer =>
          cases answer with
          | delayed output => rfl
          | aborted | refused | content | brokenOff => cases delayed

/-! ### What is promised -/

/-- How a turn announces: in one line each, and what has become ready once. The stranger may come in
addition. -/
structure Announces (turn : Turn) : Prop where
  lines : turn.isQuery = true → turn.reply.packets =
    turn.announced.map (fun pathname => .say (Exchange.pathnameLine pathname)) ++ [.flush]
      ++ Packet.ofStatus .success
  silent : turn.isQuery = false → turn.announced = []
  counted : ∀ pathname, pathname ≠ Reserved.stranger →
    turn.announced.count pathname = if pathname ∈ turn.ready then 1 else 0

/-- `turn` has delayed `pathname`, and `remaining` list queries are to pass until it is
announced. -/
structure Due (pathname : String) (payload : Bytes) (earlier : List Turn) (turn : Turn)
    (later : List Turn) (remaining : Nat) : Prop where
  waits : turn.memory.waitlist.find? pathname =
    some ⟨remaining, .filled (Rotation.rotate payload)⟩
  spent : remaining = 0 ↔ ∃ before ∈ earlier, pathname ∈ before.ready
  cleaned : remaining = 0 → ∃ asker since,
    sinceAsked pathname earlier = asker :: since ∧ asker.sends .clean pathname = true
  readied : ∀ between query after, later = between ++ query :: after → query.isQuery = true →
    (pathname ∈ query.ready ↔ between.countP isQuery + 1 = remaining)
  told : pathname ≠ Reserved.stranger →
    (remaining = 0 ↔ ∃ before ∈ earlier, pathname ∈ before.announced)
  announced : pathname ≠ Reserved.stranger → (later.flatMap Turn.announced).count pathname =
    if 0 < remaining ∧ remaining ≤ later.countP isQuery then 1 else 0

/-- `turn` has made `pathname` available, with or without an output. -/
structure Available (pathname : String) (earlier : List Turn) (turn : Turn) : Prop where
  asked : ∃ asker ∈ earlier, asker.asks pathname = true
  kept : ∀ smudge ∈ earlier, ∀ payload, smudge.delayed? pathname = some payload →
    turn.memory.kept? pathname = some (Rotation.rotate payload)
  unkept : (∀ other ∈ earlier, other.delayed? pathname = none) →
    turn.memory.kept? pathname = none ∧
      ∀ other ∈ sinceAsked pathname earlier,
        other.sends .smudge pathname = true → other.turnedAway = true

/-- `reply` answers a clean request, from its own payload or from what was kept. -/
structure Cleaned (capabilities : List Capability) (call : FileCall) (earlier : List Turn)
    (reply : Reply) : Prop where
  own : (∀ other ∈ earlier, other.delayed? call.pathname = none) →
    reply ∈ [.answered .refused, .answered .aborted] ++
      if ⟨"clean"⟩ ∈ capabilities then
        [.answered .brokenOff, .answered (.content (Rotation.rotate call.payload))]
      else [.unsupported]
  kept : ∀ smudge ∈ earlier, ∀ payload, smudge.delayed? call.pathname = some payload →
    reply ∈ [.answered .refused, .answered .aborted, .answered .brokenOff,
      .answered (.content (Rotation.rotate payload))]
  broken : reply = .answered .brokenOff → Reserved.brokenOff? .clean = some call.pathname

end Turn

namespace Memory

variable {capabilities : List Capability} {delaysAll : Bool} {earlier : List Turn} {now : Memory}

-- Any smudge among the askers would have been delayed itself, or would bar this one.
theorem clean_asked_first (run : Run (fresh capabilities delaysAll) earlier now) (call : Call)
    (pathname : String) (payload : Bytes)
    (delayed : (now.turn call).delayed? pathname = some payload)
    (asked : ∃ asker ∈ earlier, asker.asks pathname = true) :
    ∃ asker since, Turn.sinceAsked pathname earlier = asker :: since ∧
      asker.sends .clean pathname = true := by
  have account := run.account pathname
  have shifts := now.turn_shifts call (run.distinct distinct_fresh) pathname
  obtain ⟨remaining, permitted, _⟩ := Turn.shifts_delayed shifts delayed
  -- This request cannot be the first that allows a delay, so it has left the ticket alone.
  have found : now.waitlist.find? pathname = some ⟨remaining, .asked⟩ := by
    rw [← permitted]
    cases (now.turn call).asks pathname with
    | true => rw [run.delaysAll]; exact (account.settled asked).symm
    | false => rfl
  obtain ⟨asker, since, split, asks⟩ := Turn.sinceAsked_eq_cons pathname earlier asked
  rcases Turn.sends_of_asks pathname asker asks with cleaned | smudged
  · exact ⟨asker, since, split, cleaned⟩
  · have first : asker ∈ Turn.sinceAsked pathname earlier := split ▸ List.mem_cons_self
    have away := account.missed remaining found asker first smudged
    have member := Turn.mem_of_sinceAsked pathname earlier asker first
    have bars := run.bars .smudge pathname asker member smudged away
    exact absurd bars (now.not_bars_of_delayed call pathname payload delayed)

/-- A countdown that has already ended when the smudge is delayed was announced before. -/
theorem delayed_countdown (run : Run (fresh capabilities delaysAll) earlier now) (call : Call)
    (pathname : String) (present : pathname ≠ Reserved.missingDelay) (payload : Bytes)
    (delayed : (now.turn call).delayed? pathname = some payload) :
    ∃ remaining,
      (now.turn call).memory.waitlist.find? pathname =
        some ⟨remaining, .filled (Rotation.rotate payload)⟩ ∧
      (remaining = 0 ↔ ∃ before ∈ earlier, pathname ∈ before.ready) ∧
      (remaining = 0 → ∃ asker since, Turn.sinceAsked pathname earlier = asker :: since ∧
        asker.sends .clean pathname = true) := by
  have account := run.account pathname
  have shifts := now.turn_shifts call (run.distinct distinct_fresh) pathname
  obtain ⟨remaining, permitted, filled⟩ := Turn.shifts_delayed shifts delayed
  rw [run.delaysAll] at permitted
  have spent : (∃ stage, now.waitlist.find? pathname = some ⟨0, stage⟩) ↔ remaining = 0 := by
    rw [← Ticket.permitted_spent (fresh capabilities delaysAll).delaysAll
      ((now.turn call).asks pathname), permitted]
    simp
  refine ⟨remaining, filled, spent.symm.trans (account.spent present).symm, ?_⟩
  intro zero
  obtain ⟨stage, found⟩ := spent.mpr zero
  have started : stage ≠ .idle := by
    rintro rfl
    exact account.waiting 0 found rfl
  exact clean_asked_first run call pathname payload delayed
    (account.asked 0 stage found started)

theorem ready_iff_due {start : Memory} {between : List Turn} (run : Run start between now)
    (distinct : start.Distinct) (call : Call) (query : (now.turn call).isQuery = true)
    (pathname : String) (present : pathname ≠ Reserved.missingDelay) (remaining : Nat)
    (output : Bytes)
    (filled : start.waitlist.find? pathname = some ⟨remaining, .filled output⟩) :
    pathname ∈ (now.turn call).ready ↔ between.countP Turn.isQuery + 1 = remaining := by
  have left := run.find?_filled distinct pathname remaining output filled
  cases call with
  | file asked => cases query
  | list =>
      have ready := now.waitlist.mem_ready_iff (run.distinct distinct) pathname
      simp only [left, Option.some.injEq, exists_eq_left', Waitlist.isReady_iff pathname present]
        at ready
      exact ready.trans ⟨fun due => by have := due.2; omega, fun due => ⟨by simp, by omega⟩⟩

theorem turn_announces (memory : Memory) (distinct : memory.Distinct) (call : Call) :
    (memory.turn call).Announces := by
  cases call with
  | list =>
      refine ⟨fun _ => rfl, fun file => (by cases file), fun pathname known => ?_⟩
      have counted := memory.waitlist.announced_count distinct pathname known
      rwa [memory.waitlist.ready_nodup.count] at counted
  | file asked =>
      have silent := memory.file_announced asked
      refine ⟨fun query => (by cases query), fun _ => silent, fun pathname _ => ?_⟩
      simp [silent, memory.file_ready asked]

theorem mem_announced_iff (memory : Memory) (distinct : memory.Distinct) (call : Call)
    (pathname : String) (known : pathname ≠ Reserved.stranger) :
    pathname ∈ (memory.turn call).announced ↔ pathname ∈ (memory.turn call).ready := by
  have counted := (memory.turn_announces distinct call).counted pathname known
  rw [← List.count_pos_iff, counted]
  split <;> simp_all

/-- A kept output is announced by the query that ends its countdown and by no other. -/
theorem announced_once (memory : Memory) (distinct : memory.Distinct) (calls : List Call)
    (pathname : String) (present : pathname ≠ Reserved.missingDelay)
    (known : pathname ≠ Reserved.stranger) (remaining : Nat) (output : Bytes)
    (filled : memory.waitlist.find? pathname = some ⟨remaining, .filled output⟩) :
    ((memory.turns calls).flatMap Turn.announced).count pathname =
      if 0 < remaining ∧ remaining ≤ (memory.turns calls).countP Turn.isQuery then 1 else 0 := by
  induction calls generalizing memory remaining with
  | nil => simp [turns, Nat.pos_iff_ne_zero]
  | cons call rest ih =>
      have further := memory.distinct_turn call distinct
      have step (goes : (memory.turn call).failure? = none) :=
        (Run.next call goes (.none _)).find?_filled distinct pathname remaining output filled
      cases call with
      | list =>
          have due := ready_iff_due (.none memory) distinct .list rfl pathname present remaining
            output filled
          have counted := (memory.turn_announces distinct .list).counted pathname known
          have query : (memory.turn .list).isQuery = true := rfl
          have later := ih _ further (remaining - 1) (step rfl)
          rw [turns_cons memory .list rest rfl, List.flatMap_cons, List.count_append, counted,
            later, List.countP_cons_of_pos query]
          simp only [due, List.countP_nil]
          -- The countdown has ended, ends with this query, or goes on behind it.
          obtain _ | _ | more := remaining
          · simp
          · simp
          · simp
      | file asked =>
          have silent := memory.file_announced asked
          have other : (memory.turn (.file asked)).isQuery = false := rfl
          cases goes : (memory.turn (.file asked)).failure? with
          | none =>
              have later := ih _ further _ (step goes)
              rw [turns_cons memory _ rest goes, List.flatMap_cons, silent, List.nil_append]
              simpa [other] using later
          | some failure =>
              simp only [turns, goes, List.flatMap_singleton, silent]
              simp [other]
              omega

theorem mem_announced_before {start : Memory} {past : List Turn} (run : Run start past now)
    (distinct : start.Distinct) (pathname : String) (known : pathname ≠ Reserved.stranger)
    (before : Turn) (member : before ∈ past) :
    pathname ∈ before.announced ↔ pathname ∈ before.ready := by
  induction run with
  | none memory => cases member
  | @next memory now past call goes later ih =>
      rcases List.mem_cons.mp member with rfl | behind
      · exact memory.mem_announced_iff distinct call pathname known
      · exact ih (memory.distinct_turn call distinct) behind

theorem turn_due (run : Run (fresh capabilities delaysAll) earlier now) (call : Call)
    (rest : List Call) (pathname : String) (present : pathname ≠ Reserved.missingDelay)
    (payload : Bytes) (delayed : (now.turn call).delayed? pathname = some payload) :
    ∃ remaining, (now.turn call).Due pathname payload earlier
      ((now.turn call).memory.turns rest) remaining := by
  have distinct := now.distinct_turn call (run.distinct distinct_fresh)
  obtain ⟨remaining, filled, spent, cleaned⟩ :=
    delayed_countdown run call pathname present payload delayed
  refine ⟨remaining, filled, spent, cleaned, ?_, ?_, ?_⟩
  · intro between query after behind isQuery
    obtain ⟨afterwards, asked, _, on, same, _⟩ := turns_split _ rest between after query behind
    subst same
    exact ready_iff_due on distinct asked isQuery pathname present remaining _ filled
  · intro known
    have before := mem_announced_before run distinct_fresh pathname known
    refine spent.trans ⟨?_, ?_⟩
    · rintro ⟨turn, member, ready⟩
      exact ⟨turn, member, (before turn member).mpr ready⟩
    · rintro ⟨turn, member, announced⟩
      exact ⟨turn, member, (before turn member).mp announced⟩
  · intro known
    exact announced_once _ distinct rest pathname present known remaining _ filled

theorem kept?_of_delayed (run : Run (fresh capabilities delaysAll) earlier now)
    (pathname : String) (smudge : Turn) (member : smudge ∈ earlier) (payload : Bytes)
    (delayed : smudge.delayed? pathname = some payload) :
    now.kept? pathname = some (Rotation.rotate payload) := by
  obtain ⟨remaining, filled⟩ := (run.account pathname).kept smudge member payload delayed
  rw [kept?, filled]
  rfl

theorem kept?_of_undelayed (run : Run (fresh capabilities delaysAll) earlier now)
    (pathname : String) (undelayed : ∀ other ∈ earlier, other.delayed? pathname = none) :
    now.kept? pathname = none := by
  rw [kept?]
  cases found : now.waitlist.find? pathname with
  | none => rfl
  | some ticket =>
      obtain ⟨remaining, stage⟩ := ticket
      cases stage with
      | idle | asked => rfl
      | filled output =>
          obtain ⟨smudge, member, delayed⟩ :=
            (run.account pathname).unkept remaining output found
          exact absurd (undelayed smudge member) delayed

theorem kept?_countDown (memory : Memory) (pathname : String) :
    memory.countDown.kept? pathname = memory.kept? pathname := by
  unfold kept? countDown
  rw [Waitlist.find?_countDown]
  cases memory.waitlist.find? pathname with
  | none => rfl
  | some ticket => exact congrArg Stage.output? ticket.countDown_stage

theorem ready_available (run : Run (fresh capabilities delaysAll) earlier now) (call : Call)
    (pathname : String) (ready : pathname ∈ (now.turn call).ready) :
    (now.turn call).Available pathname earlier := by
  have account := run.account pathname
  cases call with
  | file asked =>
      rw [(now.file_ready asked)] at ready
      cases ready
  | list =>
      obtain ⟨⟨remaining, stage⟩, found, due⟩ :=
        (now.waitlist.mem_ready_iff (run.distinct distinct_fresh) pathname).mp ready
      have started : stage ≠ .idle := by
        rintro rfl
        cases due
      have kept := now.kept?_countDown pathname
      refine ⟨account.asked remaining stage found started, ?_, ?_⟩
      · intro smudge member payload delayed
        exact kept.trans (kept?_of_delayed run pathname smudge member payload delayed)
      · intro undelayed
        have unkept := kept?_of_undelayed run pathname undelayed
        refine ⟨kept.trans unkept, ?_⟩
        cases stage with
        | idle => exact absurd rfl started
        | asked => exact account.missed remaining found
        | filled output => simp [kept?, found, Stage.output?] at unkept

theorem kept?_allowing (memory : Memory) (call : FileCall) (pathname : String) :
    (memory.allowing call).kept? pathname = memory.kept? pathname := by
  unfold kept?
  rw [find?_allowing]
  cases decide (call.pathname = pathname) && call.mayDelay with
  | false => rfl
  | true =>
      cases memory.waitlist.find? pathname with
      | none => cases memory.delaysAll <;> rfl
      | some ticket =>
          obtain ⟨remaining, stage⟩ := ticket
          cases stage <;> rfl

theorem breakOff_of_brokenOff (memory : Memory) (call : FileCall)
    (broken : (memory.turn (.file call)).reply = .answered .brokenOff) :
    Reserved.brokenOff? call.command = some call.pathname := by
  have decided := memory.turn_decides call
  rw [broken] at decided
  cases decided with
  | brokenOff _ _ rule =>
      unfold rule? Reserved.fileRule? at rule
      split at rule
      · cases rule
      · split at rule
        · cases rule
        · split at rule
          · cases rule
          · exact (Option.ite_none_right_eq_some.mp rule).1

-- With an output kept, the payload of the request itself is lost.
theorem turn_cleaned (run : Run (fresh capabilities delaysAll) earlier now) (call : FileCall)
    (clean : call.command = .clean) :
    Turn.Cleaned capabilities call earlier (now.turn (.file call)).reply := by
  have broken := now.breakOff_of_brokenOff call
  have decided := now.turn_decides call
  have kept := now.kept?_allowing call call.pathname
  have supported : (now.allowing call).supports call.request.command = true ↔
      ⟨"clean"⟩ ∈ capabilities := by
    obtain ⟨waitlist, allowed⟩ := now.allowing_waitlist call
    rw [allowed, supports]
    simp [clean, Command.capability?, Command.name, run.capabilities, fresh]
  generalize (now.turn (.file call)).reply = reply at decided broken
  refine ⟨?_, ?_, clean ▸ broken⟩
  · intro undelayed
    rw [kept?_of_undelayed run call.pathname undelayed] at kept
    cases decided with
    | aborted | refused => simp
    | unsupported unkept missing =>
        have absent : ⟨"clean"⟩ ∉ capabilities := by
          intro present
          rw [FileCall.request_command] at missing supported
          exact Bool.eq_false_iff.mp missing (supported.mpr present)
        simp [absent]
    | delayed smudged => simp [clean] at smudged
    | content found =>
        simp only [output?, FileCall.request_pathname, kept, Option.ite_none_right_eq_some,
          Option.some.injEq] at found
        simp [supported.mp found.1, ← found.2]
    | brokenOff found =>
        simp only [output?, FileCall.request_pathname, kept, Option.ite_none_right_eq_some]
          at found
        simp [supported.mp found.1]
  · intro smudge member payload delayed
    rw [kept?_of_delayed run call.pathname smudge member payload delayed] at kept
    cases decided with
    | aborted | refused | brokenOff => simp
    | unsupported unkept => simp [kept] at unkept
    | delayed smudged => simp [clean] at smudged
    | content found =>
        simp only [output?, FileCall.request_pathname, kept, Option.some.injEq] at found
        simp [found]

end Memory

namespace Exchange

variable (capabilities : List Capability) (delaysAll : Bool) (calls : List Call)
  (source : Source) (brings : source.Brings calls) (desk : Desk) (free : desk.Free)
  (fresh : desk.memory = Memory.fresh capabilities delaysAll)

section

include brings free fresh

theorem converse_fresh : (converse source desk).Tells desk (desk.memory.turns calls) :=
  converse_brings calls source brings desk free (fresh ▸ Waitlist.announceable_seeded)

theorem delayed_announced_when_due :
    (converse source desk).Tells desk (desk.memory.turns calls) ∧
    ∀ earlier turn later, desk.memory.turns calls = earlier ++ turn :: later →
      turn.Announces ∧
      (∀ pathname ∈ turn.ready, .say (pathnameLine pathname) ∈ turn.reply.packets) ∧
      ∀ pathname payload, pathname ≠ Reserved.missingDelay →
        turn.delayed? pathname = some payload →
        ∃ remaining, turn.Due pathname payload earlier later remaining := by
  refine ⟨converse_fresh capabilities delaysAll calls source brings desk free fresh, ?_⟩
  intro earlier turn later played
  rw [fresh] at played
  obtain ⟨now, call, rest, run, same, goesOn⟩ :=
    Memory.turns_split _ calls earlier later turn played
  subst same
  refine ⟨now.turn_announces (run.distinct Memory.distinct_fresh) call,
    Turn.ready_sent now call, ?_⟩
  intro pathname payload present delayed
  rw [goesOn (Turn.goes_of_delayed pathname _ payload delayed)]
  exact Memory.turn_due run call rest pathname present payload delayed

end

theorem delayed_announced_by_second :
    ∃ turn later,
      (Memory.fresh requiredCapabilities false).turns countedSession = turn :: later ∧
      turn.Due "test-delay20.a" (Text.bytes "abc") [] later 2 := by
  obtain ⟨_, promised⟩ := delayed_announced_when_due requiredCapabilities false countedSession
    (.sending countedSession) (Source.brings_sending countedSession (by decide))
    (.opened (Memory.fresh requiredCapabilities false)) (Desk.free_opened _) rfl
  obtain ⟨remaining, due⟩ := (promised [] _ _ rfl).2.2 "test-delay20.a" (Text.bytes "abc")
    (by decide) (by decide +kernel)
  have counted := due.waits.symm.trans (show _ = some
    ⟨2, .filled (Rotation.rotate (Text.bytes "abc"))⟩ by decide +kernel)
  cases counted
  exact ⟨_, _, rfl, due⟩

-- The smudge is delayed with nothing left to count, and no query after it announces anything.
theorem delayed_past_its_countdown :
    let memory := Memory.fresh requiredCapabilities false
    (converse (.sending lateSession) (.opened memory)).Tells (.opened memory)
        (memory.turns lateSession) ∧
      ((memory.turns lateSession)[2]?.map fun turn =>
          (turn.delayed? "test-delay10.a", turn.memory.waitlist.find? "test-delay10.a")) =
        some (some (Text.bytes "abc"), some ⟨0, .filled (Text.bytes "nop")⟩) ∧
      (memory.turns lateSession).map Turn.ready = [[], ["test-delay10.a"], [], [], []] :=
  ⟨converse_fresh requiredCapabilities false lateSession _
      (Source.brings_sending lateSession (by decide)) _ (Desk.free_opened _) rfl,
    by decide +kernel, by decide +kernel⟩

/-! ### Available, but never delayed -/

section

include brings free fresh

theorem ready_asked_for :
    (converse source desk).Tells desk (desk.memory.turns calls) ∧
    ∀ earlier turn later, desk.memory.turns calls = earlier ++ turn :: later →
      ∀ pathname ∈ turn.ready, turn.Available pathname earlier := by
  refine ⟨converse_fresh capabilities delaysAll calls source brings desk free fresh, ?_⟩
  intro earlier turn later played pathname ready
  rw [fresh] at played
  obtain ⟨now, call, _, run, same, _⟩ := Memory.turns_split _ calls earlier later turn played
  subst same
  exact Memory.ready_available run call pathname ready

end

theorem ready_asked_for_by_smudge :
    ∃ first second third,
      (Memory.fresh requiredCapabilities false).turns countedSession = [first, second, third] ∧
      third.ready = ["test-delay20.a"] ∧ third.Available "test-delay20.a" [first, second] := by
  obtain ⟨_, promised⟩ := ready_asked_for requiredCapabilities false countedSession
    (.sending countedSession) (Source.brings_sending countedSession (by decide))
    (.opened (Memory.fresh requiredCapabilities false)) (Desk.free_opened _) rfl
  have played := Memory.turns_cons (Memory.fresh requiredCapabilities false)
    (countedSession.head (by decide)) countedSession.tail (by decide +kernel)
  refine ⟨_, _, _, played, by decide +kernel, ?_⟩
  exact promised [_, _] _ [] played "test-delay20.a" (by decide +kernel)

/-- Nothing but a clean request and the list query it makes ready for. -/
def cleanedSession : List Call := lateSession.take 2

theorem ready_without_delay :
    let memory := Memory.fresh requiredCapabilities false
    (converse (.sending cleanedSession) (.opened memory)).Tells (.opened memory)
        (memory.turns cleanedSession) ∧
      (memory.turns cleanedSession).map (Turn.delayed? "test-delay10.a") = [none, none] ∧
      ((memory.turns cleanedSession)[1]?.map fun turn =>
          (turn.ready, turn.memory.kept? "test-delay10.a")) =
        some (["test-delay10.a"], none) :=
  ⟨converse_fresh requiredCapabilities false cleanedSession _
      (Source.brings_sending cleanedSession (by decide)) _ (Desk.free_opened _) rfl,
    by decide +kernel, by decide +kernel⟩

/-! ### Kept for a smudge, fetched by a clean request -/

section

include brings free fresh

theorem clean_answered_from :
    (converse source desk).Tells desk (desk.memory.turns calls) ∧
    ∀ earlier turn later, desk.memory.turns calls = earlier ++ turn :: later →
      ∀ call, turn.call = .file call → call.command = .clean →
        Turn.Cleaned capabilities call earlier turn.reply := by
  refine ⟨converse_fresh capabilities delaysAll calls source brings desk free fresh, ?_⟩
  intro earlier turn later played call sent clean
  rw [fresh] at played
  obtain ⟨now, asked, _, run, same, _⟩ := Memory.turns_split _ calls earlier later turn played
  subst same
  have same : asked = .file call := by cases asked <;> exact sent
  subst same
  exact Memory.turn_cleaned run call clean

end

/-- A clean request for a pathname whose smudge has been delayed. -/
def straySession : List Call := countedSession.take 1 ++ [.file strayClean]

theorem clean_answered_from_kept :
    ∃ first second later,
      (Memory.fresh requiredCapabilities false).turns straySession = first :: second :: later ∧
      Turn.Cleaned requiredCapabilities strayClean [first] second.reply := by
  obtain ⟨_, promised⟩ := clean_answered_from requiredCapabilities false straySession
    (.sending straySession) (Source.brings_sending straySession (by decide))
    (.opened (Memory.fresh requiredCapabilities false)) (Desk.free_opened _) rfl
  have played := Memory.turns_cons (Memory.fresh requiredCapabilities false)
    (straySession.head (by decide)) straySession.tail (by decide +kernel)
  exact ⟨_, _, _, played, promised [_] _ _ played strayClean rfl rfl⟩

-- The answer is the rotated payload of the smudge, and `clean` is not even in force.
theorem clean_answered_without_capability :
    let memory := Memory.fresh [⟨"smudge"⟩] false
    (converse (.sending straySession) (.opened memory)).Tells (.opened memory)
        (memory.turns straySession) ∧
      (memory.turns straySession).map Turn.reply =
        [.answered (.delayed (Text.bytes "nop")), .answered (.content (Text.bytes "nop"))] ∧
      Rotation.rotate strayClean.payload = Text.bytes "klm" :=
  ⟨converse_fresh [⟨"smudge"⟩] false straySession _
      (Source.brings_sending straySession (by decide)) _ (Desk.free_opened _) rfl,
    by decide +kernel, by decide +kernel⟩

end Exchange

end ContentFilter
