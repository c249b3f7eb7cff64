import ContentFilter.Proofs.Completed
import ContentFilter.Proofs.Promises

/-!
Who is delayed. The rule is told by the requests of the session alone, without a waitlist: a
smudge that is not turned away is delayed if its pathname may be delayed, somebody has allowed it
and it has not been delayed before. `awaited_iff` says that this is what the waitlist remembers.
-/

namespace ContentFilter

namespace Ticket

theorem permitted_ne_none_iff (delaysAll asks : Bool) (ticket? : Option Ticket) :
    permitted delaysAll asks ticket? ≠ none ↔
      ticket? ≠ none ∨ delaysAll = true ∧ asks = true := by
  cases asks with
  | false => simp [permitted]
  | true =>
      cases ticket? with
      | none => cases delaysAll <;> simp [permitted]
      | some ticket => simp [permitted]

end Ticket

namespace Turn

theorem shifts_known (pathname : String) (delaysAll : Bool) (turn : Turn)
    (ticket? after? : Option Ticket) (shifts : turn.Shifts pathname delaysAll ticket? after?) :
    after? ≠ none ↔ ticket? ≠ none ∨ delaysAll = true ∧ turn.asks pathname = true := by
  cases shifts with
  | counted query other => simp [other.1]
  | filled file smudged delayed permitted =>
      have known := Ticket.permitted_ne_none_iff delaysAll (turn.asks pathname) ticket?
      rw [permitted] at known
      simpa using known
  | left => exact Ticket.permitted_ne_none_iff delaysAll (turn.asks pathname) ticket?

/-- `turn` answers a smudge, and what it answers can be told from the turns before it. -/
structure Smudged (delaysAll : Bool) (call : FileCall) (earlier : List Turn) (turn : Turn) :
    Prop where
  delayed : (∃ output, turn.reply = .answered (.delayed output)) ↔
    turn.turnedAway = false ∧
      (call.pathname ∈ Waitlist.seeded.pathnames ∨ delaysAll = true) ∧
      (∃ asker ∈ earlier ++ [turn], asker.asks call.pathname = true) ∧
      ∀ other ∈ earlier, other.delayed? call.pathname = none
  kept : ∀ output, turn.reply = .answered (.content output) →
    ∀ smudge ∈ earlier, ∀ payload, smudge.delayed? call.pathname = some payload →
      output = Rotation.rotate payload
  own : ∀ output, turn.reply = .answered (.content output) →
    (∀ other ∈ earlier, other.delayed? call.pathname = none) →
      output = Rotation.rotate call.payload

end Turn

/-- A pathname is on the waitlist if it was there or if a request has put it there. -/
theorem Run.known {start now : Memory} {past : List Turn} (run : Run start past now)
    (distinct : start.Distinct) (pathname : String) :
    now.waitlist.find? pathname ≠ .none ↔ start.waitlist.find? pathname ≠ .none ∨
      start.delaysAll = true ∧ ∃ asker ∈ past, asker.asks pathname = true := by
  induction run with
  | none memory => simp
  | @next memory now past call _ _ ih =>
      have shifts := memory.turn_shifts call distinct pathname
      have known := Turn.shifts_known pathname _ _ _ _ shifts
      have same : (memory.turn call).memory.delaysAll = memory.delaysAll := by
        obtain ⟨_, _, kept, _⟩ := memory.turn_keeps call
        rw [kept]
      rw [ih (memory.distinct_turn call distinct), known, same, or_assoc, ← and_or_left,
        List.exists_mem_cons_iff]

namespace Memory

variable {capabilities : List Capability} {delaysAll : Bool} {earlier : List Turn} {now : Memory}

theorem known_iff (run : Run (fresh capabilities delaysAll) earlier now) (pathname : String) :
    now.waitlist.find? pathname ≠ none ↔ pathname ∈ Waitlist.seeded.pathnames ∨
      delaysAll = true ∧ ∃ asker ∈ earlier, asker.asks pathname = true := by
  have seeded : (fresh capabilities delaysAll).waitlist.find? pathname ≠ none ↔
      pathname ∈ Waitlist.seeded.pathnames := by
    rw [ne_eq, Waitlist.find?_eq_none_iff, not_not]
    rfl
  rw [run.known distinct_fresh pathname, seeded]
  rfl

theorem isAwaited_iff (memory : Memory) (pathname : String) :
    memory.isAwaited pathname = true ↔
      ∃ remaining, memory.waitlist.find? pathname = some ⟨remaining, .asked⟩ := by
  unfold isAwaited
  cases memory.waitlist.find? pathname with
  | none => simp
  | some ticket =>
      obtain ⟨remaining, stage⟩ := ticket
      cases stage <;> simp

theorem asks_turn (memory : Memory) (call : FileCall) :
    (memory.turn (.file call)).asks call.pathname = call.mayDelay := by
  simp [turn, Turn.asks]

/-- What the waitlist remembers of the requests so far, the present one included. -/
theorem awaited_iff (run : Run (fresh capabilities delaysAll) earlier now) (call : FileCall) :
    (now.allowing call).isAwaited call.pathname = true ↔
      (call.pathname ∈ Waitlist.seeded.pathnames ∨ delaysAll = true) ∧
      (∃ asker ∈ earlier ++ [now.turn (.file call)], asker.asks call.pathname = true) ∧
      ∀ other ∈ earlier, other.delayed? call.pathname = none := by
  have account := run.account call.pathname
  have known := known_iff run call.pathname
  have all : now.delaysAll = delaysAll := run.delaysAll
  have asked : (∃ asker ∈ earlier ++ [now.turn (.file call)], asker.asks call.pathname = true) ↔
      (∃ asker ∈ earlier, asker.asks call.pathname = true) ∨ call.mayDelay = true := by
    simp only [List.mem_append, List.mem_singleton, or_and_right, exists_or, exists_eq_left,
      asks_turn]
  rw [isAwaited_iff, asked]
  simp only [find?_allowing, decide_true, Bool.true_and, all]
  constructor
  · rintro ⟨remaining, permitted⟩
    rw [Ticket.permitted_eq_some_iff] at permitted
    refine ⟨?_, ?_, ?_⟩
    · rcases permitted with ⟨found, _⟩ | ⟨_, _, found | ⟨_, may, _⟩⟩
      · exact (known.mp (by simp [found])).imp_right And.left
      · exact (known.mp (by simp [found])).imp_right And.left
      · exact .inr may
    · rcases permitted with ⟨found, _⟩ | ⟨asks, _⟩
      · exact .inl (account.asked remaining .asked found (by simp))
      · exact .inr asks
    · intro other member
      by_contra delayed
      obtain ⟨payload, delayed⟩ := Option.ne_none_iff_exists'.mp delayed
      obtain ⟨left, filled⟩ := account.kept other member payload delayed
      simp [filled] at permitted
  · rintro ⟨may, asked, undelayed⟩
    cases found : now.waitlist.find? call.pathname with
    | none =>
        have unknown := mt known.mpr (by simp [found])
        rw [not_or] at unknown
        have may : delaysAll = true := may.resolve_left unknown.1
        have asks : call.mayDelay = true := asked.resolve_left fun before => unknown.2 ⟨may, before⟩
        exact ⟨Ticket.onTheFly, by simp [Ticket.permitted, may, asks]⟩
    | some ticket =>
        obtain ⟨remaining, stage⟩ := ticket
        cases stage with
        | asked => exact ⟨remaining, by simp [Ticket.permitted_eq_some_iff]⟩
        | filled output =>
            obtain ⟨other, member, delayed⟩ := account.unkept remaining output found
            exact absurd (undelayed other member) delayed
        | idle =>
            refine ⟨remaining, ?_⟩
            -- Had somebody asked before, the ticket would not be idle any more.
            have asks : call.mayDelay = true := by
              refine asked.resolve_left fun before => ?_
              have settled := account.settled before
              simp [found, Ticket.permitted, Ticket.ask?] at settled
            simp [Ticket.permitted_eq_some_iff, asks]

/-! ### The turn of a smudge -/

-- A ticket that has been filled once is never asked for again.
theorem delayed_alone (run : Run (fresh capabilities delaysAll) earlier now) (call : Call)
    (pathname : String) (delayed : (now.turn call).delayed? pathname ≠ none) :
    ∀ other ∈ earlier, other.delayed? pathname = none := by
  intro other member
  by_contra before
  obtain ⟨payload, delayed⟩ := Option.ne_none_iff_exists'.mp delayed
  obtain ⟨stored, before⟩ := Option.ne_none_iff_exists'.mp before
  obtain ⟨left, filled⟩ := (run.account pathname).kept other member stored before
  have shifts := now.turn_shifts call (run.distinct distinct_fresh) pathname
  obtain ⟨remaining, permitted, _⟩ := Turn.shifts_delayed shifts delayed
  simp [Ticket.permitted_eq_some_iff, filled] at permitted

theorem clean_undelayed (memory : Memory) (call : FileCall) (clean : call.command = .clean)
    (output : Bytes) : (memory.turn (.file call)).reply ≠ .answered (.delayed output) := by
  have decided := memory.turn_decides call
  generalize (memory.turn (.file call)).reply = reply at decided
  cases decided with
  | delayed smudged => simp [clean] at smudged
  | aborted | refused | unsupported | content | brokenOff => simp

theorem content_output (memory : Memory) (call : FileCall) (output : Bytes)
    (answered : (memory.turn (.file call)).reply = .answered (.content output)) :
    (memory.allowing call).output? call.request = some output := by
  have decided := memory.turn_decides call
  rw [answered] at decided
  cases decided with
  | content found => exact found

-- A session that goes on leaves a smudge four answers, and only one of them does not wait for it.
theorem delayed_iff_awaited (memory : Memory) (call : FileCall) (smudge : call.command = .smudge)
    (goes : (memory.turn (.file call)).failure? = none) :
    (∃ output, (memory.turn (.file call)).reply = .answered (.delayed output)) ↔
      (memory.turn (.file call)).turnedAway = false ∧
        (memory.allowing call).isAwaited call.pathname = true := by
  have decided := memory.turn_decides call
  have goes : (memory.turn (.file call)).reply.failure? call.command = none := goes
  unfold Turn.turnedAway
  generalize (memory.turn (.file call)).reply = reply at decided goes
  cases decided with
  | aborted | refused => simp
  | delayed _ awaited => simpa using awaited
  | content _ prompt => simpa [smudge] using prompt
  | unsupported | brokenOff => cases goes

theorem turn_smudged (run : Run (fresh capabilities delaysAll) earlier now) (call : FileCall)
    (smudge : call.command = .smudge) (goes : (now.turn (.file call)).failure? = none) :
    (now.turn (.file call)).Smudged delaysAll call earlier where
  delayed := by rw [delayed_iff_awaited now call smudge goes, awaited_iff run call]
  kept := by
    intro output answered smudge member payload delayed
    have found := now.content_output call output answered
    have kept := kept?_of_delayed run call.pathname smudge member payload delayed
    simp only [output?, FileCall.request_pathname, kept?_allowing, kept, Option.some.injEq]
      at found
    exact found.symm
  own := by
    intro output answered undelayed
    have found := now.content_output call output answered
    have unkept := kept?_of_undelayed run call.pathname undelayed
    simp only [output?, FileCall.request_pathname, kept?_allowing, unkept,
      Option.ite_none_right_eq_some, Option.some.injEq] at found
    exact found.2.symm

end Memory

theorem Run.delayed_once {capabilities : List Capability} {delaysAll : Bool} {now : Memory}
    {past : List Turn} (run : Run (Memory.fresh capabilities delaysAll) past now)
    (pathname : String) :
    past.countP (fun turn => (turn.delayed? pathname).isSome) ≤ 1 := by
  induction past using List.reverseRecOn generalizing now with
  | nil => simp
  | append_singleton earlier last ih =>
      obtain ⟨before, call, _, prior, same, _⟩ :=
        Memory.turns_split _ _ earlier [] last run.turns
      subst same
      rw [List.countP_append]
      by_cases delayed : (before.turn call).delayed? pathname = .none
      · simpa [delayed] using ih prior
      · have alone := Memory.delayed_alone prior call pathname delayed
        have none_before : earlier.countP (fun turn => (turn.delayed? pathname).isSome) = 0 := by
          rw [List.countP_eq_zero]
          intro other member
          simp [alone other member]
        rw [none_before, Nat.zero_add]
        exact List.countP_le_length

namespace Exchange

/-- Whether a smudge is delayed, and what is sent for it, is decided by the requests before it:
nothing else that happens in a run that ends well has a say. -/
theorem delay_decided_by_history (capabilities : List Capability) (delaysAll : Bool)
    (source : Source) (desk : Desk) (fresh : desk.memory = Memory.fresh capabilities delaysAll)
    (well : (converse source desk).failure? = none) :
    ∃ calls, source.Brings calls ∧ (desk.memory.turns calls).map Turn.call = calls ∧
      (converse source desk).desk.sink.outlet.contents =
        desk.sink.outlet.contents ++
          Packet.encodeAll ((desk.memory.turns calls).flatMap fun turn => turn.reply.packets) ∧
      (∀ pathname, (desk.memory.turns calls).countP
        (fun turn => (turn.delayed? pathname).isSome) ≤ 1) ∧
      ∀ earlier turn later, desk.memory.turns calls = earlier ++ turn :: later →
        ∀ call, turn.call = .file call →
          (call.command = .clean → ∀ output, turn.reply ≠ .answered (.delayed output)) ∧
          (call.command = .smudge → turn.Smudged delaysAll call earlier) := by
  obtain ⟨calls, brings, answered, run, sent⟩ := converse_completed source desk well
  rw [fresh] at answered run sent ⊢
  refine ⟨calls, brings, answered, sent, run.delayed_once, ?_⟩
  intro earlier turn later played call asked
  have goes := run.goes turn (by simp [played])
  obtain ⟨now, other, _, before, same, _⟩ := Memory.turns_split _ calls earlier later turn played
  subst same
  have same : other = .file call := by cases other <;> exact asked
  subst same
  exact ⟨now.clean_undelayed call, fun smudge => Memory.turn_smudged before call smudge goes⟩

-- The channel has room for these replies and for nothing more.
theorem delay_decided_in_delayed_session :
    let memory := Memory.fresh [⟨"smudge"⟩] false
    let desk : Desk := ⟨memory, { outlet := { room := some 112 } }, { path := "filter.log" }⟩
    (converse (.sending delayedSession) desk).failure? = none ∧
      ∃ calls, (Source.sending delayedSession).Brings calls ∧
        ∀ earlier turn later, memory.turns calls = earlier ++ turn :: later →
          ∀ call, turn.call = .file call → call.command = .smudge →
            turn.Smudged false call earlier := by
  intro memory desk
  have well : (converse (.sending delayedSession) desk).failure? = none := by decide +kernel
  obtain ⟨calls, brings, _, _, _, decided⟩ :=
    delay_decided_by_history [⟨"smudge"⟩] false (.sending delayedSession) desk rfl well
  refine ⟨well, calls, brings, ?_⟩
  intro earlier turn later played call asked
  exact (decided earlier turn later played call asked).2

end Exchange

end ContentFilter
