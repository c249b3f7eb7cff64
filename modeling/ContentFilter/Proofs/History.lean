import ContentFilter.Proofs.Tickets

/-!
What can be told of a memory from the turns that led to it. `Account` is the story of one ticket:
who was delayed, who was turned away and whether the pathname has been announced. `account_run`
keeps it over every sequence of turns.
-/

namespace ContentFilter

/-- `past` led from `start` to `now`, and the session did not end on the way. -/
inductive Run : Memory → List Turn → Memory → Prop
  | none (memory : Memory) : Run memory [] memory
  | next {memory now : Memory} {past : List Turn} (call : Call)
      (goes : (memory.turn call).failure? = none) (later : Run (memory.turn call).memory past now) :
      Run memory (memory.turn call :: past) now

namespace Memory

theorem turns_cons (memory : Memory) (call : Call) (rest : List Call)
    (goes : (memory.turn call).failure? = none) :
    memory.turns (call :: rest) = memory.turn call :: (memory.turn call).memory.turns rest := by
  rw [turns, goes]

/-- Every turn of a session was taken with the memory that the turns in front of it led to, and one
that ends the session is its last. -/
theorem turns_taken (memory : Memory) (calls : List Call) (earlier later : List Turn)
    (turn : Turn) (played : memory.turns calls = earlier ++ turn :: later) :
    ∃ now call rest, Run memory earlier now ∧ turn = now.turn call ∧
      later = match turn.failure? with
        | none => turn.memory.turns rest
        | some _ => [] := by
  induction earlier generalizing memory calls with
  | nil =>
      cases calls with
      | nil => cases played
      | cons call rest =>
          simp only [turns, List.nil_append, List.cons.injEq] at played
          obtain ⟨same, behind⟩ := played
          exact ⟨memory, call, rest, .none memory, same.symm, same ▸ behind.symm⟩
  | cons first earlier ih =>
      cases calls with
      | nil => cases played
      | cons call rest =>
          simp only [turns, List.cons_append, List.cons.injEq] at played
          obtain ⟨same, behind⟩ := played
          cases goes : (memory.turn call).failure? with
          | some failure =>
              rw [goes] at behind
              cases earlier <;> cases behind
          | none =>
              rw [goes] at behind
              obtain ⟨now, asked, others, run, taken⟩ := ih _ rest behind
              exact ⟨now, asked, others, same ▸ .next call goes run, taken⟩

theorem turns_split (memory : Memory) (calls : List Call) (earlier later : List Turn)
    (turn : Turn) (played : memory.turns calls = earlier ++ turn :: later) :
    ∃ now call rest, Run memory earlier now ∧ turn = now.turn call ∧
      (turn.failure? = none → later = turn.memory.turns rest) := by
  obtain ⟨now, call, rest, run, same, taken⟩ := memory.turns_taken calls earlier later turn played
  refine ⟨now, call, rest, run, same, fun goes => ?_⟩
  rw [taken, goes]

/-! ### What no turn changes -/

theorem turn_keeps (memory : Memory) (call : Call) :
    ∃ waitlist aborted, (memory.turn call).memory = { memory with waitlist, aborted } ∧
      ∀ command, memory.aborted command = true → aborted command = true := by
  cases call with
  | list => exact ⟨_, memory.aborted, rfl, fun _ before => before⟩
  | file asked =>
      obtain ⟨waitlist, allowed⟩ := allowing_waitlist memory asked
      simp only [turn, allowed]
      generalize replyTo _ _ = reply
      cases reply with
      | answered answer =>
          cases answer with
          | aborted => exact ⟨_, _, rfl, fun command before => by simp [before]⟩
          | refused | delayed | content | brokenOff =>
              exact ⟨_, memory.aborted, rfl, fun _ before => before⟩
      | listed | unsupported => exact ⟨_, memory.aborted, rfl, fun _ before => before⟩

theorem distinct_fresh {capabilities : List Capability} {delaysAll : Bool} :
    (fresh capabilities delaysAll).Distinct := by
  have seeded : Waitlist.seeded.pathnames.Nodup := by decide
  exact seeded

end Memory

namespace Run

variable {start now : Memory} {past : List Turn}

theorem capabilities (run : Run start past now) : now.capabilities = start.capabilities := by
  induction run with
  | none memory => rfl
  | @next memory now past call _ _ ih =>
      obtain ⟨_, _, same, _⟩ := memory.turn_keeps call
      rw [ih, same]

theorem delaysAll (run : Run start past now) : now.delaysAll = start.delaysAll := by
  induction run with
  | none memory => rfl
  | @next memory now past call _ _ ih =>
      obtain ⟨_, _, same, _⟩ := memory.turn_keeps call
      rw [ih, same]

theorem distinct (run : Run start past now) (before : start.Distinct) : now.Distinct := by
  induction run with
  | none memory => exact before
  | @next memory now past call _ _ ih => exact ih (memory.distinct_turn call before)

end Run

/-! ### The story of one ticket -/

namespace Ticket

variable (delaysAll asks : Bool)

theorem permitted_eq_some_iff (ticket? : Option Ticket) (remaining : Nat) (stage : Stage) :
    permitted delaysAll asks ticket? = some ⟨remaining, stage⟩ ↔
      ticket? = some ⟨remaining, stage⟩ ∧ (asks = true → stage ≠ .idle) ∨
        asks = true ∧ stage = .asked ∧ (ticket? = some ⟨remaining, .idle⟩ ∨
          ticket? = none ∧ delaysAll = true ∧ remaining = onTheFly) := by
  cases asks with
  | false => simp [permitted]
  | true =>
      cases ticket? with
      | none => cases delaysAll <;> simp [permitted, and_comm, eq_comm]
      | some ticket =>
          obtain ⟨before, reached⟩ := ticket
          cases reached <;> simp [permitted, ask?] <;> grind

theorem permitted_permitted (asked : Bool) (ticket? : Option Ticket) :
    permitted delaysAll asked (permitted delaysAll true ticket?) =
      permitted delaysAll true ticket? := by
  cases asked with
  | false => rfl
  | true =>
      cases ticket? with
      | none => cases delaysAll <;> rfl
      | some ticket =>
          obtain ⟨remaining, stage⟩ := ticket
          cases stage <;> rfl

theorem countDown_eq_some_iff (ticket? : Option Ticket) (remaining : Nat) (stage : Stage) :
    ticket?.map countDown = some ⟨remaining, stage⟩ ↔
      ∃ before, ticket? = some ⟨before, stage⟩ ∧
        remaining = if stage = .idle then before else before - 1 := by
  cases ticket? with
  | none => simp
  | some ticket =>
      obtain ⟨before, reached⟩ := ticket
      cases reached <;> simp [countDown, isAsked] <;> grind

theorem permitted_countDown (ticket? : Option Ticket)
    (settled : permitted delaysAll true ticket? = ticket?) :
    permitted delaysAll true (ticket?.map countDown) = ticket?.map countDown := by
  cases ticket? with
  | none => exact settled
  | some ticket =>
      obtain ⟨remaining, stage⟩ := ticket
      cases stage with
      | idle => exact settled
      | asked | filled => rfl

theorem permitted_spent (ticket? : Option Ticket) :
    (∃ stage, permitted delaysAll asks ticket? = some ⟨0, stage⟩) ↔
      ∃ stage, ticket? = some ⟨0, stage⟩ := by
  simp only [permitted_eq_some_iff]
  constructor
  · rintro ⟨stage, ⟨found, _⟩ | ⟨_, _, found | ⟨_, _, zero⟩⟩⟩
    · exact ⟨stage, found⟩
    · exact ⟨.idle, found⟩
    · cases zero
  · rintro ⟨stage, found⟩
    by_cases opened : asks = true ∧ stage = .idle
    · exact ⟨.asked, .inr ⟨opened.1, rfl, .inl (opened.2 ▸ found)⟩⟩
    · exact ⟨stage, .inl ⟨found, fun asked idle => opened ⟨asked, idle⟩⟩⟩

end Ticket

namespace Turn

/-- What follows the first request for `pathname` that allows a delay, that request included. -/
def sinceAsked (pathname : String) (turns : List Turn) : List Turn :=
  turns.dropWhile fun turn => !turn.asks pathname

theorem mem_sinceAsked_append (pathname : String) (past : List Turn) (last turn : Turn)
    (member : turn ∈ sinceAsked pathname (past ++ [last])) :
    turn = last ∨
      turn ∈ sinceAsked pathname past ∧ ∃ asker ∈ past, asker.asks pathname = true := by
  have newest (left : List Turn) (within : left <:+ [last]) (here : turn ∈ left) : turn = last :=
    List.mem_singleton.mp (within.subset here)
  unfold sinceAsked at member
  by_cases quiet : ∀ asker ∈ past, asker.asks pathname = false
  · rw [List.dropWhile_append_of_pos (by simpa using quiet)] at member
    exact .inl (newest _ (List.dropWhile_suffix _) member)
  · have asker : ∃ asker ∈ past, asker.asks pathname = true := by simpa using quiet
    rw [List.dropWhile_append] at member
    split at member
    · exact .inl (newest _ (List.dropWhile_suffix _) member)
    · rcases List.mem_append.mp member with old | new
      · exact .inr ⟨old, asker⟩
      · exact .inl (List.mem_singleton.mp new)

theorem mem_of_sinceAsked (pathname : String) (past : List Turn) (turn : Turn)
    (member : turn ∈ sinceAsked pathname past) : turn ∈ past :=
  (List.dropWhile_suffix _).subset member

theorem sinceAsked_eq_cons (pathname : String) (past : List Turn)
    (asked : ∃ asker ∈ past, asker.asks pathname = true) :
    ∃ asker since, sinceAsked pathname past = asker :: since ∧ asker.asks pathname = true := by
  induction past with
  | nil => simp at asked
  | cons first past ih =>
      cases asks : first.asks pathname with
      | true => exact ⟨first, past, by simp [sinceAsked, asks], asks⟩
      | false =>
          have behind : ∃ asker ∈ past, asker.asks pathname = true := by simpa [asks] using asked
          simpa [sinceAsked, asks] using ih behind

end Turn

/-- What `past` says of the ticket that `pathname` has now. -/
structure Account (pathname : String) (delaysAll : Bool) (past : List Turn)
    (ticket? : Option Ticket) : Prop where
  kept : ∀ turn ∈ past, ∀ payload, turn.delayed? pathname = some payload →
    ∃ remaining, ticket? = some ⟨remaining, .filled (Rotation.rotate payload)⟩
  unkept : ∀ remaining output, ticket? = some ⟨remaining, .filled output⟩ →
    ∃ turn ∈ past, turn.delayed? pathname ≠ none
  asked : ∀ remaining stage, ticket? = some ⟨remaining, stage⟩ → stage ≠ .idle →
    ∃ turn ∈ past, turn.asks pathname = true
  settled : (∃ turn ∈ past, turn.asks pathname = true) →
    Ticket.permitted delaysAll true ticket? = ticket?
  missed : ∀ remaining, ticket? = some ⟨remaining, .asked⟩ →
    ∀ turn ∈ Turn.sinceAsked pathname past,
      turn.sends .smudge pathname = true → turn.turnedAway = true
  waiting : ∀ remaining, ticket? = some ⟨remaining, .idle⟩ → remaining ≠ 0
  spent : pathname ≠ Reserved.missingDelay →
    ((∃ turn ∈ past, pathname ∈ turn.ready) ↔ ∃ stage, ticket? = some ⟨0, stage⟩)

namespace Account

variable {pathname : String} {delaysAll : Bool} {past : List Turn} {turn : Turn}

theorem counted {ticket? : Option Ticket}
    (account : Account pathname delaysAll past ticket?)
    (other : turn.asks pathname = false ∧ turn.sends .smudge pathname = false ∧
      turn.delayed? pathname = none)
    (ready : pathname ∈ turn.ready ↔
      ∃ ticket, ticket? = some ticket ∧ Waitlist.isReady (pathname, ticket) = true) :
    Account pathname delaysAll (past ++ [turn]) (ticket?.map Ticket.countDown) where
  kept := by
    simp only [List.mem_append, List.mem_singleton, Ticket.countDown_eq_some_iff]
    rintro first (old | rfl) payload delayed
    · obtain ⟨remaining, filled⟩ := account.kept first old payload delayed
      exact ⟨remaining - 1, remaining, filled, rfl⟩
    · rw [other.2.2] at delayed
      cases delayed
  unkept := by
    simp only [List.mem_append, List.mem_singleton, Ticket.countDown_eq_some_iff]
    rintro remaining output ⟨before, filled, _⟩
    obtain ⟨first, old, delayed⟩ := account.unkept before output filled
    exact ⟨first, .inl old, delayed⟩
  asked := by
    simp only [List.mem_append, List.mem_singleton, Ticket.countDown_eq_some_iff]
    rintro remaining stage ⟨before, found, _⟩ further
    obtain ⟨asker, old, asks⟩ := account.asked before stage found further
    exact ⟨asker, .inl old, asks⟩
  settled := by
    simp only [List.mem_append, List.mem_singleton]
    rintro ⟨asker, old | rfl, asks⟩
    · exact Ticket.permitted_countDown delaysAll ticket? (account.settled ⟨asker, old, asks⟩)
    · rw [other.1] at asks
      cases asks
  missed := by
    simp only [Ticket.countDown_eq_some_iff]
    rintro remaining ⟨before, found, _⟩ later member smudged
    rcases Turn.mem_sinceAsked_append pathname past turn later member with rfl | ⟨old, _⟩
    · rw [other.2.1] at smudged
      cases smudged
    · exact account.missed before found later old smudged
  waiting := by
    simp only [Ticket.countDown_eq_some_iff]
    rintro remaining ⟨before, idle, same⟩
    rw [same]
    exact account.waiting before idle
  spent := by
    intro present
    have before := account.spent present
    simp only [List.mem_append, List.mem_singleton, or_and_right, exists_or, exists_eq_left,
      before, ready, Ticket.countDown_eq_some_iff, Waitlist.isReady_iff pathname present]
    constructor
    · rintro (⟨stage, found⟩ | ⟨⟨remaining, stage⟩, found, further, one⟩)
      · exact ⟨stage, 0, found, by simp⟩
      · exact ⟨stage, remaining, found, by simp_all⟩
    · rintro ⟨stage, remaining, found, zero⟩
      by_cases idle : stage = .idle
      · exact absurd (by simpa [idle] using zero.symm) (account.waiting remaining (idle ▸ found))
      · rw [if_neg idle] at zero
        have counting : remaining = 0 ∨ remaining = 1 := by omega
        rcases counting with rfl | rfl
        · exact .inl ⟨stage, found⟩
        · exact .inr ⟨⟨1, stage⟩, found, idle, rfl⟩

theorem filled {ticket? : Option Ticket} {remaining : Nat} {payload : Bytes}
    (account : Account pathname delaysAll past ticket?) (quiet : turn.ready = [])
    (delayed : turn.delayed? pathname = some payload)
    (permitted : Ticket.permitted delaysAll (turn.asks pathname) ticket? =
      some ⟨remaining, .asked⟩) :
    Account pathname delaysAll (past ++ [turn])
      (some ⟨remaining, .filled (Rotation.rotate payload)⟩) where
  kept := by
    simp only [List.mem_append, List.mem_singleton]
    rintro first (old | rfl) other before
    · obtain ⟨left, found⟩ := account.kept first old other before
      simp [Ticket.permitted_eq_some_iff, found] at permitted
    · rw [delayed] at before
      cases before
      exact ⟨remaining, rfl⟩
  unkept := fun _ _ _ => ⟨turn, by simp, by simp [delayed]⟩
  asked := by
    intro _ _ _ _
    rcases (Ticket.permitted_eq_some_iff _ _ _ _ _).mp permitted with ⟨found, _⟩ | ⟨asks, _⟩
    · obtain ⟨asker, old, asks⟩ := account.asked remaining .asked found (by simp)
      exact ⟨asker, List.mem_append_left [turn] old, asks⟩
    · exact ⟨turn, by simp, asks⟩
  settled := fun _ => rfl
  missed := by simp
  waiting := by simp
  spent := by
    intro present
    have before := account.spent present
    rw [← Ticket.permitted_spent delaysAll (turn.asks pathname), permitted] at before
    simp [or_and_right, exists_or, before, quiet]

theorem left {ticket? : Option Ticket}
    (account : Account pathname delaysAll past ticket?) (quiet : turn.ready = [])
    (undelayed : turn.delayed? pathname = none)
    (missed : ∀ remaining,
      Ticket.permitted delaysAll (turn.asks pathname) ticket? = some ⟨remaining, .asked⟩ →
        turn.sends .smudge pathname = true → turn.turnedAway = true) :
    Account pathname delaysAll (past ++ [turn])
      (Ticket.permitted delaysAll (turn.asks pathname) ticket?) where
  kept := by
    simp only [List.mem_append, List.mem_singleton]
    rintro first (old | rfl) payload before
    · obtain ⟨remaining, found⟩ := account.kept first old payload before
      exact ⟨remaining, by simp [Ticket.permitted_eq_some_iff, found]⟩
    · rw [undelayed] at before
      cases before
  unkept := by
    intro remaining output found
    simp only [Ticket.permitted_eq_some_iff, reduceCtorEq, false_and, and_false, or_false]
      at found
    obtain ⟨first, old, delayed⟩ := account.unkept remaining output found.1
    exact ⟨first, List.mem_append_left [turn] old, delayed⟩
  asked := by
    intro remaining stage found further
    rcases (Ticket.permitted_eq_some_iff _ _ _ _ _).mp found with ⟨found, _⟩ | ⟨asks, _⟩
    · obtain ⟨asker, old, asks⟩ := account.asked remaining stage found further
      exact ⟨asker, List.mem_append_left [turn] old, asks⟩
    · exact ⟨turn, by simp, asks⟩
  settled := by
    simp only [List.mem_append, List.mem_singleton]
    rintro ⟨asker, member, asks⟩
    cases now : turn.asks pathname with
    | true => exact Ticket.permitted_permitted delaysAll true ticket?
    | false =>
        rcases member with old | rfl
        · exact account.settled ⟨asker, old, asks⟩
        · rw [now] at asks
          cases asks
  missed := by
    intro remaining found later member smudged
    rcases Turn.mem_sinceAsked_append pathname past turn later member with rfl | ⟨old, asker⟩
    · exact missed remaining found smudged
    · -- The ticket was asked for in the past, so this turn has not changed it.
      have same : Ticket.permitted delaysAll (turn.asks pathname) ticket? = ticket? := by
        cases turn.asks pathname with
        | true => exact account.settled asker
        | false => rfl
      rw [same] at found
      exact account.missed remaining found later old smudged
  waiting := by
    intro remaining found
    simp only [Ticket.permitted_eq_some_iff, reduceCtorEq, false_and, and_false, or_false]
      at found
    exact account.waiting remaining found.1
  spent := by
    intro present
    have before := account.spent present
    rw [← Ticket.permitted_spent delaysAll (turn.asks pathname)] at before
    simp [or_and_right, exists_or, before, quiet]

theorem shifted {ticket? after? : Option Ticket}
    (account : Account pathname delaysAll past ticket?)
    (shifts : turn.Shifts pathname delaysAll ticket? after?) (goes : turn.failure? = none) :
    Account pathname delaysAll (past ++ [turn]) after? := by
  cases shifts with
  | counted query other ready => exact account.counted other ready
  | @filled ticket payload file smudged delayed permitted awaited =>
      obtain ⟨remaining, stage⟩ := ticket
      subst awaited
      exact account.filled file.2 delayed permitted
  | left file undelayed missed =>
      exact account.left file.2 undelayed fun remaining found smudged =>
        missed _ found rfl smudged goes

theorem fresh (pathname : String) (capabilities : List Capability) (delaysAll : Bool) :
    Account pathname delaysAll []
      ((Memory.fresh capabilities delaysAll).waitlist.find? pathname) := by
  have idle := Waitlist.find?_seeded pathname
  constructor
  case kept => simp
  case unkept =>
    intro remaining output found
    cases (idle remaining _ found).1
  case asked =>
    intro remaining stage found further
    exact absurd (idle remaining stage found).1 further
  case settled => simp
  case missed => simp [Turn.sinceAsked]
  case waiting =>
    intro remaining found
    exact (idle remaining _ found).2
  case spent =>
    intro _
    constructor
    · simp
    · rintro ⟨stage, found⟩
      exact absurd rfl (idle 0 stage found).2

theorem run {start now : Memory} {later : List Turn} (run : Run start later now)
    (distinct : start.Distinct)
    (account : Account pathname start.delaysAll past (start.waitlist.find? pathname)) :
    Account pathname start.delaysAll (past ++ later) (now.waitlist.find? pathname) := by
  induction run generalizing past with
  | none memory => rwa [List.append_nil]
  | @next memory now later call goes _ ih =>
      have step := account.shifted (memory.turn_shifts call distinct pathname) goes
      have same : (memory.turn call).memory.delaysAll = memory.delaysAll := by
        obtain ⟨_, _, kept, _⟩ := memory.turn_keeps call
        rw [kept]
      have whole := ih (memory.distinct_turn call distinct) (same.symm ▸ step)
      rwa [same, List.append_assoc] at whole

end Account

theorem Run.account {capabilities : List Capability} {delaysAll : Bool} {now : Memory}
    {past : List Turn} (run : Run (Memory.fresh capabilities delaysAll) past now)
    (pathname : String) : Account pathname delaysAll past (now.waitlist.find? pathname) :=
  Account.run run Memory.distinct_fresh (Account.fresh pathname capabilities delaysAll)

/-! ### A filled ticket -/

namespace Turn

theorem shifts_delayed {pathname : String} {delaysAll : Bool} {turn : Turn} {payload : Bytes}
    {ticket? after? : Option Ticket} (shifts : turn.Shifts pathname delaysAll ticket? after?)
    (delayed : turn.delayed? pathname = some payload) :
    ∃ remaining,
      Ticket.permitted delaysAll (turn.asks pathname) ticket? = some ⟨remaining, .asked⟩ ∧
        after? = some ⟨remaining, .filled (Rotation.rotate payload)⟩ := by
  cases shifts with
  | counted query other =>
      rw [other.2.2] at delayed
      cases delayed
  | @filled ticket stored file smudged found permitted awaited =>
      obtain ⟨remaining, stage⟩ := ticket
      subst awaited
      rw [found] at delayed
      cases delayed
      exact ⟨remaining, permitted, rfl⟩
  | left file undelayed =>
      rw [undelayed] at delayed
      cases delayed

theorem shifts_filled {pathname : String} {delaysAll : Bool} {turn : Turn}
    {remaining : Nat} {output : Bytes} {after? : Option Ticket}
    (shifts : turn.Shifts pathname delaysAll (some ⟨remaining, .filled output⟩) after?) :
    after? = some ⟨remaining - [turn].countP isQuery, .filled output⟩ := by
  cases shifts with
  | counted query => simp [query, Ticket.countDown, Ticket.isAsked]
  | @filled ticket _ file smudged delayed permitted awaited =>
      obtain ⟨left, stage⟩ := ticket
      subst awaited
      simp [Ticket.permitted_eq_some_iff] at permitted
  | left file => simp [Ticket.permitted_eq_some_iff, file.1]

end Turn

namespace Run

-- Nothing but list queries touches it, so the countdown can be read off the turns.
theorem find?_filled {start now : Memory} {past : List Turn} (run : Run start past now)
    (distinct : start.Distinct) (pathname : String) (remaining : Nat) (output : Bytes)
    (filled : start.waitlist.find? pathname = some ⟨remaining, .filled output⟩) :
    now.waitlist.find? pathname = some ⟨remaining - past.countP Turn.isQuery, .filled output⟩ := by
  induction run generalizing remaining with
  | none memory => simpa using filled
  | @next memory now past call _ _ ih =>
      have shifts := memory.turn_shifts call distinct pathname
      rw [filled] at shifts
      have left := ih (memory.distinct_turn call distinct) _ (Turn.shifts_filled shifts)
      rw [left, Nat.sub_sub, ← List.countP_append, List.singleton_append]

end Run

/-! ### Turned away for good -/

namespace Memory

/-- Every request with `command` for `pathname` is answered with an error or an abort. -/
def Bars (memory : Memory) (command : Command) (pathname : String) : Prop :=
  memory.rule? command pathname = some .refuse ∨ memory.rule? command pathname = some .abort

theorem bars_iff (memory : Memory) (command : Command) (pathname : String) :
    memory.Bars command pathname ↔ memory.aborted command = true ∨
      Reserved.fileRule? command pathname = some .refuse ∨
        Reserved.fileRule? command pathname = some .abort := by
  unfold Bars rule?
  cases memory.aborted command <;> simp

theorem bars_turn (memory : Memory) (call : Call) (command : Command) (pathname : String)
    (bars : memory.Bars command pathname) : (memory.turn call).memory.Bars command pathname := by
  obtain ⟨waitlist, aborted, same, more⟩ := memory.turn_keeps call
  rw [bars_iff] at bars ⊢
  rw [same]
  exact bars.imp_left (more command)

theorem bars_of_turnedAway (memory : Memory) (call : Call) (command : Command) (pathname : String)
    (sent : (memory.turn call).sends command pathname = true)
    (away : (memory.turn call).turnedAway = true) :
    (memory.turn call).memory.Bars command pathname := by
  cases call with
  | list => cases sent
  | file asked =>
      simp only [turn, Turn.sends, Bool.and_eq_true, decide_eq_true_eq] at sent
      obtain ⟨rfl, rfl⟩ := sent
      have decided := (memory.allowing asked).replyTo_decides asked.request
      simp only [turn] at away ⊢
      generalize (memory.allowing asked).replyTo asked.request = reply at decided away
      cases decided with
      | aborted => exact .inr (by simp [settle, abort, rule?])
      | refused rule => exact .inl rule
      | unsupported | delayed | content | brokenOff => cases away

theorem not_bars_of_delayed (memory : Memory) (call : Call) (pathname : String) (payload : Bytes)
    (delayed : (memory.turn call).delayed? pathname = some payload) :
    ¬memory.Bars .smudge pathname := by
  cases call with
  | list => cases delayed
  | file asked =>
      have decided := (memory.allowing asked).replyTo_decides asked.request
      simp only [turn] at delayed
      generalize (memory.allowing asked).replyTo asked.request = reply at decided delayed
      cases decided with
      | delayed smudged awaited unforced =>
          obtain ⟨waitlist, allowed⟩ := memory.allowing_waitlist asked
          simp only [Turn.delayed?, Option.ite_none_right_eq_some] at delayed
          simp only [FileCall.request_command, FileCall.request_pathname, delayed.1, allowed]
            at smudged unforced
          rw [smudged] at unforced
          exact fun bars => bars.elim unforced.1 unforced.2
      | aborted | refused | unsupported | content | brokenOff => cases delayed

end Memory

theorem Run.bars {start now : Memory} {past : List Turn} (run : Run start past now)
    (command : Command) (pathname : String) (turn : Turn) (member : turn ∈ past)
    (sent : turn.sends command pathname = true) (away : turn.turnedAway = true) :
    now.Bars command pathname := by
  have keeps {start now : Memory} {past : List Turn} (run : Run start past now)
      (bars : start.Bars command pathname) : now.Bars command pathname := by
    induction run with
    | none memory => exact bars
    | @next memory now past call _ _ ih => exact ih (memory.bars_turn call command pathname bars)
  induction run with
  | none memory => cases member
  | @next memory now past call _ later ih =>
      rcases List.mem_cons.mp member with rfl | behind
      · exact keeps later (memory.bars_of_turnedAway call command pathname sent away)
      · exact ih behind

end ContentFilter
