import ContentFilter.Proofs.Tickets

/-!
A waitlist in anyone's hands. Its five operations may come in any order and for any pathname, and
may fail. One use changes at most one ticket, or it counts them all down: `Shifts` has a case for
each thing that one pathname can see, and `use_shifts` says that there are no others. Everything
about sequences of uses is an induction with these cases.
-/

namespace ContentFilter

theorem Stage.output?_eq_some_iff (stage : Stage) (output : Bytes) :
    stage.output? = some output ↔ stage = .filled output := by
  cases stage <;> simp [output?]

theorem Stage.rank_eq_two_iff (stage : Stage) :
    stage.rank = 2 ↔ ∃ output, stage = .filled output := by
  cases stage <;> simp [rank]

/-- How a ticket can be found later on. -/
structure Ticket.Onward (before after : Ticket) : Prop where
  rank : before.stage.rank ≤ after.stage.rank
  filled : ∀ output, before.stage = .filled output → after.stage = .filled output
  unasked : after.stage = .idle → after = before

theorem Ticket.onward_refl (ticket : Ticket) : ticket.Onward ticket :=
  ⟨Nat.le_refl _, fun _ stage => stage, fun _ => rfl⟩

theorem Ticket.Onward.trans {first second third : Ticket} (here : first.Onward second)
    (later : second.Onward third) : first.Onward third where
  rank := Nat.le_trans here.rank later.rank
  filled output stage := later.filled output (here.filled output stage)
  unasked idle := by
    have same := later.unasked idle
    rw [same] at idle ⊢
    exact here.unasked idle

namespace Waitlist

/-- One call on a waitlist. -/
inductive Use where
  | addIdle (pathname : String) (count : Nat)
  | addAsked (pathname : String) (count : Nat)
  | ask (pathname : String)
  | fill (pathname : String) (output : Bytes)
  | poll
  deriving DecidableEq, Repr

def Use.pathname? : Use → Option String
  | .addIdle pathname _ | .addAsked pathname _ | .ask pathname | .fill pathname _ => some pathname
  | .poll => none

theorem Use.unpolled (use : Use) (name : String) (about : use.pathname? = some name) :
    use ≠ .poll := by
  rintro rfl
  cases about

inductive Outcome where
  | added
  | duplicate (what : Duplicate)
  /-- There is no ticket to change. -/
  | missing
  | changed (done : Bool)
  | polled (answer : Announcement)
  deriving DecidableEq, Repr

def Outcome.succeeds : Outcome → Bool
  | .added => true
  | .changed done => done
  | .duplicate _ | .missing | .polled _ => false

/-- What a use reports and what it leaves behind. -/
structure Used where
  outcome : Outcome
  after : Waitlist
  deriving DecidableEq, Repr

def entering (waitlist : Waitlist) : Except Duplicate Waitlist → Used
  | .ok after => ⟨.added, after⟩
  | .error what => ⟨.duplicate what, waitlist⟩

def changing (waitlist : Waitlist) (pathname : String) (result : Option Waitlist) : Used :=
  match waitlist.find? pathname with
  | none => ⟨.missing, waitlist⟩
  | some _ => ⟨.changed result.isSome, result.getD waitlist⟩

def use (waitlist : Waitlist) : Use → Used
  | .addIdle pathname count => waitlist.entering (waitlist.addIdle pathname count)
  | .addAsked pathname count => waitlist.entering (waitlist.addAsked pathname count)
  | .ask pathname => waitlist.changing pathname (waitlist.ask? pathname)
  | .fill pathname output => waitlist.changing pathname (waitlist.fill? pathname output)
  | .poll => ⟨.polled waitlist.announcement, waitlist.countDown⟩

def used (waitlist : Waitlist) : List Use → Waitlist
  | [] => waitlist
  | use :: rest => used (waitlist.use use).after rest

theorem used_append (waitlist : Waitlist) (earlier later : List Use) :
    waitlist.used (earlier ++ later) = (waitlist.used earlier).used later := by
  induction earlier generalizing waitlist with
  | nil => rfl
  | cons use rest ih => exact ih _

/-! ### One use -/

variable (waitlist : Waitlist) (pathname : String)

theorem entering_add (ticket : Ticket) :
    (pathname ∉ waitlist.pathnames ∧ waitlist.entering (waitlist.add pathname ticket) =
        ⟨.added, ⟨waitlist.entries ++ [(pathname, ticket)]⟩⟩) ∨
      (pathname ∈ waitlist.pathnames ∧ waitlist.entering (waitlist.add pathname ticket) =
        ⟨.duplicate ⟨pathname⟩, waitlist⟩) := by
  by_cases known : pathname ∈ waitlist.pathnames
  · right
    refine ⟨known, ?_⟩
    cases found : waitlist.find? pathname with
    | none => exact absurd known ((waitlist.find?_eq_none_iff pathname).mp found)
    | some old => simp only [add, found, entering]
  · left
    have absent := (waitlist.find?_eq_none_iff pathname).mpr known
    exact ⟨known, by simp only [add, absent, entering]⟩

theorem changing_outcome (change : Ticket → Option Ticket) :
    (waitlist.changing pathname
        (((waitlist.find? pathname).bind change).map (waitlist.put pathname))).outcome =
      match waitlist.find? pathname with
      | none => .missing
      | some ticket => .changed (change ticket).isSome := by
  unfold changing
  cases waitlist.find? pathname with
  | none => rfl
  | some ticket => simp

theorem changing_after (change : Ticket → Option Ticket) :
    (waitlist.changing pathname
        (((waitlist.find? pathname).bind change).map (waitlist.put pathname))).after =
      (((waitlist.find? pathname).bind change).map (waitlist.put pathname)).getD waitlist := by
  unfold changing
  cases waitlist.find? pathname with
  | none => rfl
  | some ticket => rfl

/-- What one use does to the ticket of `pathname`. A use that leaves it alone has failed, or it was
for another pathname. -/
inductive Shifts (pathname : String) (use : Use) (outcome : Outcome) :
    Option Ticket → Option Ticket → Prop
  | kept (ticket? : Option Ticket) (unpolled : use ≠ .poll)
      (fails : use.pathname? = some pathname → outcome.succeeds = false) :
      Shifts pathname use outcome ticket? ticket?
  | addedIdle (count : Nat) (enters : use = .addIdle pathname count) (done : outcome = .added) :
      Shifts pathname use outcome none (some ⟨count, .idle⟩)
  | addedAsked (count : Nat) (enters : use = .addAsked pathname count) (done : outcome = .added) :
      Shifts pathname use outcome none (some ⟨count, .asked⟩)
  | asked (remaining : Nat) (asks : use = .ask pathname) (done : outcome = .changed true) :
      Shifts pathname use outcome (some ⟨remaining, .idle⟩) (some ⟨remaining, .asked⟩)
  | filled (remaining : Nat) (output : Bytes) (fills : use = .fill pathname output)
      (done : outcome = .changed true) :
      Shifts pathname use outcome (some ⟨remaining, .asked⟩) (some ⟨remaining, .filled output⟩)
  | counted (ticket : Ticket) (polls : use = .poll) :
      Shifts pathname use outcome (some ticket) (some ticket.countDown)
  | uncounted (polls : use = .poll) : Shifts pathname use outcome none none

theorem shifts_other (use : Use) (outcome : Outcome) (name : String) (ticket? : Option Ticket)
    (about : use.pathname? = some name) (apart : pathname ≠ name) :
    Shifts pathname use outcome ticket? ticket? := by
  refine .kept ticket? (use.unpolled name about) fun same => ?_
  rw [about, Option.some.injEq] at same
  exact absurd same.symm apart

theorem entering_shifts (use : Use) (name : String) (ticket : Ticket)
    (about : use.pathname? = some name)
    (enters : Shifts name use .added none (some ticket)) :
    Shifts pathname use (waitlist.entering (waitlist.add name ticket)).outcome
      (waitlist.find? pathname)
      ((waitlist.entering (waitlist.add name ticket)).after.find? pathname) := by
  rcases waitlist.entering_add name ticket with ⟨absent, entered⟩ | ⟨_, refused⟩
  · have added := (waitlist.add_eq_ok_iff ⟨waitlist.entries ++ [(name, ticket)]⟩ name ticket).mpr
      ⟨absent, rfl⟩
    rw [entered, waitlist.find?_add _ name pathname ticket added]
    by_cases same : pathname = name
    · subst same
      rw [if_pos rfl, (waitlist.find?_eq_none_iff pathname).mpr absent]
      exact enters
    · rw [if_neg same]
      exact shifts_other pathname use _ name _ about same
  · rw [refused]
    exact .kept _ (use.unpolled name about) fun _ => rfl

theorem changing_shifts (use : Use) (name : String) (change : Ticket → Option Ticket)
    (about : use.pathname? = some name)
    (moves : ∀ before after, change before = some after →
      Shifts name use (.changed true) (some before) (some after)) :
    let result := ((waitlist.find? name).bind change).map (waitlist.put name)
    Shifts pathname use (waitlist.changing name result).outcome (waitlist.find? pathname)
      ((waitlist.changing name result).after.find? pathname) := by
  intro result
  have unpolled := use.unpolled name about
  rw [changing_outcome, changing_after, find?_change]
  by_cases same : pathname = name
  · subst same
    rw [if_pos rfl]
    cases waitlist.find? pathname with
    | none => exact .kept none unpolled fun _ => rfl
    | some before =>
        cases changed : change before with
        | none => simpa [changed] using .kept (some before) unpolled fun _ => rfl
        | some after => simpa [changed] using moves before after changed
  · rw [if_neg same]
    exact shifts_other pathname use _ name _ about same

theorem use_shifts (use : Use) :
    Shifts pathname use (waitlist.use use).outcome (waitlist.find? pathname)
      ((waitlist.use use).after.find? pathname) := by
  cases use with
  | addIdle name count =>
      exact waitlist.entering_shifts pathname _ name _ rfl (.addedIdle count rfl rfl)
  | addAsked name count =>
      exact waitlist.entering_shifts pathname _ name _ rfl (.addedAsked count rfl rfl)
  | ask name =>
      refine waitlist.changing_shifts pathname _ name Ticket.ask? rfl fun before after step => ?_
      obtain ⟨remaining, rfl, rfl⟩ := (before.ask?_eq_some_iff after).mp step
      exact .asked remaining rfl rfl
  | fill name output =>
      refine waitlist.changing_shifts pathname _ name (Ticket.fill? output) rfl
        fun before after step => ?_
      obtain ⟨remaining, rfl, rfl⟩ := (before.fill?_eq_some_iff output after).mp step
      exact .filled remaining output rfl rfl
  | poll =>
      simp only [use, waitlist.find?_countDown pathname]
      cases waitlist.find? pathname with
      | none => exact .uncounted rfl
      | some ticket => exact .counted ticket rfl

/-! ### When a use succeeds -/

theorem changing_done_iff (change : Ticket → Option Ticket) :
    (waitlist.changing pathname
        (((waitlist.find? pathname).bind change).map (waitlist.put pathname))).outcome =
          .changed true ↔
      ∃ before after, waitlist.find? pathname = some before ∧ change before = some after := by
  rw [changing_outcome]
  cases waitlist.find? pathname with
  | none => simp
  | some ticket => simp [Option.isSome_iff_exists]

theorem find?_changing_done (change : Ticket → Option Ticket) (before after : Ticket)
    (found : waitlist.find? pathname = some before) (changed : change before = some after) :
    (waitlist.changing pathname (((waitlist.find? pathname).bind change).map
      (waitlist.put pathname))).after.find? pathname = some after := by
  rw [changing_after, find?_change, if_pos rfl, found, Option.map_some, changed, Option.getD_some]

theorem ask_done_iff :
    (waitlist.use (.ask pathname)).outcome = .changed true ↔
      ∃ remaining, waitlist.find? pathname = some ⟨remaining, .idle⟩ := by
  refine (waitlist.changing_done_iff pathname Ticket.ask?).trans ?_
  simp only [Ticket.ask?_eq_some_iff]
  constructor
  · rintro ⟨_, _, found, remaining, rfl, rfl⟩
    exact ⟨remaining, found⟩
  · rintro ⟨remaining, found⟩
    exact ⟨_, _, found, remaining, rfl, rfl⟩

theorem fill_done_iff (output : Bytes) :
    (waitlist.use (.fill pathname output)).outcome = .changed true ↔
      ∃ remaining, waitlist.find? pathname = some ⟨remaining, .asked⟩ := by
  refine (waitlist.changing_done_iff pathname (Ticket.fill? output)).trans ?_
  simp only [Ticket.fill?_eq_some_iff]
  constructor
  · rintro ⟨_, _, found, remaining, rfl, rfl⟩
    exact ⟨remaining, found⟩
  · rintro ⟨remaining, found⟩
    exact ⟨_, _, found, remaining, rfl, rfl⟩

theorem find?_ask_done (remaining : Nat)
    (found : waitlist.find? pathname = some ⟨remaining, .idle⟩) :
    (waitlist.use (.ask pathname)).after.find? pathname = some ⟨remaining, .asked⟩ :=
  waitlist.find?_changing_done pathname Ticket.ask? _ _ found rfl

theorem find?_fill_done (output : Bytes) (remaining : Nat)
    (found : waitlist.find? pathname = some ⟨remaining, .asked⟩) :
    (waitlist.use (.fill pathname output)).after.find? pathname =
      some ⟨remaining, .filled output⟩ :=
  waitlist.find?_changing_done pathname (Ticket.fill? output) _ _ found rfl

theorem entering_done_iff (ticket : Ticket) :
    ((waitlist.entering (waitlist.add pathname ticket)).outcome = .added ↔
        pathname ∉ waitlist.pathnames) ∧
      (pathname ∈ waitlist.pathnames →
        waitlist.entering (waitlist.add pathname ticket) =
          ⟨.duplicate ⟨pathname⟩, waitlist⟩) := by
  rcases waitlist.entering_add pathname ticket with ⟨absent, entered⟩ | ⟨known, refused⟩
  · rw [entered]
    exact ⟨by simp [absent], fun known => absurd known absent⟩
  · rw [refused]
    exact ⟨by simp [known], fun _ => rfl⟩

theorem find?_entering (ticket : Ticket)
    (done : (waitlist.entering (waitlist.add pathname ticket)).outcome = .added)
    (other : String) :
    (waitlist.entering (waitlist.add pathname ticket)).after.find? other =
      if other = pathname then some ticket else waitlist.find? other := by
  rcases waitlist.entering_add pathname ticket with ⟨absent, entered⟩ | ⟨_, refused⟩
  · have added := (waitlist.add_eq_ok_iff ⟨waitlist.entries ++ [(pathname, ticket)]⟩ pathname
      ticket).mpr ⟨absent, rfl⟩
    rw [entered, waitlist.find?_add _ pathname other ticket added]
  · rw [refused] at done
    cases done

theorem find?_entering_done (ticket : Ticket)
    (done : (waitlist.entering (waitlist.add pathname ticket)).outcome = .added) :
    waitlist.find? pathname = none ∧
      (waitlist.entering (waitlist.add pathname ticket)).after.find? pathname = some ticket := by
  have absent := (waitlist.entering_done_iff pathname ticket).1.mp done
  exact ⟨(waitlist.find?_eq_none_iff pathname).mpr absent,
    (waitlist.find?_entering pathname ticket done pathname).trans (if_pos rfl)⟩

theorem changing_fails (change : Ticket → Option Ticket)
    (fails : (waitlist.changing pathname
      (((waitlist.find? pathname).bind change).map (waitlist.put pathname))).outcome =
        .changed false) :
    (waitlist.changing pathname
      (((waitlist.find? pathname).bind change).map (waitlist.put pathname))).after = waitlist := by
  rw [changing_outcome] at fails
  rw [changing_after]
  cases found : waitlist.find? pathname with
  | none => rfl
  | some ticket =>
      rw [found] at fails
      cases changed : change ticket with
      | none => simp [changed]
      | some after => simp [changed] at fails

/-- What the uses report of `waitlist` as it is, and what those that succeed leave. -/
structure Answers (waitlist : Waitlist) : Prop where
  adds : ∀ pathname count use, use = .addIdle pathname count ∨ use = .addAsked pathname count →
    ((waitlist.use use).outcome = .added ↔ pathname ∉ waitlist.pathnames) ∧
      (pathname ∈ waitlist.pathnames → waitlist.use use = ⟨.duplicate ⟨pathname⟩, waitlist⟩)
  added : ∀ pathname count use stage,
    (use = .addIdle pathname count ∧ stage = .idle) ∨
      (use = .addAsked pathname count ∧ stage = .asked) →
    (waitlist.use use).outcome = .added →
      ∀ other, (waitlist.use use).after.find? other =
        if other = pathname then some ⟨count, stage⟩ else waitlist.find? other
  asks : ∀ pathname, (waitlist.use (.ask pathname)).outcome = .changed true ↔
    ∃ remaining, waitlist.find? pathname = some ⟨remaining, .idle⟩
  asked : ∀ pathname remaining, waitlist.find? pathname = some ⟨remaining, .idle⟩ →
    (waitlist.use (.ask pathname)).after.find? pathname = some ⟨remaining, .asked⟩
  fills : ∀ pathname output, (waitlist.use (.fill pathname output)).outcome = .changed true ↔
    ∃ remaining, waitlist.find? pathname = some ⟨remaining, .asked⟩
  filled : ∀ pathname output remaining, waitlist.find? pathname = some ⟨remaining, .asked⟩ →
    (waitlist.use (.fill pathname output)).after.find? pathname =
      some ⟨remaining, .filled output⟩
  refuses : ∀ use, (waitlist.use use).outcome = .changed false → (waitlist.use use).after = waitlist

theorem answers : waitlist.Answers := by
  constructor
  · rintro pathname count use (rfl | rfl)
    · exact waitlist.entering_done_iff pathname ⟨count, .idle⟩
    · exact waitlist.entering_done_iff pathname ⟨count, .asked⟩
  · rintro pathname count use stage (⟨rfl, rfl⟩ | ⟨rfl, rfl⟩) done other
    · exact waitlist.find?_entering pathname ⟨count, .idle⟩ done other
    · exact waitlist.find?_entering pathname ⟨count, .asked⟩ done other
  · exact waitlist.ask_done_iff
  · exact waitlist.find?_ask_done
  · exact waitlist.fill_done_iff
  · exact waitlist.find?_fill_done
  · intro use fails
    cases use with
    | addIdle pathname count | addAsked pathname count =>
        rcases waitlist.entering_add pathname ⟨count, _⟩ with ⟨_, entered⟩ | ⟨_, refused⟩
        · exact absurd (congrArg Used.outcome entered ▸ fails) (by simp)
        · exact congrArg Used.after refused
    | ask pathname => exact waitlist.changing_fails pathname Ticket.ask? fails
    | fill pathname output => exact waitlist.changing_fails pathname (Ticket.fill? output) fails
    | poll => cases fails

theorem pathnames_entering (ticket : Ticket) (distinct : waitlist.pathnames.Nodup) :
    waitlist.pathnames <+:
        (waitlist.entering (waitlist.add pathname ticket)).after.pathnames ∧
      (waitlist.entering (waitlist.add pathname ticket)).after.pathnames.Nodup := by
  rcases waitlist.entering_add pathname ticket with ⟨absent, entered⟩ | ⟨_, refused⟩
  · have more : (waitlist.entering (waitlist.add pathname ticket)).after.pathnames =
        waitlist.pathnames ++ [pathname] := by
      rw [entered]
      simp [pathnames]
    rw [more]
    refine ⟨List.prefix_append _ _, List.nodup_append.mpr ⟨distinct, by simp, ?_⟩⟩
    rintro known member entered new rfl
    exact absent (List.mem_singleton.mp new ▸ member)
  · rw [refused]
    exact ⟨List.prefix_rfl, distinct⟩

theorem pathnames_changing (change : Ticket → Option Ticket) :
    (waitlist.changing pathname
      (((waitlist.find? pathname).bind change).map (waitlist.put pathname))).after.pathnames =
        waitlist.pathnames := by
  rw [changing_after]
  cases (waitlist.find? pathname).bind change with
  | none => rfl
  | some after => exact waitlist.pathnames_put pathname after

theorem pathnames_use (distinct : waitlist.pathnames.Nodup) (use : Use) :
    waitlist.pathnames <+: (waitlist.use use).after.pathnames ∧
      (waitlist.use use).after.pathnames.Nodup := by
  cases use with
  | addIdle name count | addAsked name count =>
      exact waitlist.pathnames_entering name ⟨count, _⟩ distinct
  | ask name =>
      have same := waitlist.pathnames_changing name Ticket.ask?
      exact ⟨by simp only [use, ask?, same, List.prefix_rfl], same.symm ▸ distinct⟩
  | fill name output =>
      have same := waitlist.pathnames_changing name (Ticket.fill? output)
      exact ⟨by simp only [use, fill?, same, List.prefix_rfl], same.symm ▸ distinct⟩
  | poll =>
      have same := waitlist.pathnames_countDown
      exact ⟨by simp only [use, same, List.prefix_rfl], same.symm ▸ distinct⟩

/-! ### Any number of uses -/

theorem pathnames_used (distinct : waitlist.pathnames.Nodup) (uses : List Use) :
    waitlist.pathnames <+: (waitlist.used uses).pathnames ∧
      (waitlist.used uses).pathnames.Nodup := by
  induction uses generalizing waitlist with
  | nil => exact ⟨List.prefix_rfl, distinct⟩
  | cons use rest ih =>
      have ⟨here, kept⟩ := waitlist.pathnames_use distinct use
      have ⟨later, stays⟩ := ih (waitlist.use use).after kept
      exact ⟨here.trans later, stays⟩

theorem shifts_onward {use : Use} {outcome : Outcome} {ticket : Ticket} {after? : Option Ticket}
    (shift : Shifts pathname use outcome (some ticket) after?) :
    ∃ after, after? = some after ∧ ticket.Onward after := by
  cases shift with
  | kept => exact ⟨ticket, rfl, ticket.onward_refl⟩
  | asked | filled => exact ⟨_, rfl, by simp [Stage.rank], by simp, by simp⟩
  | counted =>
      have stage := ticket.countDown_stage
      refine ⟨_, rfl, Nat.le_of_eq (congrArg Stage.rank stage.symm), fun _ => stage.trans,
        fun idle => ?_⟩
      rw [stage] at idle
      simp only [Ticket.countDown, Ticket.isAsked, idle]
      rfl

theorem used_onward (ticket : Ticket) (found : waitlist.find? pathname = some ticket)
    (uses : List Use) :
    ∃ after, (waitlist.used uses).find? pathname = some after ∧ ticket.Onward after := by
  induction uses generalizing waitlist ticket with
  | nil => exact ⟨ticket, found, ticket.onward_refl⟩
  | cons use rest ih =>
      have shift := waitlist.use_shifts pathname use
      rw [found] at shift
      obtain ⟨after, moved, here⟩ := shifts_onward pathname shift
      obtain ⟨last, reached, later⟩ := ih (waitlist.use use).after after moved
      exact ⟨last, reached, here.trans later⟩

theorem used_rank (before after : Ticket) (found : waitlist.find? pathname = some before)
    (uses : List Use) (reached : (waitlist.used uses).find? pathname = some after) :
    before.stage.rank ≤ after.stage.rank := by
  obtain ⟨last, same, onward⟩ := waitlist.used_onward pathname before found uses
  cases same.symm.trans reached
  exact onward.rank

/-- What holds in the end and did not hold at the beginning, one of the uses has brought about. -/
theorem turning_point (holds : Waitlist → Prop) (before : ¬ holds waitlist) (uses : List Use)
    (after : holds (waitlist.used uses)) :
    ∃ earlier use later, uses = earlier ++ use :: later ∧ ¬ holds (waitlist.used earlier) ∧
      holds ((waitlist.used earlier).use use).after := by
  induction uses generalizing waitlist with
  | nil => exact absurd after before
  | cons use rest ih =>
      by_cases now : holds (waitlist.use use).after
      · exact ⟨[], use, rest, rfl, before, now⟩
      · obtain ⟨earlier, turning, later, split, still, turned⟩ :=
          ih (waitlist.use use).after now after
        exact ⟨use :: earlier, turning, later, by rw [split, List.cons_append], still, turned⟩

/-- One of the uses has filled the ticket of `pathname` with `output`. -/
def Filled (start : Waitlist) (uses : List Use) (pathname : String) (output : Bytes) : Prop :=
  ∃ earlier later, uses = earlier ++ .fill pathname output :: later ∧
    ((start.used earlier).use (.fill pathname output)).outcome = .changed true

theorem filled_iff (idle : ∀ ticket, waitlist.find? pathname = some ticket → ticket.stage = .idle)
    (uses : List Use) (output : Bytes) :
    (∃ ticket, (waitlist.used uses).find? pathname = some ticket ∧
        ticket.stage = .filled output) ↔ waitlist.Filled uses pathname output := by
  constructor
  · intro keeps
    have unfilled : ¬ ∃ ticket, waitlist.find? pathname = some ticket ∧
        ticket.stage = .filled output := by
      rintro ⟨ticket, found, stage⟩
      rw [idle ticket found] at stage
      cases stage
    obtain ⟨earlier, use, later, split, before, ticket, found, stage⟩ :=
      waitlist.turning_point
        (fun now => ∃ ticket, now.find? pathname = some ticket ∧ ticket.stage = .filled output)
        unfilled uses keeps
    have shift := (waitlist.used earlier).use_shifts pathname use
    rw [found] at shift
    generalize held : (waitlist.used earlier).find? pathname = ticket? at shift
    cases shift with
    | kept => exact absurd ⟨ticket, held, stage⟩ before
    | addedIdle | addedAsked | asked => cases stage
    | filled _ _ fills done =>
        cases stage
        exact ⟨earlier, later, fills ▸ split, fills ▸ done⟩
    | counted still =>
        rw [still.countDown_stage] at stage
        exact absurd ⟨still, held, stage⟩ before
  · rintro ⟨earlier, later, split, done⟩
    obtain ⟨remaining, found⟩ := ((waitlist.used earlier).fill_done_iff pathname output).mp done
    have filled := (waitlist.used earlier).find?_fill_done pathname output remaining found
    obtain ⟨after, reached, onward⟩ := used_onward _ pathname _ filled later
    refine ⟨after, ?_, onward.filled output rfl⟩
    rw [split, used_append]
    exact reached

theorem idle_empty (ticket : Ticket) (found : empty.find? pathname = some ticket) :
    ticket.stage = .idle := by
  cases found

theorem idle_seeded (ticket : Ticket) (found : seeded.find? pathname = some ticket) :
    ticket.stage = .idle := by
  obtain ⟨remaining, stage⟩ := ticket
  exact (find?_seeded pathname remaining stage found).1

/-- Where every waitlist starts: nothing is entered twice and nothing has been asked for. -/
theorem start_idle (start : Waitlist) (starts : start = empty ∨ start = seeded) :
    start.pathnames.Nodup ∧
      ∀ ticket, start.find? pathname = some ticket → ticket.stage = .idle := by
  rcases starts with rfl | rfl
  · exact ⟨List.nodup_nil, idle_empty pathname⟩
  · exact ⟨by decide, idle_seeded pathname⟩

/-- All that `earlier` uses of a waitlist settle, whatever `later` ones follow. -/
structure Settles (start : Waitlist) (earlier later : List Use) : Prop where
  distinct : (start.used earlier).pathnames.Nodup
  answers : (start.used earlier).Answers
  stays : (start.used earlier).pathnames <+: (start.used (earlier ++ later)).pathnames
  forward : ∀ pathname ticket, (start.used earlier).find? pathname = some ticket →
    ∃ after, (start.used (earlier ++ later)).find? pathname = some after ∧
      ticket.stage.rank ≤ after.stage.rank
  askedOnce : ∀ pathname, ((start.used earlier).use (.ask pathname)).outcome = .changed true →
    ((start.used (earlier ++ .ask pathname :: later)).use (.ask pathname)).outcome ≠ .changed true
  filledOnce : ∀ pathname first second,
    ((start.used earlier).use (.fill pathname first)).outcome = .changed true →
      ((start.used (earlier ++ .fill pathname first :: later)).use
        (.fill pathname second)).outcome ≠ .changed true
  output : ∀ pathname output, (∃ ticket, (start.used earlier).find? pathname = some ticket ∧
    ticket.stage.output? = some output) ↔ start.Filled earlier pathname output
  cached : ∀ pathname ticket, (start.used earlier).find? pathname = some ticket →
    (ticket.stage.rank = 2 ↔ ∃ output, start.Filled earlier pathname output)

/-- Uses in any order keep the pathnames apart and their tickets going forward: each is asked for
and filled at most once, and its output is the one that it was filled with. -/
theorem uses_settle (start : Waitlist) (starts : start = empty ∨ start = seeded)
    (earlier later : List Use) : start.Settles earlier later := by
  have ⟨distinct, _⟩ := start_idle "" start starts
  have idle (pathname : String) := (start_idle pathname start starts).2
  have ⟨_, kept⟩ := start.pathnames_used distinct earlier
  constructor
  · exact kept
  · exact (start.used earlier).answers
  · rw [used_append]
    exact ((start.used earlier).pathnames_used kept later).1
  · intro pathname ticket found
    obtain ⟨after, reached, onward⟩ := used_onward _ pathname ticket found later
    exact ⟨after, used_append start earlier later ▸ reached, onward.rank⟩
  · intro pathname done again
    obtain ⟨remaining, found⟩ := (ask_done_iff _ pathname).mp done
    have asked := find?_ask_done _ pathname remaining found
    obtain ⟨left, unasked⟩ := (ask_done_iff _ pathname).mp again
    rw [used_append] at unasked
    exact absurd (used_rank _ pathname _ _ asked later unasked) (by simp [Stage.rank])
  · intro pathname first second done again
    obtain ⟨remaining, found⟩ := (fill_done_iff _ pathname first).mp done
    have filled := find?_fill_done _ pathname first remaining found
    obtain ⟨left, unfilled⟩ := (fill_done_iff _ pathname second).mp again
    rw [used_append] at unfilled
    exact absurd (used_rank _ pathname _ _ filled later unfilled) (by simp [Stage.rank])
  · intro pathname output
    rw [← start.filled_iff pathname (idle pathname) earlier output]
    simp only [Stage.output?_eq_some_iff]
  · intro pathname ticket found
    simp only [← start.filled_iff pathname (idle pathname) earlier, found, Option.some.injEq,
      exists_eq_left', Stage.rank_eq_two_iff]

-- Nothing that comes behind the first output has an effect on it.
theorem uses_settle_filled_again :
    let earlier := [.ask "test-delay10.a", .fill "test-delay10.a" [1]]
    let later := [.fill "test-delay10.a" [2], .ask "test-delay10.a",
      .addIdle "test-delay10.a" 5, .poll]
    (seeded.used (earlier ++ later)).find? "test-delay10.a" = some ⟨0, .filled [1]⟩ ∧
      seeded.Settles earlier later := by
  intro earlier later
  exact ⟨by decide, uses_settle seeded (.inr rfl) earlier later⟩

end Waitlist

end ContentFilter
