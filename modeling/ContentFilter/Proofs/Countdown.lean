import ContentFilter.Proofs.Uses
import Mathlib.Data.List.Nodup
import Mathlib.Data.List.Perm.Basic

/-!
Countdowns, told by what was done to the waitlist. `Counted` says with what count a pathname was
entered and `Since` how many polls have passed since it was asked for, and from these two come the
rest of its countdown, the one poll that finds it ready and every announcement. Whether and when
its ticket was filled does not matter for any of them.
-/

namespace ContentFilter

theorem Text.sortedSet_nodup (names : List String) : (Text.sortedSet names).Nodup := by
  refine (Text.sortedSet_ascending names).imp fun below same => ?_
  exact String.lt_irrefl _ (same ▸ below)

namespace Waitlist

section

variable (waitlist : Waitlist) (pathname : String)

def Asked : Prop := ∃ ticket, waitlist.find? pathname = some ticket ∧ ticket.stage ≠ .idle

/-- The use enters `pathname`, with this count. -/
def Enters (use : Use) (count : Nat) : Prop :=
  (use = .addIdle pathname count ∨ use = .addAsked pathname count) ∧
    (waitlist.use use).outcome = .added

/-- The use asks for `pathname`, or enters it as asked for. -/
def Asks (use : Use) : Prop :=
  (use = .ask pathname ∧ (waitlist.use use).outcome = .changed true) ∨
    ∃ count, use = .addAsked pathname count ∧ (waitlist.use use).outcome = .added

/-- `pathname` was entered with `count`, at the start or by one of the uses. -/
def Counted (start : Waitlist) (uses : List Use) (pathname : String) (count : Nat) : Prop :=
  start.find? pathname = some ⟨count, .idle⟩ ∨
    ∃ earlier use later, uses = earlier ++ use :: later ∧
      (start.used earlier).Enters pathname use count

/-- One of the uses has asked for `pathname`, and `polls` of those behind it were polls. -/
def Since (start : Waitlist) (uses : List Use) (pathname : String) (polls : Nat) : Prop :=
  ∃ earlier use later, uses = earlier ++ use :: later ∧
    (start.used earlier).Asks pathname use ∧ later.count .poll = polls

/-! ### Asking and counting -/

theorem find?_entered (use : Use) (count : Nat) (enters : waitlist.Enters pathname use count) :
    waitlist.find? pathname = none ∧
      ∃ stage, (waitlist.use use).after.find? pathname = some ⟨count, stage⟩ := by
  obtain ⟨rfl | rfl, done⟩ := enters
  · have ⟨absent, entered⟩ := waitlist.find?_entering_done pathname ⟨count, .idle⟩ done
    exact ⟨absent, .idle, entered⟩
  · have ⟨absent, entered⟩ := waitlist.find?_entering_done pathname ⟨count, .asked⟩ done
    exact ⟨absent, .asked, entered⟩

theorem asks_iff (use : Use) :
    waitlist.Asks pathname use ↔
      ¬ waitlist.Asked pathname ∧ (waitlist.use use).after.Asked pathname := by
  constructor
  · rintro (⟨rfl, done⟩ | ⟨count, rfl, done⟩)
    · obtain ⟨remaining, found⟩ := (waitlist.ask_done_iff pathname).mp done
      refine ⟨?_, _, waitlist.find?_ask_done pathname remaining found, by simp⟩
      rintro ⟨ticket, held, asked⟩
      cases found.symm.trans held
      exact asked rfl
    · have ⟨absent, entered⟩ := waitlist.find?_entering_done pathname ⟨count, .asked⟩ done
      refine ⟨?_, _, entered, by simp⟩
      rintro ⟨ticket, held, _⟩
      cases absent.symm.trans held
  · rintro ⟨before, ticket, found, asked⟩
    have shift := waitlist.use_shifts pathname use
    rw [found] at shift
    generalize held : waitlist.find? pathname = ticket? at shift
    cases shift with
    | kept => exact absurd ⟨ticket, held, asked⟩ before
    | addedIdle => exact absurd rfl asked
    | addedAsked count enters done => exact .inr ⟨count, enters, done⟩
    | asked _ asks done => exact .inl ⟨asks, done⟩
    | filled remaining => exact absurd ⟨_, held, by simp⟩ before
    | counted still =>
        rw [still.countDown_stage] at asked
        exact absurd ⟨still, held, asked⟩ before

/-- Once it has been asked for, a ticket counts every poll and nothing else. -/
theorem used_asked (uses : List Use) (ticket : Ticket)
    (found : waitlist.find? pathname = some ticket) (asked : ticket.stage ≠ .idle) :
    ∃ after, (waitlist.used uses).find? pathname = some after ∧ after.stage ≠ .idle ∧
      after.remaining = ticket.remaining - uses.count .poll := by
  induction uses generalizing waitlist ticket with
  | nil => exact ⟨ticket, found, asked, by simp⟩
  | cons use rest ih =>
      have shift := waitlist.use_shifts pathname use
      rw [found] at shift
      generalize reached : (waitlist.use use).after.find? pathname = after? at shift
      cases shift with
      | kept _ unpolled =>
          obtain ⟨after, last, still, left⟩ := ih _ ticket reached asked
          exact ⟨after, last, still, by rw [left, List.count_cons_of_ne unpolled]⟩
      | asked => exact absurd rfl asked
      | filled remaining output fills =>
          obtain ⟨after, last, still, left⟩ := ih _ _ reached (by simp)
          refine ⟨after, last, still, ?_⟩
          rw [left, List.count_cons_of_ne (by simp [fills])]
      | counted _ polls =>
          have stage := ticket.countDown_stage
          obtain ⟨after, last, still, left⟩ := ih _ _ reached (by rwa [stage])
          refine ⟨after, last, still, ?_⟩
          have less : ticket.countDown.remaining = ticket.remaining - 1 := by
            simp [Ticket.countDown, Ticket.isAsked, asked]
          rw [left, less, polls, List.count_cons_self]
          omega

end

section

variable {start : Waitlist} {uses : List Use} {pathname : String}

theorem asked_of_since (polls : Nat) (since : Since start uses pathname polls) :
    (start.used uses).Asked pathname := by
  obtain ⟨earlier, use, later, rfl, asks, _⟩ := since
  obtain ⟨_, ticket, found, asked⟩ := ((start.used earlier).asks_iff pathname use).mp asks
  obtain ⟨after, reached, still, _⟩ := used_asked _ pathname later ticket found asked
  exact ⟨after, used_append start earlier _ ▸ reached, still⟩

theorem since_of_asked (idle : ¬ start.Asked pathname)
    (asked : (start.used uses).Asked pathname) : ∃ polls, Since start uses pathname polls := by
  obtain ⟨earlier, use, later, split, before, after⟩ :=
    start.turning_point (fun now => now.Asked pathname) idle uses asked
  exact ⟨_, earlier, use, later, split, (asks_iff _ pathname use).mpr ⟨before, after⟩, rfl⟩

/-- A ticket that nobody has asked for still has the count that it was entered with. -/
theorem found_of_counted (count : Nat) (counted : Counted start uses pathname count) :
    ∃ ticket, (start.used uses).find? pathname = some ticket ∧
      (ticket.stage = .idle → ticket.remaining = count) := by
  rcases counted with found | ⟨earlier, use, later, rfl, enters⟩
  · obtain ⟨ticket, reached, onward⟩ := start.used_onward pathname _ found uses
    exact ⟨ticket, reached, fun idle => congrArg Ticket.remaining (onward.unasked idle)⟩
  · obtain ⟨_, stage, entered⟩ := find?_entered _ pathname use count enters
    obtain ⟨ticket, reached, onward⟩ := used_onward _ pathname _ entered later
    refine ⟨ticket, used_append start earlier _ ▸ reached, fun idle => ?_⟩
    exact congrArg Ticket.remaining (onward.unasked idle)

theorem counted_of_found
    (idle : ∀ ticket, start.find? pathname = some ticket → ticket.stage = .idle)
    (ticket : Ticket) (found : (start.used uses).find? pathname = some ticket) :
    ∃ count, Counted start uses pathname count := by
  cases first : start.find? pathname with
  | some ticket =>
      obtain ⟨count, stage⟩ := ticket
      cases idle _ first
      exact ⟨count, .inl first⟩
  | none =>
      have absent : ¬ ∃ ticket, start.find? pathname = some ticket := by simp [first]
      obtain ⟨earlier, use, later, split, before, ticket, reached⟩ :=
        start.turning_point (fun now => ∃ ticket, now.find? pathname = some ticket) absent uses
          ⟨ticket, found⟩
      have shift := (start.used earlier).use_shifts pathname use
      rw [reached] at shift
      generalize held : (start.used earlier).find? pathname = ticket? at shift
      cases shift with
      | kept => exact absurd ⟨ticket, held⟩ before
      | addedIdle count enters done =>
          exact ⟨count, .inr ⟨earlier, use, later, split, .inl enters, done⟩⟩
      | addedAsked count enters done =>
          exact ⟨count, .inr ⟨earlier, use, later, split, .inr enters, done⟩⟩
      | asked | filled | counted => exact absurd ⟨_, held⟩ before

theorem split_cases {α : Type} (first rest earlier later : List α) (one other : α)
    (same : first ++ one :: rest = earlier ++ other :: later) :
    (first = earlier ∧ one = other) ∨ (∃ between, earlier = first ++ one :: between) ∨
      ∃ between, first = earlier ++ other :: between := by
  rcases List.append_eq_append_iff.mp same with ⟨between, front, back⟩ | ⟨between, front, back⟩
  · cases between with
    | nil =>
        cases back
        exact .inl ⟨by simpa using front.symm, rfl⟩
    | cons head between =>
        cases back
        exact .inr (.inl ⟨between, front⟩)
  · cases between with
    | nil =>
        cases back
        exact .inl ⟨by simpa using front, rfl⟩
    | cons head between =>
        cases back
        exact .inr (.inr ⟨between, front⟩)

/-- A pathname has been entered by the time it is asked for. -/
theorem counted_before (earlier later : List Use) (use : Use) (count : Nat)
    (asks : (start.used earlier).Asks pathname use)
    (counted : Counted start (earlier ++ use :: later) pathname count) :
    Counted start earlier pathname count ∨ (start.used earlier).Enters pathname use count := by
  rcases counted with found | ⟨first, enter, rest, split, enters⟩
  · exact .inl (.inl found)
  rcases split_cases _ _ _ _ _ _ split.symm with ⟨rfl, rfl⟩ | ⟨between, rfl⟩ | ⟨between, rfl⟩
  · exact .inr enters
  · exact .inl (.inr ⟨first, enter, between, rfl, enters⟩)
  -- What has been asked for can no longer be entered.
  · have since : Since start (earlier ++ use :: between) pathname _ :=
      ⟨earlier, use, between, rfl, asks, rfl⟩
    obtain ⟨ticket, held, _⟩ := asked_of_since _ since
    cases (find?_entered _ pathname enter count enters).1.symm.trans held

theorem remaining_since (count polls : Nat) (counted : Counted start uses pathname count)
    (since : Since start uses pathname polls) :
    ∃ ticket, (start.used uses).find? pathname = some ticket ∧ ticket.stage ≠ .idle ∧
      ticket.remaining = count - min count polls := by
  obtain ⟨earlier, use, later, rfl, asks, rfl⟩ := since
  have started : ((start.used earlier).use use).after.find? pathname = some ⟨count, .asked⟩ := by
    rcases counted_before earlier later use count asks counted with before | ⟨which, done⟩
    · obtain ⟨ticket, found, unasked⟩ := found_of_counted count before
      rcases asks with ⟨rfl, done⟩ | ⟨other, rfl, done⟩
      · obtain ⟨remaining, held⟩ := (ask_done_iff _ pathname).mp done
        cases held.symm.trans found
        cases unasked rfl
        exact find?_ask_done _ pathname _ held
      · cases (find?_entering_done _ pathname _ done).1.symm.trans found
    · rcases asks with ⟨rfl, _⟩ | ⟨other, rfl, _⟩
      · rcases which with other | other <;> cases other
      · rcases which with other | other <;> cases other
        exact (find?_entering_done _ pathname _ done).2
  obtain ⟨after, reached, asked, left⟩ :=
    used_asked _ pathname later ⟨count, .asked⟩ started (by simp)
  refine ⟨after, used_append start earlier _ ▸ reached, asked, ?_⟩
  rw [left]
  exact Nat.sub_eq_sub_min count _

end

/-! ### Announcements -/

theorem listRule?_addStranger_iff (pathname : String) :
    Reserved.listRule? pathname = some .addStranger ↔ pathname = Reserved.invalidDelay := by
  unfold Reserved.listRule?
  by_cases invalid : pathname = Reserved.invalidDelay
  · simp [invalid]
  · by_cases missing : pathname = Reserved.missingDelay <;> simp [invalid, missing]

/-- The stranger that comes with an entry, if one does. -/
def strangers (entry : String × Ticket) : List String :=
  if entry.2.isAsked && Reserved.listRule? entry.1 == some .addStranger
    then [Reserved.stranger] else []

theorem strangers_other (entry : String × Ticket) (other : entry.1 ≠ Reserved.invalidDelay) :
    strangers entry = [] := by
  have rule := mt (listRule?_addStranger_iff entry.1).mp other
  simp [strangers, rule]

theorem strangers_unasked (entry : String × Ticket) (unasked : entry.2.stage = .idle) :
    strangers entry = [] := by
  simp [strangers, Ticket.isAsked, unasked]

theorem flatMap_ready (entries : List (String × Ticket)) :
    (entries.flatMap fun entry => if isReady entry then [entry.1] else []) =
      (entries.filter isReady).map Prod.fst := by
  induction entries with
  | nil => rfl
  | cons entry rest ih =>
      rw [List.flatMap_cons, ih]
      cases ready : isReady entry <;> simp [ready]

section

variable (waitlist : Waitlist) (distinct : waitlist.pathnames.Nodup)

theorem ready_nodup : waitlist.announcement.ready.Nodup := Text.sortedSet_nodup _

include distinct

theorem filter_ready_perm :
    ((waitlist.entries.filter isReady).map Prod.fst).Perm waitlist.announcement.ready := by
  have apart : ((waitlist.entries.filter isReady).map Prod.fst).Nodup :=
    (List.filter_sublist.map Prod.fst).nodup distinct
  refine (List.perm_ext_iff_of_nodup apart waitlist.ready_nodup).mpr fun pathname => ?_
  exact (Text.mem_sortedSet _ pathname).symm

theorem announced_perm :
    waitlist.announcement.announced.Perm
      (waitlist.entries.flatMap strangers ++ waitlist.announcement.ready) := by
  have parts : waitlist.announcement.announced = waitlist.entries.flatMap fun entry =>
      strangers entry ++ if isReady entry then [entry.1] else [] := rfl
  rw [parts]
  refine (List.flatMap_append_perm _ _ _).symm.trans (List.Perm.append_left _ ?_)
  rw [flatMap_ready]
  exact waitlist.filter_ready_perm distinct

theorem strangers_of_asked (asked : waitlist.Asked Reserved.invalidDelay) :
    waitlist.entries.flatMap strangers = [Reserved.stranger] := by
  obtain ⟨ticket, found, started⟩ := asked
  obtain ⟨front, back, entries, _⟩ := List.lookup_eq_some_iff.mp found
  have names : waitlist.pathnames =
      front.map Prod.fst ++ Reserved.invalidDelay :: back.map Prod.fst := by
    rw [pathnames, entries]
    simp
  rw [names, List.nodup_append] at distinct
  obtain ⟨_, behind, apart⟩ := distinct
  have before : front.flatMap strangers = [] := by
    refine List.flatMap_eq_nil_iff.mpr fun entry member => strangers_other entry ?_
    exact apart entry.1 (List.mem_map_of_mem member) _ List.mem_cons_self
  have after : back.flatMap strangers = [] := by
    refine List.flatMap_eq_nil_iff.mpr fun entry member => strangers_other entry ?_
    rintro same
    exact (List.nodup_cons.mp behind).1 (same ▸ List.mem_map_of_mem member)
  have here : strangers (Reserved.invalidDelay, ticket) = [Reserved.stranger] := by
    have rule := (listRule?_addStranger_iff Reserved.invalidDelay).mpr rfl
    simp [strangers, Ticket.isAsked, started, rule]
  rw [entries, List.flatMap_append, List.flatMap_cons, before, here, after]
  rfl

theorem strangers_of_unasked (unasked : ¬ waitlist.Asked Reserved.invalidDelay) :
    waitlist.entries.flatMap strangers = [] := by
  refine List.flatMap_eq_nil_iff.mpr fun entry member => ?_
  by_cases invalid : entry.1 = Reserved.invalidDelay
  · have found := (waitlist.mem_entries_iff distinct entry.1 entry.2).mp member
    by_cases idle : entry.2.stage = .idle
    · exact strangers_unasked entry idle
    · exact absurd ⟨entry.2, invalid ▸ found, idle⟩ unasked
  · exact strangers_other entry invalid

theorem announced_count (pathname : String) (known : pathname ≠ Reserved.stranger) :
    waitlist.announcement.announced.count pathname =
      waitlist.announcement.ready.count pathname := by
  rw [(waitlist.announced_perm distinct).count_eq, List.count_append]
  by_cases asked : waitlist.Asked Reserved.invalidDelay
  · rw [waitlist.strangers_of_asked distinct asked, List.count_singleton]
    simp [known.symm]
  · rw [waitlist.strangers_of_unasked distinct asked, List.count_nil, Nat.zero_add]

end

def Outcome.announced : Outcome → List String
  | .polled answer => answer.announced
  | .added | .duplicate _ | .missing | .changed _ => []

/-- Everything that the polls among the uses announce, in order. -/
def announcedBy (waitlist : Waitlist) : List Use → List String
  | [] => []
  | use :: rest => (waitlist.use use).outcome.announced ++ announcedBy (waitlist.use use).after rest

/-- The countdown has ended. -/
def Spent (waitlist : Waitlist) (pathname : String) : Prop :=
  ∃ ticket, waitlist.find? pathname = some ticket ∧ ticket.stage ≠ .idle ∧ ticket.remaining = 0

section

variable (waitlist : Waitlist) (pathname : String)

theorem spent_use (use : Use) (spent : waitlist.Spent pathname) :
    (waitlist.use use).after.Spent pathname := by
  obtain ⟨ticket, found, asked, ended⟩ := spent
  obtain ⟨after, reached, still, left⟩ := waitlist.used_asked pathname [use] ticket found asked
  exact ⟨after, reached, still, by rw [left, ended, Nat.zero_sub]⟩

theorem unready_of_spent (distinct : waitlist.pathnames.Nodup) (spent : waitlist.Spent pathname) :
    pathname ∉ waitlist.announcement.ready := by
  intro ready
  obtain ⟨_, ticket, found, _, last⟩ := (waitlist.mem_ready_due_iff distinct pathname).mp ready
  obtain ⟨same, held, _, ended⟩ := spent
  cases found.symm.trans held
  rw [last] at ended
  cases ended

theorem spent_of_ready (distinct : waitlist.pathnames.Nodup)
    (ready : pathname ∈ waitlist.announcement.ready) : waitlist.countDown.Spent pathname := by
  obtain ⟨_, ticket, found, asked, last⟩ := (waitlist.mem_ready_due_iff distinct pathname).mp ready
  obtain ⟨after, reached, still, left⟩ :=
    waitlist.used_asked pathname [.poll] ticket found asked
  exact ⟨after, reached, still, by simp [left, last]⟩

theorem announced_of_unpolled (use : Use) (unpolled : use ≠ .poll) :
    (waitlist.use use).outcome.announced = [] := by
  have entering (result : Except Duplicate Waitlist) :
      (waitlist.entering result).outcome.announced = [] := by cases result <;> rfl
  have changing (pathname : String) (result : Option Waitlist) :
      (waitlist.changing pathname result).outcome.announced = [] := by
    unfold Waitlist.changing
    cases waitlist.find? pathname <;> rfl
  cases use with
  | addIdle | addAsked => exact entering _
  | ask | fill => exact changing _ _
  | poll => exact absurd rfl unpolled

/-- Each pathname is announced at most once, and no longer when its countdown has ended. -/
theorem announcedBy_count (known : pathname ≠ Reserved.stranger)
    (distinct : waitlist.pathnames.Nodup) (uses : List Use) :
    (waitlist.announcedBy uses).count pathname ≤ 1 ∧
      (waitlist.Spent pathname → (waitlist.announcedBy uses).count pathname = 0) := by
  induction uses generalizing waitlist with
  | nil => exact ⟨Nat.zero_le _, fun _ => rfl⟩
  | cons use rest ih =>
      have ⟨once, never⟩ := ih (waitlist.use use).after (waitlist.pathnames_use distinct use).2
      have later (spent : waitlist.Spent pathname) := never (waitlist.spent_use pathname use spent)
      simp only [announcedBy, List.count_append]
      by_cases polls : use = .poll
      · subst polls
        have here : (waitlist.use .poll).outcome.announced.count pathname =
            waitlist.announcement.ready.count pathname :=
          waitlist.announced_count distinct pathname known
        rw [here]
        by_cases ready : pathname ∈ waitlist.announcement.ready
        · have spent := never (waitlist.spent_of_ready pathname distinct ready)
          rw [spent, waitlist.ready_nodup.count, if_pos ready]
          exact ⟨Nat.le_refl 1, fun spent =>
            absurd ready (waitlist.unready_of_spent pathname distinct spent)⟩
        · rw [List.count_eq_zero_of_not_mem ready, Nat.zero_add]
          exact ⟨once, later⟩
      · rw [waitlist.announced_of_unpolled use polls, List.count_nil, Nat.zero_add]
        exact ⟨once, later⟩

end

/-! ### What the polls answer -/

/-- All that `uses` settle about the countdowns and about a poll that comes next. -/
structure Counting (start : Waitlist) (uses : List Use) : Prop where
  unasked : ∀ pathname count, Counted start uses pathname count →
    (∀ polls, ¬ Since start uses pathname polls) →
      ∃ ticket, (start.used uses).find? pathname = some ticket ∧ ticket.remaining = count
  remaining : ∀ pathname count polls, Counted start uses pathname count →
    Since start uses pathname polls →
      ∃ ticket, (start.used uses).find? pathname = some ticket ∧
        ticket.remaining = count - min count polls
  ready : ∀ pathname count, Counted start uses pathname count →
    (pathname ∈ (start.used uses).announcement.ready ↔ pathname ≠ Reserved.missingDelay ∧
      ∃ polls, Since start uses pathname polls ∧ polls + 1 = count)
  entered : ∀ pathname ∈ (start.used uses).announcement.ready,
    ∃ count, Counted start uses pathname count
  stranger : (start.used uses).Asked Reserved.invalidDelay →
    (start.used uses).announcement.announced.Perm
      (Reserved.stranger :: (start.used uses).announcement.ready)
  alone : ¬ (start.used uses).Asked Reserved.invalidDelay →
    (start.used uses).announcement.announced.Perm (start.used uses).announcement.ready
  once : ∀ pathname, pathname ≠ Reserved.stranger →
    (start.announcedBy uses).count pathname ≤ 1

theorem uses_count (start : Waitlist) (starts : start = empty ∨ start = seeded)
    (uses : List Use) : start.Counting uses := by
  have ⟨distinct, _⟩ := start_idle "" start starts
  have idle (pathname : String) := (start_idle pathname start starts).2
  have quiet (pathname : String) : ¬ start.Asked pathname := by
    rintro ⟨ticket, found, asked⟩
    exact asked (idle pathname ticket found)
  have ⟨_, kept⟩ := start.pathnames_used distinct uses
  constructor
  · intro pathname count counted never
    obtain ⟨ticket, found, unasked⟩ := found_of_counted count counted
    by_cases started : ticket.stage = .idle
    · exact ⟨ticket, found, unasked started⟩
    · obtain ⟨polls, since⟩ := since_of_asked (quiet pathname) ⟨ticket, found, started⟩
      exact absurd since (never polls)
  · intro pathname count polls counted since
    obtain ⟨ticket, found, _, left⟩ := remaining_since count polls counted since
    exact ⟨ticket, found, left⟩
  · intro pathname count counted
    rw [(start.used uses).mem_ready_due_iff kept]
    refine and_congr_right fun _ => ?_
    constructor
    · rintro ⟨ticket, found, asked, last⟩
      obtain ⟨polls, since⟩ := since_of_asked (quiet pathname) ⟨ticket, found, asked⟩
      obtain ⟨same, held, _, left⟩ := remaining_since count polls counted since
      cases found.symm.trans held
      exact ⟨polls, since, by omega⟩
    · rintro ⟨polls, since, last⟩
      obtain ⟨ticket, found, asked, left⟩ := remaining_since count polls counted since
      exact ⟨ticket, found, asked, by omega⟩
  · intro pathname ready
    obtain ⟨_, ticket, found, _⟩ := ((start.used uses).mem_ready_due_iff kept pathname).mp ready
    exact counted_of_found (idle pathname) ticket found
  · intro asked
    have perm := (start.used uses).announced_perm kept
    rwa [(start.used uses).strangers_of_asked kept asked] at perm
  · intro unasked
    have perm := (start.used uses).announced_perm kept
    rwa [(start.used uses).strangers_of_unasked kept unasked] at perm
  · intro pathname known
    exact (start.announcedBy_count pathname known distinct uses).1

-- A pathname with the name of the stranger is entered, counted and announced like any other.
theorem uses_count_stranger :
    let uses := [.addAsked Reserved.stranger 2, .ask Reserved.invalidDelay, .poll]
    (seeded.used uses).announcement =
        ⟨[Reserved.stranger, Reserved.stranger], [Reserved.stranger]⟩ ∧
      seeded.Counting uses := by
  intro uses
  exact ⟨by decide +kernel, uses_count seeded (.inr rfl) uses⟩

end Waitlist

end ContentFilter
