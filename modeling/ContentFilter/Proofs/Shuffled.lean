import ContentFilter.Proofs.Announcements
import ContentFilter.Proofs.Commuting
import ContentFilter.Proofs.Countdown

/-!
Waitlists with the same entries in another order. A poll goes through the entries one by one, so
all that their order can reach is the order of the announcement: `shuffled_poll`. The stranger is
put in front of the pathname that it comes with, so not even that order separates the two.
-/

namespace ContentFilter

theorem Text.sortedSet_unique (names others : List String)
    (same : ∀ name, name ∈ names ↔ name ∈ others) :
    Text.sortedSet names = Text.sortedSet others := by
  have perm : (Text.sortedSet names).Perm (Text.sortedSet others) := by
    refine (List.perm_ext_iff_of_nodup (sortedSet_nodup names) (sortedSet_nodup others)).mpr
      fun name => ?_
    rw [Text.mem_sortedSet, Text.mem_sortedSet, same]
  refine perm.eq_of_pairwise ?_ (Text.sortedSet_ascending names) (Text.sortedSet_ascending others)
  intro left right _ _ below above
  exact absurd (String.lt_trans below above) (String.lt_irrefl left)

namespace Waitlist

/-! ### One poll -/

/-- In front of every `invalid-delay.a` comes the stranger. -/
def Heralded (names : List String) : Prop :=
  ∀ before behind, names = before ++ Reserved.invalidDelay :: behind →
    ∃ front, before = front ++ [Reserved.stranger]

theorem heralded_append (names others : List String) (here : Heralded names)
    (there : Heralded others) : Heralded (names ++ others) := by
  intro before behind split
  rcases List.append_eq_append_iff.mp split with ⟨between, front, back⟩ | ⟨between, front, back⟩
  · obtain ⟨inner, ends⟩ := there between behind back
    exact ⟨names ++ inner, by rw [front, ends, List.append_assoc]⟩
  · cases between with
    | nil =>
        obtain ⟨inner, ends⟩ := there [] behind back.symm
        simp at ends
    | cons head between =>
        cases back
        exact here before between front

theorem heralded_absent (names : List String) (absent : Reserved.invalidDelay ∉ names) :
    Heralded names := by
  rintro before behind rfl
  exact absurd (by simp) absent

theorem heralded_pair : Heralded [Reserved.stranger, Reserved.invalidDelay] := by
  intro before behind split
  cases before with
  | nil => exact absurd (List.cons.inj split).1 (by decide)
  | cons first rest =>
      obtain ⟨rfl, more⟩ := List.cons.inj split
      cases rest with
      | nil => exact ⟨[], rfl⟩
      | cons second rest => simp at more

theorem heralded_announce (entry : String × Ticket) : Heralded (announce entry) := by
  obtain ⟨pathname, ticket⟩ := entry
  by_cases invalid : pathname = Reserved.invalidDelay
  · subst invalid
    cases ready : isReady (Reserved.invalidDelay, ticket) with
    | false =>
        apply heralded_absent
        intro member
        rcases mem_announce _ _ member with ⟨_, due⟩ | strange
        · rw [ready] at due
          cases due
        · exact absurd strange (by decide)
    | true =>
        have asked : ticket.isAsked = true := by
          simp only [isReady, Ticket.isDue, Bool.and_eq_true] at ready
          exact ready.1.1
        have rule := (listRule?_addStranger_iff Reserved.invalidDelay).mpr rfl
        have both : announce (Reserved.invalidDelay, ticket) =
            [Reserved.stranger, Reserved.invalidDelay] := by
          simp [announce, ready, asked, rule]
        rw [both]
        exact heralded_pair
  · apply heralded_absent
    intro member
    rcases mem_announce _ _ member with ⟨same, _⟩ | strange
    · exact invalid same.symm
    · exact absurd strange (by decide)

theorem heralded_announced (waitlist : Waitlist) :
    Heralded waitlist.announcement.announced := by
  obtain ⟨entries⟩ := waitlist
  simp only [announcement]
  induction entries with
  | nil => exact heralded_absent [] (by simp)
  | cons entry rest ih =>
      rw [List.flatMap_cons]
      exact heralded_append _ _ (heralded_announce entry) ih

/-- What a poll makes of the same entries in another order. -/
structure Shuffled (waitlist other : Waitlist) : Prop where
  entries : waitlist.countDown.entries.Perm other.countDown.entries
  ready : waitlist.announcement.ready = other.announcement.ready
  ascending : waitlist.announcement.ready.Pairwise fun left right =>
    Text.bytes left < Text.bytes right
  announced : waitlist.announcement.announced.Perm other.announcement.announced
  heralded : Heralded waitlist.announcement.announced ∧ Heralded other.announcement.announced

section

variable (waitlist other : Waitlist) (perm : waitlist.entries.Perm other.entries)

include perm

theorem shuffled_poll : Shuffled waitlist other where
  entries := perm.map _
  ready := by
    apply Text.sortedSet_unique
    intro pathname
    exact ((perm.filter isReady).map Prod.fst).mem_iff
  ascending := (Text.sortedSet_ascending _).imp fun below => Text.bytes_lt _ _ below
  announced := perm.flatMap_right announce
  heralded := ⟨waitlist.heralded_announced, other.heralded_announced⟩

theorem pathnames_perm : waitlist.pathnames.Perm other.pathnames := perm.map Prod.fst

theorem find?_perm (distinct : waitlist.pathnames.Nodup) (pathname : String) :
    waitlist.find? pathname = other.find? pathname := by
  have also : other.pathnames.Nodup := (waitlist.pathnames_perm other perm).nodup_iff.mp distinct
  apply Option.ext
  intro ticket
  rw [← waitlist.mem_entries_iff distinct, ← other.mem_entries_iff also, perm.mem_iff]

end

theorem perm_of_find? (waitlist other : Waitlist) (distinct : waitlist.pathnames.Nodup)
    (also : other.pathnames.Nodup)
    (same : ∀ pathname, waitlist.find? pathname = other.find? pathname) :
    waitlist.entries.Perm other.entries := by
  have apart (waitlist : Waitlist) (distinct : waitlist.pathnames.Nodup) :
      waitlist.entries.Nodup := distinct.of_map Prod.fst
  refine (List.perm_ext_iff_of_nodup (apart waitlist distinct) (apart other also)).mpr ?_
  rintro ⟨pathname, ticket⟩
  rw [waitlist.mem_entries_iff distinct, other.mem_entries_iff also, same]

end Waitlist

/-! ### Memories that match -/

namespace Memory

/-- No pathname is entered twice, and each can be announced. -/
structure Sound (memory : Memory) : Prop where
  distinct : memory.Distinct
  known : memory.Announceable

theorem sound_same (memory after : Memory) (sound : memory.Sound)
    (same : after.waitlist.pathnames.Perm memory.waitlist.pathnames) : after.Sound where
  distinct := same.nodup_iff.mpr sound.distinct
  known pathname member := sound.known pathname (same.mem_iff.mp member)

theorem sound_permit (memory : Memory) (pathname : String) (sound : memory.Sound)
    (fits : ContentFilter.Announceable pathname) : (memory.permit pathname).Sound := by
  have allowed := memory.allowDelay_eq_permit pathname
  refine ⟨?_, announceable_allowDelay memory _ pathname sound.known fits allowed⟩
  rcases pathnames_allowDelay memory _ pathname allowed with same | ⟨absent, more⟩
  · rw [Distinct, same]
    exact sound.distinct
  · exact distinct_entered memory _ pathname sound.distinct absent more

theorem Reached.sound {memory : Memory} (reached : memory.Reached) : memory.Sound := by
  obtain ⟨capabilities, delaysAll, past, reachable⟩ :=
    Exchange.Standing.reachable_of_reached memory reached
  obtain ⟨source, sink, journal, leads⟩ := reachable [] {} { path := "filter.log" }
  have lawful := Exchange.Standing.leads_lawful capabilities delaysAll source sink journal _ leads
  exact ⟨lawful.distinct, reached.announceable⟩

/-- The memories tell each request the same, and a poll the same in another order. -/
structure Beside (memory other : Memory) : Prop where
  same : memory.Matches other
  sound : memory.Sound
  alsoSound : other.Sound

theorem Matches.alikeFor {memory other : Memory} (same : memory.Matches other) (command : Command)
    (pathname : String) : AlikeFor command pathname memory other where
  capabilities := same.capabilities
  delaysAll := same.delaysAll
  ticket := same.tickets pathname
  aborted := congrFun same.aborted command

section

variable (memory other : Memory) (beside : memory.Beside other)

include beside

theorem beside_permit (pathname : String) (fits : ContentFilter.Announceable pathname) :
    (memory.permit pathname).Beside (other.permit pathname) := by
  refine ⟨?_, memory.sound_permit pathname beside.sound fits,
    other.sound_permit pathname beside.alsoSound fits⟩
  have found (asked : String) : (memory.permit pathname).waitlist.find? asked =
      (other.permit pathname).waitlist.find? asked := by
    simp only [find?_permit, beside.same.delaysAll, beside.same.tickets]
  obtain ⟨waitlist, permitted⟩ := memory.permit_waitlist pathname
  obtain ⟨also, alsoPermitted⟩ := other.permit_waitlist pathname
  rw [permitted, alsoPermitted] at found ⊢
  exact ⟨beside.same.capabilities, beside.same.delaysAll, found, beside.same.aborted⟩

theorem beside_countDown : memory.countDown.Beside other.countDown := by
  refine ⟨⟨beside.same.capabilities, beside.same.delaysAll, fun pathname => ?_,
    beside.same.aborted⟩, ?_, ?_⟩
  · simp only [countDown, Waitlist.find?_countDown, beside.same.tickets]
  · exact memory.sound_same _ beside.sound (.of_eq memory.waitlist.pathnames_countDown)
  · exact other.sound_same _ beside.alsoSound (.of_eq other.waitlist.pathnames_countDown)

theorem beside_after (request : Request) (answer : Answer) :
    (memory.after request answer).Beside (other.after request answer) := by
  refine ⟨?_, memory.sound_same _ beside.sound (.of_eq (memory.pathnames_after request answer)),
    other.sound_same _ beside.alsoSound (.of_eq (other.pathnames_after request answer))⟩
  have found (asked : String) : (memory.after request answer).waitlist.find? asked =
      (other.after request answer).waitlist.find? asked := by
    rw [← settle_answered, ← settle_answered, find?_settle, find?_settle, beside.same.tickets]
  cases answer with
  | aborted =>
      refine ⟨beside.same.capabilities, beside.same.delaysAll, found, ?_⟩
      simp only [after, abort, beside.same.aborted]
  | delayed output =>
      exact ⟨beside.same.capabilities, beside.same.delaysAll, found, beside.same.aborted⟩
  | refused | content | brokenOff => exact beside.same

end

end Memory

end ContentFilter
