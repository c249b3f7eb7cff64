import ContentFilter.Delay.Ticket

/-!
The tickets of one session, by pathname. Tickets are added and advanced, never removed. The list
keeps the order in which pathnames came; nothing but the order of announcements depends on it.
-/

namespace ContentFilter

/-- A pathname was to be entered twice. -/
structure Duplicate where
  pathname : String
  deriving DecidableEq, Repr

def Duplicate.message (what : Duplicate) : String :=
  s!"pathname '{what.pathname}' is already present in the delay registry"

structure Waitlist where
  entries : List (String × Ticket)
  deriving DecidableEq, Repr

/-- The answer to one list query. -/
structure Announcement where
  /-- Every pathname to announce, strangers included, in the order of the waitlist. -/
  announced : List String
  /-- The pathnames whose countdown ended with this query, in ascending order. -/
  ready : List String
  deriving DecidableEq, Repr

namespace Waitlist

def empty : Waitlist := ⟨[]⟩

/-- The pathnames every session starts with, each with its countdown. -/
def seeds : List (String × Nat) :=
  [("test-delay10.a", 1), ("test-delay11.a", 1), ("test-delay20.a", 2), ("test-delay10.b", 1),
    (Reserved.missingDelay, 1), (Reserved.invalidDelay, 1)]

def seeded : Waitlist := ⟨seeds.map fun (pathname, count) => (pathname, ⟨count, .idle⟩)⟩

def pathnames (waitlist : Waitlist) : List String := waitlist.entries.map Prod.fst

def find? (waitlist : Waitlist) (pathname : String) : Option Ticket :=
  waitlist.entries.lookup pathname

def add (waitlist : Waitlist) (pathname : String) (ticket : Ticket) :
    Except Duplicate Waitlist :=
  match waitlist.find? pathname with
  | some _ => .error ⟨pathname⟩
  | none => .ok ⟨waitlist.entries ++ [(pathname, ticket)]⟩

def addIdle (waitlist : Waitlist) (pathname : String) (count : Nat) : Except Duplicate Waitlist :=
  waitlist.add pathname ⟨count, .idle⟩

def addAsked (waitlist : Waitlist) (pathname : String) (count : Nat) :
    Except Duplicate Waitlist :=
  waitlist.add pathname ⟨count, .asked⟩

/-- Puts `ticket` in the place of the one that `pathname` has. -/
def put (waitlist : Waitlist) (pathname : String) (ticket : Ticket) : Waitlist :=
  ⟨waitlist.entries.map fun entry => if entry.1 = pathname then (pathname, ticket) else entry⟩

def ask? (waitlist : Waitlist) (pathname : String) : Option Waitlist :=
  ((waitlist.find? pathname).bind Ticket.ask?).map (waitlist.put pathname)

def fill? (waitlist : Waitlist) (pathname : String) (output : Bytes) : Option Waitlist :=
  ((waitlist.find? pathname).bind (Ticket.fill? output)).map (waitlist.put pathname)

/-! ### The list query -/

def isReady (entry : String × Ticket) : Bool :=
  entry.2.isDue && Reserved.listRule? entry.1 != some .withhold

/-- What one entry adds to an announcement. A stranger comes with every query once its entry has
been asked for, also after the entry's own countdown has ended. -/
def announce (entry : String × Ticket) : List String :=
  (if entry.2.isAsked && Reserved.listRule? entry.1 == some .addStranger
    then [Reserved.stranger] else []) ++
  (if isReady entry then [entry.1] else [])

def announcement (waitlist : Waitlist) : Announcement where
  announced := waitlist.entries.flatMap announce
  ready := Text.sortedSet ((waitlist.entries.filter isReady).map Prod.fst)

/-- The waitlist after a list query. -/
def countDown (waitlist : Waitlist) : Waitlist :=
  ⟨waitlist.entries.map fun entry => (entry.1, entry.2.countDown)⟩

/-! ### What each operation does to the pathnames and to the ticket of one of them -/

theorem pathnames_put (waitlist : Waitlist) (pathname : String) (ticket : Ticket) :
    (waitlist.put pathname ticket).pathnames = waitlist.pathnames := by
  simp only [put, pathnames, List.map_map]
  apply List.map_congr_left
  intro entry _
  by_cases same : entry.1 = pathname <;> simp [same]

theorem pathnames_countDown (waitlist : Waitlist) :
    waitlist.countDown.pathnames = waitlist.pathnames := by
  simp [countDown, pathnames, Function.comp_def]

theorem find?_eq_none_iff (waitlist : Waitlist) (pathname : String) :
    waitlist.find? pathname = none ↔ pathname ∉ waitlist.pathnames := by
  simp only [find?, pathnames, List.lookup_eq_none_iff, List.mem_map, bne_iff_ne]
  constructor
  · rintro absent ⟨entry, member, same⟩
    exact absent entry member same.symm
  · intro absent entry member same
    exact absent ⟨entry, member, same.symm⟩

theorem add_eq_ok_iff (waitlist after : Waitlist) (pathname : String) (ticket : Ticket) :
    waitlist.add pathname ticket = .ok after ↔
      pathname ∉ waitlist.pathnames ∧
        after.entries = waitlist.entries ++ [(pathname, ticket)] := by
  rw [← find?_eq_none_iff]
  unfold add
  cases waitlist.find? pathname with
  | some found => simp
  | none =>
      obtain ⟨entries⟩ := after
      simp [eq_comm]

theorem find?_add (waitlist after : Waitlist) (pathname other : String) (ticket : Ticket)
    (added : waitlist.add pathname ticket = .ok after) :
    after.find? other = if other = pathname then some ticket else waitlist.find? other := by
  obtain ⟨absent, entries⟩ := (add_eq_ok_iff _ _ _ _).mp added
  rw [← find?_eq_none_iff] at absent
  simp only [find?] at absent ⊢
  rw [entries, List.lookup_append, List.lookup_cons]
  by_cases same : other = pathname
  · subst other
    simp [absent]
  · have apart : (other == pathname) = false := beq_eq_false_iff_ne.mpr same
    simp [same, apart]

theorem find?_put (waitlist : Waitlist) (pathname other : String) (ticket : Ticket) :
    (waitlist.put pathname ticket).find? other =
      if other = pathname then (waitlist.find? other).map fun _ => ticket
      else waitlist.find? other := by
  obtain ⟨entries⟩ := waitlist
  simp only [find?, put]
  induction entries with
  | nil => simp
  | cons entry rest ih =>
      obtain ⟨name, old⟩ := entry
      by_cases here : name = pathname
      -- The replaced entry is found if it is `other`, and passed over if not.
      · subst here
        by_cases same : other = name
        · subst same
          simp
        · have apart : (other == name) = false := beq_eq_false_iff_ne.mpr same
          simpa [List.lookup_cons, same, apart] using ih
      · by_cases same : other = name
        · subst same
          simp [here]
        · have apart : (other == name) = false := beq_eq_false_iff_ne.mpr same
          simpa [List.lookup_cons, here, apart] using ih

theorem find?_countDown (waitlist : Waitlist) (pathname : String) :
    waitlist.countDown.find? pathname = (waitlist.find? pathname).map Ticket.countDown := by
  obtain ⟨entries⟩ := waitlist
  simp only [find?, countDown]
  induction entries with
  | nil => rfl
  | cons entry rest ih =>
      obtain ⟨name, old⟩ := entry
      by_cases same : pathname = name
      · subst same
        simp
      · have apart : (pathname == name) = false := beq_eq_false_iff_ne.mpr same
        simpa [List.lookup_cons, apart] using ih

end Waitlist

end ContentFilter
