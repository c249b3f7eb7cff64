import ContentFilter.Delay.Waitlist

/-!
Tickets as flat records. A `DelayEntry` has the countdown, the state and the output side by side,
and nothing in it forbids an output that was never handed in. What is done to a ticket is done to
its record, one lemma for each operation, and the records that the operations lead to from a new
one are those of the tickets, no more and no fewer: `reached_iff_ticket`.
-/

namespace ContentFilter

inductive DelayState where
  | notRequested
  | requested
  | delivered
  deriving DecidableEq, Repr

structure DelayEntry where
  state : DelayState := .notRequested
  remaining : Nat
  cached : Option Bytes := none
  deriving DecidableEq, Repr

namespace DelayEntry

def isRequested (entry : DelayEntry) : Bool := entry.state != .notRequested

/-! Each operation reports whether it has done anything. -/

def request (entry : DelayEntry) : Bool × DelayEntry :=
  if entry.state ≠ .notRequested then (false, entry)
  else (true, { entry with state := .requested })

def deliver (output : Bytes) (entry : DelayEntry) : Bool × DelayEntry :=
  if entry.state ≠ .requested then (false, entry)
  else (true, { entry with state := .delivered, cached := some output })

/-- Reports the query that brings the countdown to zero. -/
def tick (entry : DelayEntry) : Bool × DelayEntry :=
  if entry.isRequested then
    match entry.remaining with
    | 0 => (false, entry)
    | left + 1 => (left == 0, { entry with remaining := left })
  else (false, entry)

/-- Where the operations lead from a new entry. -/
inductive Reached : DelayEntry → Prop
  | new (remaining : Nat) : Reached { remaining }
  | request {entry : DelayEntry} (before : Reached entry) : Reached entry.request.2
  | deliver {entry : DelayEntry} (output : Bytes) (before : Reached entry) :
      Reached (entry.deliver output).2
  | tick {entry : DelayEntry} (before : Reached entry) : Reached entry.tick.2

/-- An output is there once it has been delivered, and not before. -/
def Lawful (entry : DelayEntry) : Prop := entry.cached.isSome = true ↔ entry.state = .delivered

end DelayEntry

def Stage.state : Stage → DelayState
  | .idle => .notRequested
  | .asked => .requested
  | .filled _ => .delivered

namespace Ticket

/-- The ticket as a flat record. -/
def entry (ticket : Ticket) : DelayEntry :=
  ⟨ticket.stage.state, ticket.remaining, ticket.stage.output?⟩

variable (ticket : Ticket)

theorem isRequested_entry : ticket.entry.isRequested = ticket.isAsked := by
  obtain ⟨remaining, stage⟩ := ticket
  cases stage <;> rfl

theorem request_entry :
    ticket.entry.request = (ticket.ask?.isSome, (ticket.ask?.getD ticket).entry) := by
  obtain ⟨remaining, stage⟩ := ticket
  cases stage <;> rfl

theorem deliver_entry (output : Bytes) :
    ticket.entry.deliver output =
      ((ticket.fill? output).isSome, ((ticket.fill? output).getD ticket).entry) := by
  obtain ⟨remaining, stage⟩ := ticket
  cases stage <;> rfl

theorem tick_entry : ticket.entry.tick = (ticket.isDue, ticket.countDown.entry) := by
  obtain ⟨remaining, stage⟩ := ticket
  cases stage with
  | idle => rfl
  | asked | filled =>
      cases remaining with
      | zero => rfl
      | succ left =>
          simp [DelayEntry.tick, entry, DelayEntry.isRequested, Stage.state, isDue, isAsked,
            countDown]

/-- What a query announces of one pathname, told by the record and what a tick of it reports. -/
theorem announce_entry (pathname : String) :
    Waitlist.announce (pathname, ticket) =
      if ticket.entry.isRequested then
        (if Reserved.listRule? pathname = some .addStranger then [Reserved.stranger] else []) ++
          if ticket.entry.tick.1 && Reserved.listRule? pathname != some .withhold then [pathname]
          else []
      else [] := by
  rw [isRequested_entry, tick_entry]
  unfold Waitlist.announce Waitlist.isReady isDue
  cases ticket.isAsked with
  | false => rfl
  | true => simp

theorem entry_injective (other : Ticket) (same : ticket.entry = other.entry) : ticket = other := by
  obtain ⟨remaining, stage⟩ := ticket
  obtain ⟨count, reached⟩ := other
  cases stage <;> cases reached <;> simp_all [entry, Stage.state, Stage.output?]

end Ticket

namespace DelayEntry

theorem lawful_iff_ticket (entry : DelayEntry) :
    entry.Lawful ↔ ∃ ticket : Ticket, ticket.entry = entry := by
  obtain ⟨state, remaining, cached⟩ := entry
  constructor
  · intro lawful
    cases state with
    | notRequested =>
        obtain rfl : cached = none := by simpa [Lawful] using lawful
        exact ⟨⟨remaining, .idle⟩, rfl⟩
    | requested =>
        obtain rfl : cached = none := by simpa [Lawful] using lawful
        exact ⟨⟨remaining, .asked⟩, rfl⟩
    | delivered =>
        obtain ⟨output, rfl⟩ : ∃ output, cached = some output :=
          Option.isSome_iff_exists.mp (lawful.mpr rfl)
        exact ⟨⟨remaining, .filled output⟩, rfl⟩
  · rintro ⟨⟨count, stage⟩, same⟩
    rw [← same]
    cases stage <;> simp [Lawful, Ticket.entry, Stage.state, Stage.output?]

/-- What can be reached is what a ticket can say. -/
theorem reached_iff_ticket (entry : DelayEntry) :
    entry.Reached ↔ ∃ ticket : Ticket, ticket.entry = entry := by
  constructor
  · intro reached
    induction reached with
    | new remaining => exact ⟨⟨remaining, .idle⟩, rfl⟩
    | request _ ih =>
        obtain ⟨ticket, rfl⟩ := ih
        exact ⟨_, (congrArg Prod.snd ticket.request_entry).symm⟩
    | deliver output _ ih =>
        obtain ⟨ticket, rfl⟩ := ih
        exact ⟨_, (congrArg Prod.snd (ticket.deliver_entry output)).symm⟩
    | tick _ ih =>
        obtain ⟨ticket, rfl⟩ := ih
        exact ⟨_, (congrArg Prod.snd ticket.tick_entry).symm⟩
  · rintro ⟨⟨remaining, stage⟩, rfl⟩
    have started : Reached { remaining } := .new remaining
    cases stage with
    | idle => exact started
    | asked => exact started.request
    | filled output => exact started.request.deliver output

end DelayEntry

end ContentFilter
