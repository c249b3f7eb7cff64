import ContentFilter.Proofs.Turns
import ContentFilter.Service

/-!
Runs that go through the waitlist in any order. An `Iteration` puts the entries in an order of its
own before each packet is heard. Two runs with one iteration meet the same orders at the same
packets; with the order in which pathnames were entered a run is the usual one, `converseIn_entered`
and `attendIn_entered`. A run that goes on from a later packet has the rest of the iteration,
`stirring_since`. Turns are taken in such orders as well, `turnsIn`; what they need of the wire is
how many packets a call has.
-/

namespace ContentFilter

/-- In what order the entries of a waitlist come, each time they are gone through. -/
structure Iteration where
  order : Nat → List (String × Ticket) → List (String × Ticket)
  perm : ∀ time entries, (order time entries).Perm entries

namespace Iteration

/-- As they were entered. -/
def entered : Iteration := ⟨fun _ entries => entries, fun _ entries => .refl entries⟩

/-- Turned round once, before anything is heard. -/
def turned : Iteration where
  order
    | 0, entries => entries.reverse
    | _ + 1, entries => entries
  perm
    | 0, entries => entries.reverse_perm
    | _ + 1, entries => .refl entries

/-- What is left of an iteration when `past` packets have been heard. -/
def since (iteration : Iteration) (past : Nat) : Iteration where
  order time := iteration.order (past + time)
  perm time := iteration.perm (past + time)

end Iteration

/-- How many packets spell the call. -/
def Call.size : Call → Nat
  | .list => 2
  | .file call => call.details.length + 3 + (call.pieces.length + 1)

namespace Memory

def stirred (memory : Memory) (iteration : Iteration) (time : Nat) : Memory :=
  { memory with waitlist := ⟨iteration.order time memory.waitlist.entries⟩ }

/-- As it is after `count` packets from `time` on that change nothing but the order. -/
def stirredFor (memory : Memory) (iteration : Iteration) (time : Nat) : Nat → Memory
  | 0 => memory
  | count + 1 => (memory.stirred iteration time).stirredFor iteration (time + 1) count

/-- One turn whose packets are heard from `time` on. The delay is allowed at the end of the details,
and everything else is decided at the end of the call. -/
def turnIn (memory : Memory) (iteration : Iteration) (time : Nat) : Call → Turn
  | .list => (memory.stirredFor iteration time 2).turn .list
  | .file call =>
      let asked := (memory.stirredFor iteration time (call.details.length + 3)).allowing call
      let heard := asked.stirredFor iteration (time + (call.details.length + 3))
        (call.pieces.length + 1)
      let reply := heard.replyTo call.request
      ⟨.file call, reply, heard.settle call.request reply⟩

def turnsIn (memory : Memory) (iteration : Iteration) (time : Nat) : List Call → List Turn
  | [] => []
  | call :: rest =>
      memory.turnIn iteration time call ::
        match (memory.turnIn iteration time call).failure? with
        | none => turnsIn (memory.turnIn iteration time call).memory iteration
            (time + call.size) rest
        | some _ => []

variable (memory : Memory) (iteration : Iteration) (time : Nat)

theorem stirredFor_add (first more : Nat) :
    memory.stirredFor iteration time (first + more) =
      (memory.stirredFor iteration time first).stirredFor iteration (time + first) more := by
  induction first generalizing memory time with
  | zero => rw [Nat.zero_add, Nat.add_zero, stirredFor]
  | succ first ih =>
      have later : time + (first + 1) = time + 1 + first := by omega
      rw [Nat.succ_add, stirredFor, stirredFor, later]
      exact ih (memory.stirred iteration time) (time + 1)

theorem stirredFor_one : memory.stirredFor iteration time 1 = memory.stirred iteration time := rfl

theorem stirred_entered : memory.stirred .entered time = memory := rfl

theorem stirredFor_entered (count : Nat) : memory.stirredFor .entered time count = memory := by
  induction count generalizing time with
  | zero => rfl
  | succ count ih => exact ih (time + 1)

theorem turnIn_entered (call : Call) : memory.turnIn .entered time call = memory.turn call := by
  cases call with
  | list => rfl
  | file call => simp only [turnIn, stirredFor_entered, turn]

theorem turnsIn_entered (calls : List Call) :
    memory.turnsIn .entered time calls = memory.turns calls := by
  induction calls generalizing memory time with
  | nil => rfl
  | cons call rest ih =>
      rw [turnsIn, turns, turnIn_entered]
      cases (memory.turn call).failure? with
      | none => exact congrArg _ (ih (memory.turn call).memory (time + call.size))
      | some failure => rfl

end Memory

namespace Next

variable {Phase Other : Type}

def map (place : Phase → Other) : Next Phase → Next Other
  | .await phase => .await (place phase)
  | .finish => .finish
  | .fail failure => .fail failure

def timed (time : Nat) : Next Phase → Next (Nat × Phase)
  | .await phase => .await (time, phase)
  | .finish => .finish
  | .fail failure => .fail failure

end Next

/-- Two dialogues are one if they do and await the same, each in phases of its own. -/
theorem Dialogue.converse_map {Phase Other : Type} (one : Dialogue Phase) (two : Dialogue Other)
    (place : Phase → Other) (parts : ∀ phase, two.hangUp (place phase) = one.hangUp phase)
    (performs : ∀ desk phase packet,
      Effect.performAll (two.hear desk.memory (place phase) packet).effects desk =
        Effect.performAll (one.hear desk.memory phase packet).effects desk)
    (awaits : ∀ memory phase packet, (two.hear memory (place phase) packet).next =
      (one.hear memory phase packet).next.map place)
    (phase : Phase) (source : Source) (desk : Desk) :
    two.converse (place phase) source desk = one.converse phase source desk := by
  induction size : source.unread using Nat.strongRecOn generalizing phase source desk with
  | ind unread ih =>
  cases next : source.next with
  | mk outcome rest =>
  cases outcome with
  | error failure =>
      rw [converse_fault _ _ source rest desk failure next,
        converse_fault _ _ source rest desk failure next]
  | ok found =>
  cases found with
  | none =>
      rw [converse_closed _ _ source rest desk next, converse_closed _ _ source rest desk next,
        parts]
  | some packet =>
      have shorter := Source.next_shrinks source rest packet next
      simp only [Packet.headerSize] at shorter
      rw [converse_packet _ _ source rest desk packet next,
        converse_packet _ _ source rest desk packet next]
      simp only [react, performs, awaits]
      cases Effect.performAll (one.hear desk.memory phase packet).effects desk with
      | halted failure after => rfl
      | on after =>
          cases (one.hear desk.memory phase packet).next with
          | finish => rfl
          | fail failure => rfl
          | await further => exact ih rest.unread (by omega) further rest after rfl

namespace Exchange

/-- The exchange, its entries put in order before each packet is heard. -/
def stirring (iteration : Iteration) : Dialogue (Nat × Phase) where
  hear memory now packet :=
    let stirred := memory.stirred iteration now.1
    let reaction := hear stirred now.2 packet
    { effects := .remember stirred :: reaction.effects
      next := reaction.next.timed (now.1 + 1) }
  hangUp now := hangUp now.2

theorem stirring_hear (iteration : Iteration) (memory : Memory) (time : Nat) (phase : Phase)
    (packet : Packet) :
    (stirring iteration).hear memory (time, phase) packet =
      { effects := .remember (memory.stirred iteration time) ::
          (hear (memory.stirred iteration time) phase packet).effects
        next := (hear (memory.stirred iteration time) phase packet).next.timed (time + 1) } := rfl

def converseIn (iteration : Iteration) (source : Source) (desk : Desk) : Ending :=
  (stirring iteration).converse (0, .command) source desk

theorem stirring_entered (time : Nat) (phase : Phase) (source : Source) (desk : Desk) :
    (stirring .entered).converse (time, phase) source desk =
      dialogue.converse phase source desk := by
  refine ((stirring .entered).converse_map dialogue Prod.snd (fun _ => rfl) ?_ ?_
    (time, phase) source desk).symm
  -- What is remembered first is what the memory was already.
  · exact fun _ _ _ => rfl
  · rintro memory ⟨time, phase⟩ packet
    rw [stirring_hear, Memory.stirred_entered]
    change (hear memory phase packet).next = _
    cases (hear memory phase packet).next <;> rfl

theorem converseIn_entered (source : Source) (desk : Desk) :
    converseIn .entered source desk = converse source desk :=
  stirring_entered 0 .command source desk

theorem stirring_since (iteration : Iteration) (past time : Nat) (phase : Phase)
    (source : Source) (desk : Desk) :
    (stirring (iteration.since past)).converse (time, phase) source desk =
      (stirring iteration).converse (past + time, phase) source desk := by
  refine ((stirring (iteration.since past)).converse_map (stirring iteration)
    (fun now => (past + now.1, now.2)) (fun _ => rfl) (fun _ _ _ => rfl) ?_
    (time, phase) source desk).symm
  rintro memory ⟨time, phase⟩ packet
  have same : memory.stirred (iteration.since past) time =
      memory.stirred iteration (past + time) := rfl
  rw [stirring_hear, stirring_hear, same]
  cases (hear (memory.stirred iteration (past + time)) phase packet).next <;> rfl

end Exchange

namespace Service

/-- A session that goes through the waitlist as `iteration` says. -/
def attendIn (iteration : Iteration) (setup : Setup) (source : Source) (sink : Sink)
    (journal : Journal) : Ending :=
  (noting .started source ⟨setup.memory, sink, journal⟩)
    |>.andThen (greet requiredCapabilities setup.offered)
    |>.andThen (noting .greeted)
    |>.andThen (Exchange.converseIn iteration)

theorem attendIn_entered (setup : Setup) (source : Source) (sink : Sink) (journal : Journal) :
    attendIn .entered setup source sink journal = attend setup source sink journal := by
  have usual : Exchange.converseIn .entered = Exchange.converse := by
    funext source desk
    exact Exchange.converseIn_entered source desk
  rw [attendIn, usual, attend]

end Service

end ContentFilter
