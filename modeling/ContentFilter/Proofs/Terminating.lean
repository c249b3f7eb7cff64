import ContentFilter.Proofs.Truncation
import Mathlib.Data.Prod.Lex
import Mathlib.Order.WellFounded

/-!
Why every run comes to its end. A read call takes a byte, uses up an interruption or is the last
one, so a buffer is filled after finitely many of them (`take_fills`). A packet that a dialogue goes
on behind has cost its header at least, an empty one too, and everything else that is done uses up
effects: one rank falls at every step (`step_descends`), whatever the channel, the outlets and the
journal refuse. From the bytes alone one can tell how many packets are asked for at most.
-/

namespace ContentFilter

namespace Source

theorem length_bytes (source : Source) : source.bytes.length = source.unread := by
  induction source with
  | nil => rfl
  | cons arrival later ih =>
      rw [unread, ← ih]
      cases arrival <;> simp [bytes, Arrival.size]

/-! ### Read calls -/

/-- What one read call comes back with. -/
inductive Delivery where
  /-- At least one byte. -/
  | bytes (piece : Bytes)
  | interrupted
  | failed (reason : String)
  | ended
  deriving DecidableEq, Repr

/-- One read call, with room for this many bytes. -/
def deliver (room : Nat) : Source → Delivery × Source
  | [] => (.ended, [])
  | .pause :: later => (.interrupted, later)
  | .fault reason :: later => (.failed reason, later)
  | .bytes piece :: later =>
      if piece = [] then deliver room later
      else (.bytes (piece.take room), leave (piece.drop room) later)

/-- Read calls are made until `want` bytes have joined `got`: so many of them, with this outcome.
The end of the arrivals and a failure are the last call. -/
inductive Fills : Bytes → Nat → Source → Nat → Except String Bytes × Source → Prop
  | full {got : Bytes} {source : Source} : Fills got 0 source 0 (.ok got, source)
  | ended {got : Bytes} {want : Nat} {source rest : Source}
      (call : source.deliver (want + 1) = (.ended, rest)) :
      Fills got (want + 1) source 1 (.ok got, rest)
  | failed {got : Bytes} {want : Nat} {source rest : Source} {reason : String}
      (call : source.deliver (want + 1) = (.failed reason, rest)) :
      Fills got (want + 1) source 1 (.error reason, rest)
  | interrupted {got : Bytes} {want calls : Nat} {source rest : Source}
      {outcome : Except String Bytes × Source}
      (call : source.deliver (want + 1) = (.interrupted, rest))
      (more : Fills got (want + 1) rest calls outcome) :
      Fills got (want + 1) source (calls + 1) outcome
  | filled {got piece : Bytes} {want calls : Nat} {source rest : Source}
      {outcome : Except String Bytes × Source}
      (call : source.deliver (want + 1) = (.bytes piece, rest))
      (more : Fills (got ++ piece) (want + 1 - piece.length) rest calls outcome) :
      Fills got (want + 1) source (calls + 1) outcome

-- A piece without bytes is not delivered by a call of its own.
theorem fills_skip (got : Bytes) (want calls : Nat) (later : Source)
    (outcome : Except String Bytes × Source)
    (fills : Fills got (want + 1) later calls outcome) :
    Fills got (want + 1) (.bytes [] :: later) calls outcome := by
  have skipped : deliver (want + 1) (.bytes [] :: later) = deliver (want + 1) later := rfl
  cases fills with
  | ended call => exact .ended (skipped.trans call)
  | failed call => exact .failed (skipped.trans call)
  | interrupted call more => exact .interrupted (skipped.trans call) more
  | filled call more => exact .filled (skipped.trans call) more

/-- Every call but the last takes a byte or an interruption away. -/
theorem gather_fills (got : Array UInt8) (want : Nat) (source : Source) :
    ∃ calls, Fills got.toList want source calls
        ((gather got want source).1.map Array.toList, (gather got want source).2) ∧
      calls ≤ min want source.unread + source.count .pause + 1 := by
  induction source generalizing got want with
  | nil =>
      cases want with
      | zero => exact ⟨0, .full, by omega⟩
      | succ want => exact ⟨1, .ended rfl, by omega⟩
  | cons arrival later ih =>
      cases want with
      | zero => exact ⟨0, .full, by omega⟩
      | succ want =>
          cases arrival with
          | fault reason => exact ⟨1, .failed rfl, by omega⟩
          | pause =>
              obtain ⟨calls, fills, few⟩ := ih got (want + 1)
              refine ⟨calls + 1, .interrupted rfl fills, ?_⟩
              have same : unread (.pause :: later) = unread later := Nat.zero_add _
              rw [same, List.count_cons_self]
              omega
          | bytes piece =>
              rw [unread, Arrival.size, List.count_cons_of_ne (by simp)]
              by_cases short : (piece.take (want + 1)).length ≤ want
              · have small : piece.length ≤ want := by
                  rw [List.length_take] at short
                  omega
                have whole : piece.take (want + 1) = piece := List.take_of_length_le (by omega)
                simp only [gather, whole, small, ↓reduceIte]
                obtain ⟨calls, fills, few⟩ := ih (got ++ piece) (want + 1 - piece.length)
                rw [Array.toList_appendList] at fills
                by_cases empty : piece = []
                · subst empty
                  rw [List.append_nil] at fills
                  exact ⟨calls, fills_skip _ _ _ _ _ fills, by simpa using few⟩
                · have some : 0 < piece.length := List.length_pos_iff.mpr empty
                  have call : deliver (want + 1) (.bytes piece :: later) =
                      (.bytes piece, later) := by
                    rw [deliver, if_neg empty, whole, List.drop_of_length_le (by omega)]
                    rfl
                  exact ⟨calls + 1, .filled call fills, by omega⟩
              · simp only [gather, short, ↓reduceIte]
                have full : (piece.take (want + 1)).length = want + 1 := by
                  rw [List.length_take] at short ⊢
                  omega
                have some : piece ≠ [] := by
                  rintro rfl
                  simp at full
                have call : deliver (want + 1) (.bytes piece :: later) =
                    (.bytes (piece.take (want + 1)), leave (piece.drop (want + 1)) later) := by
                  rw [deliver, if_neg some]
                refine ⟨0 + 1, .filled call ?_, by omega⟩
                rw [full, Nat.sub_self, Except.map, Array.toList_appendList]
                exact .full

theorem take_fills (want : Nat) (source : Source) :
    ∃ calls, Fills [] want source calls (source.take want) ∧
      calls ≤ min want source.bytes.length + source.count .pause + 1 := by
  obtain ⟨calls, fills, few⟩ := gather_fills #[] want source
  rw [length_bytes]
  refine ⟨calls, ?_, few⟩
  unfold take
  split <;> rename_i gathered <;> rwa [gathered] at fills

end Source

namespace Activity

variable {Phase : Type}

/-- Another packet may be asked for. -/
def goesOn : Activity Phase → Bool
  | .reading _ | .reacting _ (.await _) => true
  | .reacting _ _ | .ended _ => false

/-- What is still to be done without reading. -/
def work : Activity Phase → Nat
  | .reading _ | .ended _ => 0
  | .reacting effects _ => effects.length + 1

theorem goesOn_reacting (effects : List Effect) (next : Next Phase) :
    (Activity.reacting effects next).goesOn = next.activity.goesOn := by
  cases next <;> rfl

theorem work_next (next : Next Phase) : next.activity.work = 0 := by
  cases next <;> rfl

end Activity

theorem Farewell.not_goesOn {Phase : Type} (farewell : Farewell) (effects : List Effect) :
    (Activity.reacting effects (farewell.next : Next Phase)).goesOn = false := by
  unfold Farewell.next
  cases farewell.failure? <;> rfl

namespace Instant

variable {Phase : Type}

/-- The bytes that may still be read, and one for the read that finds none. -/
def budget (now : Instant Phase) : Nat :=
  if now.activity.goesOn then now.source.unread + 1 else 0

/-- The work comes second: a read makes new work. -/
def rank (now : Instant Phase) : Nat ×ₗ Nat := toLex (now.budget, now.activity.work)

/-- It is about to ask for a packet. -/
def asks (now : Instant Phase) : Bool := now.activity.phase?.isSome

theorem asks_iff (now : Instant Phase) : now.asks ↔ ∃ phase, now.activity = .reading phase := by
  rw [asks, Option.isSome_iff_exists]
  simp only [Activity.phase?_eq_some_iff]

theorem goesOn_of_asks (now : Instant Phase) (asks : now.asks) : now.activity.goesOn := by
  obtain ⟨phase, reading⟩ := now.asks_iff.mp asks
  rw [reading]
  rfl

end Instant

namespace Dialogue

variable {Phase : Type} {dialogue : Dialogue Phase}

/-! ### What a step costs -/

theorem step_without_read (now later : Instant Phase) (step : dialogue.Step now later)
    (silent : now.asks = false) :
    later.source = now.source ∧ later.activity.work < now.activity.work ∧
      (later.activity.goesOn → now.activity.goesOn) := by
  cases step with
  | fault | closed | packet => cases silent
  | performed went =>
      rw [Activity.goesOn_reacting, Activity.goesOn_reacting]
      exact ⟨rfl, Nat.lt_succ_self _, id⟩
  | halted went => exact ⟨rfl, Nat.succ_pos _, fun onward => by cases onward⟩
  | settled =>
      rw [Activity.goesOn_reacting, Activity.work_next]
      exact ⟨rfl, Nat.succ_pos _, id⟩

/-- It goes on behind a read only if a packet was read, which has cost its header. -/
theorem step_behind_read (now later : Instant Phase) (step : dialogue.Step now later)
    (asks : now.asks) (onward : later.activity.goesOn) :
    (∃ packet, now.source.next = (.ok (some packet), later.source)) ∧
      later.source.unread + 4 ≤ now.source.unread := by
  cases step with
  | fault read => cases onward
  | closed read =>
      rw [Farewell.not_goesOn] at onward
      cases onward
  | packet read => exact ⟨⟨_, read⟩, Source.next_shrinks _ _ _ read⟩
  | performed | halted | settled => cases asks

theorem step_goesOn (now later : Instant Phase) (step : dialogue.Step now later)
    (onward : later.activity.goesOn) :
    now.activity.goesOn ∧ later.source.unread ≤ now.source.unread := by
  cases silent : now.asks with
  | false =>
      obtain ⟨same, _, back⟩ := step_without_read now later step silent
      exact ⟨back onward, Nat.le_of_eq (congrArg _ same)⟩
  | true =>
      obtain ⟨_, paid⟩ := step_behind_read now later step silent onward
      exact ⟨now.goesOn_of_asks silent, by omega⟩

theorem steps_goesOn (now later : Instant Phase) (steps : dialogue.Steps now later)
    (onward : later.activity.goesOn) :
    now.activity.goesOn ∧ later.source.unread ≤ now.source.unread := by
  induction steps using Relation.ReflTransGen.head_induction_on with
  | refl => exact ⟨onward, Nat.le_refl _⟩
  | head step _ ih =>
      obtain ⟨here, fewer⟩ := step_goesOn _ _ step ih.1
      exact ⟨here, by omega⟩

theorem step_descends (now later : Instant Phase) (step : dialogue.Step now later) :
    later.rank < now.rank := by
  have fewer : later.budget ≤ now.budget := by
    unfold Instant.budget
    split
    · rename_i onward
      obtain ⟨here, fewer⟩ := step_goesOn now later step onward
      rw [if_pos here]
      omega
    · exact Nat.zero_le _
  refine Prod.Lex.toLex_lt_toLex'.mpr ⟨fewer, fun same => ?_⟩
  cases silent : now.asks with
  | false => exact (step_without_read now later step silent).2.1
  -- A read uses up bytes, or it is the last one.
  | true =>
      have here := now.goesOn_of_asks silent
      simp only [Instant.budget, here, ↓reduceIte] at same
      split at same
      · rename_i onward
        have paid := (step_behind_read now later step silent onward).2
        omega
      · omega

theorem not_endless (run : Nat → Instant Phase) :
    ∃ count, ¬dialogue.Step (run count) (run (count + 1)) := by
  obtain ⟨count, stays⟩ :=
    WellFounded.not_rel_apply_succ (r := (· < ·)) fun count => (run count).rank
  exact ⟨count, fun step => stays (step_descends _ _ step)⟩

/-! ### How many packets are asked for -/

/-- What has been asked for is paid for, but for the last packet. -/
theorem traces_asks (start now : Instant Phase) (past : List (Instant Phase))
    (traces : dialogue.Traces start past now) :
    if now.activity.goesOn then 4 * past.countP (·.asks) + now.source.unread ≤ start.source.unread
    else 4 * past.countP (·.asks) ≤ start.source.unread + 4 := by
  induction traces with
  | here => split <;> simp
  | @onward past now later before step ih =>
      rw [List.countP_append, List.countP_singleton]
      by_cases asks : now.asks
      · rw [if_pos (now.goesOn_of_asks asks)] at ih
        rw [if_pos asks]
        by_cases onward : later.activity.goesOn
        · have paid := (step_behind_read now later step asks onward).2
          rw [if_pos onward]
          omega
        · rw [if_neg onward]
          omega
      · rw [if_neg asks]
        obtain ⟨same, _, back⟩ := step_without_read now later step (Bool.eq_false_iff.mpr asks)
        by_cases onward : later.activity.goesOn
        · rw [if_pos (back onward)] at ih
          rw [if_pos onward, same]
          exact ih
        · rw [if_neg onward]
          split at ih <;> omega

theorem step_unread (now later : Instant Phase) (step : dialogue.Step now later) :
    later.source.bytes <:+ now.source.bytes := by
  cases step with
  | @fault phase heard source _ _ _ read | @closed phase heard source _ _ read
  | @packet phase heard source _ _ _ read =>
      have behind := source.next_suffix
      rwa [read] at behind
  | performed | halted | settled => exact List.suffix_rfl

theorem steps_unread (now later : Instant Phase) (steps : dialogue.Steps now later) :
    later.source.bytes <:+ now.source.bytes := by
  apply steps.keep (fun instant => instant.source.bytes <:+ now.source.bytes) List.suffix_rfl
  intro first second step behind
  exact (step_unread first second step).trans behind

/-- A run that comes to this ending, with what it costs. -/
structure Terminates (dialogue : Dialogue Phase) (start : Instant Phase) (ending : Ending) :
    Prop where
  returns : ∃ past last, dialogue.Traces start past last ∧ last.ending? = some ending
  /-- From no instant, reached or not, the steps lead on for ever. -/
  unfolds : ∀ run : Nat → Instant Phase, ∃ count, ¬dialogue.Step (run count) (run (count + 1))
  asksFew : ∀ past now, dialogue.Traces start past now →
    past.countP (·.asks) ≤ start.source.bytes.length / 4 + 1
  /-- A packet is asked for behind another one only if that one has cost four bytes, whatever is
  in it. -/
  costs : ∀ asking behind later, dialogue.Step asking behind → asking.asks →
    dialogue.Steps behind later → later.asks →
      (∃ packet, asking.source.next = (.ok (some packet), behind.source)) ∧
        later.source.bytes.length + 4 ≤ asking.source.bytes.length
  /-- Behind the end of the arrivals nothing is asked for, in whatever phase it is met. -/
  closes : ∀ asking behind later, dialogue.Step asking behind → asking.asks →
    asking.source.next.1 = .ok none → dialogue.Steps behind later → later.asks = false
  /-- What comes behind the run has no more bytes to read than the run had. -/
  leaves : ending.source.bytes <:+ start.source.bytes

variable (dialogue)

theorem terminates (phase : Phase) (source : Source) (desk : Desk) :
    dialogue.Terminates (.start phase source desk) (dialogue.converse phase source desk) := by
  have costs (asking behind later : Instant Phase) (step : dialogue.Step asking behind)
      (asks : asking.asks) (steps : dialogue.Steps behind later) (again : later.asks) :
      (∃ packet, asking.source.next = (.ok (some packet), behind.source)) ∧
        later.source.bytes.length + 4 ≤ asking.source.bytes.length := by
    obtain ⟨onward, fewer⟩ := steps_goesOn behind later steps (later.goesOn_of_asks again)
    obtain ⟨read, paid⟩ := step_behind_read asking behind step asks onward
    rw [Source.length_bytes, Source.length_bytes]
    exact ⟨read, by omega⟩
  obtain ⟨last, steps, ended⟩ := steps_converse dialogue phase [] source desk
  refine ⟨?_, not_endless, ?_, costs, ?_, ?_⟩
  · obtain ⟨past, traces⟩ := (steps_iff_traces _ _).mp steps
    exact ⟨past, last, traces, ended⟩
  · intro past now traces
    have asked := traces_asks _ now past traces
    rw [Source.length_bytes]
    split at asked <;> omega
  · intro asking behind later step asks closed steps
    cases again : later.asks with
    | false => rfl
    | true =>
        obtain ⟨⟨packet, read⟩, _⟩ := costs asking behind later step asks steps again
        rw [read] at closed
        cases closed
  · obtain ⟨_, left, _⟩ := (last.ending?_eq_some_iff _).mp ended
    rw [← left]
    exact steps_unread _ last steps

end Dialogue

/-- The greeting with its list of capabilities and the exchange with its requests, their details
and their content come to an end on any source, whatever the outlets refuse, and so does the filling
of a buffer. -/
theorem Service.dialogues_terminate (required offered : List Capability) (source : Source)
    (desk : Desk) :
    (Greeting.dialogue required offered).Terminates (.start .identity source desk)
        (Service.greet required offered source desk) ∧
      Exchange.dialogue.Terminates (.start .command source desk) (Exchange.converse source desk) ∧
      ∀ want, ∃ calls, Source.Fills [] want source calls (source.take want) ∧
        calls ≤ min want source.bytes.length + source.count .pause + 1 :=
  ⟨(Greeting.dialogue required offered).terminates .identity source desk,
    Exchange.dialogue.terminates .command source desk, fun want => source.take_fills want⟩

end ContentFilter
