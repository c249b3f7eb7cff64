import ContentFilter.Proofs.Reading
import ContentFilter.Dialogue

/-!
Effects on a desk that refuses nothing. Such a desk carries out every list of effects, so all that
matters is which packets the effects send, which remarks they note and what they remember;
`performAll_free` says so, and `converse_step` says it of one step of a dialogue. Moves of a desk
are put together by `Moves.trans`.
-/

namespace ContentFilter

namespace Journal

theorem adds_writeAll (texts : List String) (journal : Journal)
    (free : journal.file.room = none) :
    Adds journal (texts.flatMap Text.bytes) (writeAll texts journal) := by
  induction texts generalizing journal with
  | nil => exact ⟨free, rfl, by simp⟩
  | cons text rest ih =>
      rw [List.flatMap_cons]
      exact adds_andThen journal _ _ _ (writeAll rest) (adds_write _ journal free)
        fun reached _ room => ih reached room

theorem adds_note (remark : Remark) (journal : Journal) (free : journal.file.room = none) :
    Adds journal remark.bytes (journal.note remark) := by
  have noted := adds_writeAll remark.texts journal free
  unfold note
  dsimp only
  split
  · have drained := adds_andThen journal _ [] _ drain noted
      fun reached _ room => adds_drain reached room
    rwa [List.append_nil] at drained
  · exact noted

theorem close_contents (journal : Journal) (free : journal.file.room = none) :
    journal.close.contents = journal.text := by
  obtain ⟨file, drained, _, contents⟩ := drain_free journal free
  rw [close, drained]
  exact contents

end Journal

namespace Sink

/-- The channel takes every byte and every flush call succeeds. -/
structure Free (sink : Sink) : Prop where
  room : sink.outlet.room = none
  pushes : sink.flushFault = none

/-- `raw` went out behind everything in `before`, and more can be sent. -/
def Sends (before : Sink) (raw : Bytes) : Progress Sink → Prop
  | .on after => after.Free ∧ after.outlet.contents = before.outlet.contents ++ raw
  | .halted _ _ => False

theorem Sends.on {before : Sink} {raw : Bytes} {progress : Progress Sink}
    (sends : Sends before raw progress) :
    ∃ after, progress = .on after ∧ after.Free ∧
      after.outlet.contents = before.outlet.contents ++ raw := by
  cases progress with
  | on after => exact ⟨after, rfl, sends⟩
  | halted => exact sends.elim

theorem Sends.trans {before middle after : Sink} {first second : Bytes}
    (here : Sends before first (.on middle)) (there : Sends middle second (.on after)) :
    Sends before (first ++ second) (.on after) :=
  ⟨there.1, by rw [there.2, here.2, List.append_assoc]⟩

theorem sends_write (raw : Bytes) (sink : Sink) (free : sink.Free) :
    Sends sink raw (sink.write raw) := by
  obtain ⟨outlet, written, room, contents⟩ := write_free sink raw free.room
  rw [written]
  exact ⟨⟨room, free.pushes⟩, contents⟩

theorem sends_send (payload : Bytes) (sink : Sink) (free : sink.Free)
    (fits : payload.length ≤ Packet.maxPayload) :
    Sends sink (Packet.data payload).encode (sink.send payload) := by
  have legal : ¬ Packet.maxPayload < payload.length := Nat.not_lt.mpr fits
  simp only [send, legal, ↓reduceIte]
  exact sends_write _ sink free

theorem sends_flush (sink : Sink) (free : sink.Free) :
    Sends sink Packet.flush.encode sink.flush := by
  obtain ⟨outlet, written, room, contents⟩ :=
    write_free sink Packet.flush.encode free.room
  have pushes := free.pushes
  simp only [flush, written, Progress.on_andThen, push, pushes]
  exact ⟨⟨room, rfl⟩, contents⟩

end Sink

namespace Effect

def packets : Effect → List Packet
  | .send payload => [.data payload]
  | .flush => [.flush]
  | .note _ | .remember _ => []

def remarks : Effect → List Remark
  | .note remark => [remark]
  | .send _ | .flush | .remember _ => []

/-- What is remembered after the effect, given what was before. -/
def recallOne (memory : Memory) : Effect → Memory
  | .remember memory => memory
  | .send _ | .flush | .note _ => memory

def recallAll (memory : Memory) (effects : List Effect) : Memory := effects.foldl recallOne memory

end Effect

namespace Desk

/-- Neither the channel nor the journal will refuse anything. -/
structure Free (desk : Desk) : Prop where
  sink : desk.sink.Free
  journal : desk.journal.file.room = none

/-- On the way from `before` to `after`, `packets` were sent and `remarks` noted; `after`
remembers `memory` and can go on. -/
structure Moves (before : Desk) (packets : List Packet) (remarks : List Remark)
    (memory : Memory) (after : Desk) : Prop where
  free : after.Free
  sent : after.sink.outlet.contents =
    before.sink.outlet.contents ++ Packet.encodeAll packets
  noted : after.journal.text = before.journal.text ++ remarks.flatMap Remark.bytes
  remembered : after.memory = memory

theorem moves_remembering (desk : Desk) (free : desk.Free) (memory : Memory) :
    desk.Moves [] [] memory { desk with memory } :=
  ⟨⟨free.sink, free.journal⟩, by simp [Packet.encodeAll], by simp, rfl⟩

theorem moves_refl (desk : Desk) (free : desk.Free) : desk.Moves [] [] desk.memory desk :=
  desk.moves_remembering free desk.memory

theorem Moves.trans {before middle after : Desk} {first second : List Packet}
    {early late : List Remark} {memory memory' : Memory}
    (here : before.Moves first early memory middle)
    (there : middle.Moves second late memory' after) :
    before.Moves (first ++ second) (early ++ late) memory' after where
  free := there.free
  sent := by rw [there.sent, here.sent, Packet.encodeAll_append, List.append_assoc]
  noted := by rw [there.noted, here.noted, List.flatMap_append, List.append_assoc]
  remembered := there.remembered

end Desk

namespace Effect

theorem perform_free (effect : Effect) (desk : Desk) (free : desk.Free)
    (fits : ∀ payload, effect = .send payload → payload.length ≤ Packet.maxPayload) :
    ∃ after, effect.perform desk = .on after ∧
      desk.Moves effect.packets effect.remarks (effect.recallOne desk.memory) after := by
  cases effect with
  | send payload =>
      obtain ⟨sink, went, further, sent⟩ :=
        (Sink.sends_send payload desk.sink free.sink (fits payload rfl)).on
      refine ⟨{ desk with sink }, by simp [perform, went, Progress.map],
        ⟨further, free.journal⟩, ?_, by simp [remarks], rfl⟩
      simpa [packets, Packet.encodeAll] using sent
  | flush =>
      obtain ⟨sink, went, further, sent⟩ := (Sink.sends_flush desk.sink free.sink).on
      refine ⟨{ desk with sink }, by simp [perform, went, Progress.map],
        ⟨further, free.journal⟩, ?_, by simp [remarks], rfl⟩
      simpa [packets, Packet.encodeAll] using sent
  | note remark =>
      have noted := Journal.adds_note remark desk.journal free.journal
      cases went : desk.journal.note remark with
      | halted failure journal => simp [went, Journal.Adds] at noted
      | on journal =>
          rw [went] at noted
          refine ⟨{ desk with journal }, by simp [perform, went, Progress.map],
            ⟨free.sink, noted.1⟩, by simp [packets, Packet.encodeAll], ?_, rfl⟩
          simpa [remarks] using noted.2.2
  | remember memory =>
      exact ⟨{ desk with memory }, rfl, ⟨free.sink, free.journal⟩,
        by simp [packets, Packet.encodeAll], by simp [remarks], rfl⟩

theorem recallAll_notes (memory : Memory) (remarks : List Remark) :
    recallAll memory (remarks.map .note) = memory := by
  induction remarks with
  | nil => rfl
  | cons remark rest ih => exact ih

theorem packets_notes (remarks : List Remark) : (remarks.map note).flatMap packets = [] := by
  simp [packets]

theorem remarks_notes (noted : List Remark) : (noted.map note).flatMap remarks = noted := by
  simp [List.flatMap_map, remarks]

theorem packets_sends (payloads : List Bytes) :
    (payloads.map send).flatMap packets = payloads.map .data := by
  induction payloads with
  | nil => rfl
  | cons payload rest ih => exact congrArg (List.cons (Packet.data payload)) ih

theorem remarks_sends (payloads : List Bytes) : (payloads.map send).flatMap remarks = [] := by
  induction payloads with
  | nil => rfl
  | cons payload rest ih => exact ih

theorem recallAll_sends (memory : Memory) (payloads : List Bytes) :
    recallAll memory (payloads.map send) = memory := by
  induction payloads with
  | nil => rfl
  | cons payload rest ih => exact ih

theorem recallAll_append (memory : Memory) (first second : List Effect) :
    recallAll memory (first ++ second) = recallAll (recallAll memory first) second :=
  List.foldl_append

theorem performAll_free (effects : List Effect) (desk : Desk) (free : desk.Free)
    (fits : ∀ payload, .send payload ∈ effects → payload.length ≤ Packet.maxPayload) :
    ∃ after, performAll effects desk = .on after ∧
      desk.Moves (effects.flatMap packets) (effects.flatMap remarks)
        (recallAll desk.memory effects) after := by
  induction effects generalizing desk with
  | nil => exact ⟨desk, rfl, desk.moves_refl free⟩
  | cons effect rest ih =>
      obtain ⟨middle, performed, moved⟩ := perform_free effect desk free
        fun payload same => fits payload (by simp [same])
      obtain ⟨after, later, further⟩ := ih middle moved.free
        fun payload member => fits payload (List.mem_cons_of_mem effect member)
      refine ⟨after, by simp only [performAll, performed, Progress.on_andThen, later], ?_⟩
      rw [moved.remembered] at further
      simpa only [List.flatMap_cons, recallAll, List.foldl_cons] using moved.trans further

/-- Effects that note nothing do not depend on the journal. -/
theorem performAll_silent (effects : List Effect) (desk : Desk) (free : desk.sink.Free)
    (fits : ∀ payload, .send payload ∈ effects → payload.length ≤ Packet.maxPayload)
    (silent : ∀ remark, .note remark ∉ effects) :
    ∃ sink, performAll effects desk = .on ⟨recallAll desk.memory effects, sink, desk.journal⟩ ∧
      desk.sink.Sends (Packet.encodeAll (effects.flatMap packets)) (.on sink) := by
  induction effects generalizing desk with
  | nil => exact ⟨desk.sink, rfl, free, by simp [Packet.encodeAll]⟩
  | cons effect rest ih =>
      have later (middle : Desk) (middleFree : middle.sink.Free) := ih middle middleFree
        (fun payload member => fits payload (List.mem_cons_of_mem effect member))
        (fun remark member => silent remark (List.mem_cons_of_mem effect member))
      rw [List.flatMap_cons, Packet.encodeAll_append]
      cases effect with
      | send payload =>
          obtain ⟨middle, went, sent⟩ :=
            (Sink.sends_send payload desk.sink free (fits payload List.mem_cons_self)).on
          obtain ⟨sink, performed, further⟩ := later { desk with sink := middle } sent.1
          refine ⟨sink, ?_, Sink.Sends.trans ?_ further⟩
          · simp only [performAll, perform, went, Progress.map, Progress.on_andThen, performed]
            rfl
          · simpa [packets, Packet.encodeAll, Sink.Sends] using sent
      | flush =>
          obtain ⟨middle, went, sent⟩ := (Sink.sends_flush desk.sink free).on
          obtain ⟨sink, performed, further⟩ := later { desk with sink := middle } sent.1
          refine ⟨sink, ?_, Sink.Sends.trans ?_ further⟩
          · simp only [performAll, perform, went, Progress.map, Progress.on_andThen, performed]
            rfl
          · simpa [packets, Packet.encodeAll, Sink.Sends] using sent
      | note remark => exact absurd List.mem_cons_self (silent remark)
      | remember memory =>
          obtain ⟨sink, performed, further⟩ := later { desk with memory } free
          exact ⟨sink, performed, further⟩

end Effect

namespace Dialogue

variable {Phase : Type}

/-- What a dialogue does once the effects of a reaction have been carried out. -/
def proceed (dialogue : Dialogue Phase) (next : Next Phase) (source : Source) (desk : Desk) :
    Ending :=
  match next with
  | .fail failure => ⟨some failure, source, desk⟩
  | .finish => ⟨none, source, desk⟩
  | .await phase => dialogue.converse phase source desk

/-- One packet is read and reacted to. -/
theorem converse_step (dialogue : Dialogue Phase) (phase : Phase) (source rest : Source)
    (desk : Desk) (packet : Packet) (effects : List Effect) (next : Next Phase)
    (read : source.next = (.ok (some packet), rest))
    (heard : dialogue.hear desk.memory phase packet = ⟨effects, next⟩) (free : desk.Free)
    (fits : ∀ payload, .send payload ∈ effects → payload.length ≤ Packet.maxPayload) :
    ∃ after, desk.Moves (effects.flatMap Effect.packets) (effects.flatMap Effect.remarks)
        (Effect.recallAll desk.memory effects) after ∧
      dialogue.converse phase source desk = dialogue.proceed next rest after := by
  obtain ⟨after, performed, moved⟩ := Effect.performAll_free effects desk free fits
  refine ⟨after, moved, ?_⟩
  rw [converse_packet dialogue phase source rest desk packet read, heard]
  cases next <;> simp only [react, performed, proceed]

/-- A packet that is only noted moves nothing but the journal. -/
theorem converse_noting (dialogue : Dialogue Phase) (phase : Phase) (source rest : Source)
    (desk : Desk) (packet : Packet) (remarks : List Remark) (next : Next Phase)
    (read : source.next = (.ok (some packet), rest))
    (heard : dialogue.hear desk.memory phase packet = ⟨remarks.map .note, next⟩)
    (free : desk.Free) :
    ∃ after, desk.Moves [] remarks desk.memory after ∧
      dialogue.converse phase source desk = dialogue.proceed next rest after := by
  obtain ⟨after, moved, step⟩ := converse_step dialogue phase source rest desk packet _ next
    read heard free (by simp)
  rw [Effect.packets_notes, Effect.remarks_notes, Effect.recallAll_notes] at moved
  exact ⟨after, moved, step⟩

theorem converse_stops (dialogue : Dialogue Phase) (phase : Phase)
    (objection? : Option Packet → Option Violation)
    (hears : ∀ memory packet what, objection? (some packet) = some what →
      dialogue.hear memory phase packet = .violation what)
    (parts : ∀ what, objection? none = some what →
      dialogue.hangUp phase = { failure? := some (.violation what) })
    (raw left : Bytes) (what : Violation) (stops : Packet.Stops objection? raw what left)
    (source : Source) (clear : source.Faultless) (sent : source.bytes = raw) (desk : Desk) :
    ∃ rest, dialogue.converse phase source desk = ⟨some (.violation what), rest, desk⟩ ∧
      rest.Faultless ∧ rest.bytes = left := by
  obtain ⟨rest, read, restClear, unread⟩ := source.next_faultless clear
  rw [sent] at read unread
  cases stops with
  | ended objects =>
      refine ⟨rest, ?_, restClear, unread⟩
      rw [dialogue.converse_closed phase source rest desk read, parts what objects]
      rfl
  | misframed framing =>
      rw [framing] at read unread
      exact ⟨rest, dialogue.converse_fault phase source rest desk _ read, restClear, unread⟩
  | @misplaced packet raw left what written objects =>
      rw [(Packet.first_eq_packet_iff packet (raw ++ left) left).mpr ⟨raw, written, rfl⟩]
        at read unread
      refine ⟨rest, ?_, restClear, unread⟩
      rw [dialogue.converse_packet phase source rest desk packet read,
        hears desk.memory packet what objects]
      rfl

end Dialogue

end ContentFilter
