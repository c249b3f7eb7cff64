import ContentFilter.Proofs.Grammar
import ContentFilter.Proofs.Tickets

/-!
What stands in the journal for one command. A record is told by what was asked for, what was sent
in reply and whether the session ended with it: `record_list` and `record_file` say how.
A request that stops halfway leaves the part of its record that had been earned by then;
`Unfinished` tells which, and `converse_unfinished` that nothing more has happened.
-/

namespace ContentFilter

namespace Remark

/-- The remark as one text. -/
def text (remark : Remark) : String := String.join remark.texts

theorem bytes_text (remark : Remark) : remark.bytes = Text.bytes remark.text :=
  (Text.bytes_join remark.texts).symm

theorem bytes_texts (remarks : List Remark) :
    remarks.flatMap bytes = Text.bytes (String.join (remarks.map text)) := by
  rw [Text.bytes_join, List.flatMap_map]
  exact congrArg remarks.flatMap (funext bytes_text)

theorem text_fields (lines : List String) :
    String.join ((lines.map .field).map text) = String.join (lines.map (" " ++ ·)) := by
  induction lines with
  | nil => rfl
  | cons line rest ih =>
      simp only [List.map_cons, String.join_cons, ih, text, texts, fieldText, String.join_nil,
        String.append_empty]

end Remark

namespace FileCall

/-- What is noted of a request for a file as far as its details. -/
def noted (call : FileCall) : List Remark :=
  [.heard call.command, .field call.pathname]
    ++ (call.details.filter Exchange.isNoted).map .field

/-- The record of a request for a file as far as its details. -/
def entry (call : FileCall) : String :=
  "IN: " ++ call.command.name ++ " " ++ call.pathname
    ++ String.join ((call.details.filter Exchange.isNoted).map (" " ++ ·))

theorem noted_text (call : FileCall) : String.join (call.noted.map Remark.text) = call.entry := by
  simp only [noted, List.map_append, String.join_append, Remark.text_fields, entry,
    List.map_cons, List.map_nil, String.join_cons, String.join_nil, Remark.text, Remark.texts,
    Remark.fieldText, String.append_empty, String.append_assoc]

end FileCall

/-- One dot for each packet of content. -/
def dots (count : Nat) : String := "".pushn '.' count

namespace Reply

/-- How the record of a command ends with the reply. -/
def result (reply : Reply) : String := String.join (reply.remarks.map Remark.text)

theorem result_content (output : Bytes) :
    (answered (.content output)).result =
      s!"OUT: {output.length} {dots (Packet.cut output).length} [OK]\n" := by
  simp only [result, remarks, List.map_cons, List.map_nil, Remark.text, Remark.texts, Remark.done,
    String.join_cons, String.join_nil, String.append_empty, String.append_assoc]
  rfl

end Reply

namespace Turn

/-- What the turn writes into the journal. -/
def record (turn : Turn) : String := String.join (turn.remarks.map Remark.text)

theorem bytes_record (turn : Turn) : turn.remarks.flatMap Remark.bytes = Text.bytes turn.record :=
  Remark.bytes_texts turn.remarks

/-- The reply begins with this status. -/
def Reports (turn : Turn) (status : Status) : Prop :=
  turn.reply.packets.head? = some (.say (Exchange.statusLine status))

/-- How the record of a file request ends, told by what was sent for it and by the failure that the
session ended in. -/
inductive Closes (turn : Turn) : String → Prop
  | error (sent : turn.reply.packets = Packet.ofStatus .error) (goes : turn.failure? = none) :
      Closes turn "[ERROR]\n"
  | abort (sent : turn.reply.packets = Packet.ofStatus .abort) (goes : turn.failure? = none) :
      Closes turn "[ABORT]\n"
  | delayed (sent : turn.reply.packets = Packet.ofStatus .delayed) (goes : turn.failure? = none) :
      Closes turn "[DELAYED]\n"
  | content {pieces : List Bytes}
      (sent : turn.reply.packets =
        Packet.ofStatus .success ++ (pieces.map .data ++ [.flush, .flush]))
      (goes : turn.failure? = none) :
      Closes turn s!"OUT: {pieces.flatten.length} {dots pieces.length} [OK]\n"
  | brokenOff {command : Command} (sent : turn.reply.packets = Packet.ofStatus .success)
      (fails : turn.failure? = some (.brokenOff command)) : Closes turn "[WRITE FAIL]\n"
  | unsupported {name : String} (sent : turn.reply.packets = [])
      (fails : turn.failure? = some (.unsupported name)) : Closes turn ""

theorem reports_iff (turn : Turn) (found status : Status) (rest : List Packet)
    (sent : turn.reply.packets = Packet.ofStatus found ++ rest) :
    turn.Reports status ↔ status = found := by
  have head : turn.reply.packets.head? = some (.say (Exchange.statusLine found)) := by
    rw [sent]
    rfl
  rw [Reports, head]
  cases found <;> cases status <;> decide

theorem content_ne (size : Nat) (marks other : String) (begins : other.toList.head? ≠ some 'O') :
    s!"OUT: {size} {marks} [OK]\n" ≠ other := by
  have letters : s!"OUT: {size} {marks} [OK]\n" =
      "OUT: " ++ (toString size ++ " " ++ marks ++ " [OK]\n") := by
    simp only [String.append_assoc]
    rfl
  rw [letters]
  rintro rfl
  simp at begins

/-- Each of these results stands in the record exactly when it was reported. -/
structure Tags (turn : Turn) (result : String) : Prop where
  error : turn.Reports .error ↔ result = "[ERROR]\n"
  abort : turn.Reports .abort ↔ result = "[ABORT]\n"
  delayed : turn.Reports .delayed ↔ result = "[DELAYED]\n"
  writeFail : (∃ command, turn.failure? = some (.brokenOff command)) ↔ result = "[WRITE FAIL]\n"

theorem tags_of_closes (turn : Turn) (result : String) (closes : turn.Closes result) :
    turn.Tags result := by
  cases closes with
  | error sent goes | abort sent goes | delayed sent goes =>
      have reports := fun status => turn.reports_iff _ status [] (by simpa using sent)
      constructor <;> simp [reports, goes]
  | @content pieces sent goes =>
      have reports := fun status => turn.reports_iff .success status _ sent
      have apart (other : String) := content_ne pieces.flatten.length (dots pieces.length) other
      constructor
      · simp only [reports, reduceCtorEq, apart "[ERROR]\n" (by decide)]
      · simp only [reports, reduceCtorEq, apart "[ABORT]\n" (by decide)]
      · simp only [reports, reduceCtorEq, apart "[DELAYED]\n" (by decide)]
      · simp only [goes, reduceCtorEq, exists_false, apart "[WRITE FAIL]\n" (by decide)]
  | brokenOff sent fails =>
      have reports := fun status => turn.reports_iff .success status [] (by simpa using sent)
      constructor <;> simp [reports, fails]
  | unsupported sent fails => constructor <;> simp [Reports, sent, fails]

theorem closes_file (memory : Memory) (call : FileCall) :
    (memory.turn (.file call)).Closes (memory.turn (.file call)).reply.result := by
  have replied : (memory.turn (.file call)).reply =
      (memory.allowing call).replyTo call.request := rfl
  have failure : (memory.turn (.file call)).failure? =
      (memory.turn (.file call)).reply.failure? call.command := rfl
  rw [Memory.replyTo_eq] at replied
  cases answered : (memory.allowing call).answer? call.request with
  | none =>
      rw [answered] at replied
      rw [replied] at failure ⊢
      exact .unsupported (by rw [replied]; rfl) failure
  | some answer =>
      rw [answered] at replied
      rw [replied] at failure ⊢
      cases answer with
      | refused => exact .error (by rw [replied]; rfl) failure
      | aborted => exact .abort (by rw [replied]; rfl) failure
      | delayed output => exact .delayed (by rw [replied]; rfl) failure
      | brokenOff => exact .brokenOff (by rw [replied]; rfl) failure
      | content output =>
          rw [Reply.result_content, ← congrArg List.length (Packet.cut_flatten output)]
          exact .content (by rw [replied]; rfl) failure

/-! ### The records of the two kinds of commands -/

theorem record_list (memory : Memory) :
    (memory.turn .list).record =
      "IN: list_available_blobs" ++ String.join ((memory.turn .list).ready.map (" " ++ ·))
        ++ " [OK]\n" := by
  have ready : String.join (memory.waitlist.announcement.ready.map Remark.fieldText) =
      String.join ((memory.turn .list).ready.map (" " ++ ·)) := rfl
  simp only [record, remarks, Memory.turn, Call.remarks, Reply.remarks, List.cons_append,
    List.nil_append, List.map_cons, List.map_nil, Remark.text, Remark.texts, String.join_cons,
    String.join_nil, String.join_append, String.append_empty, ready, String.append_assoc]
  rfl

theorem record_file (memory : Memory) (call : FileCall) :
    (memory.turn (.file call)).record =
      s!"{call.entry} {call.payload.length} [OK] -- {(memory.turn (.file call)).reply.result}" := by
  have parts : (memory.turn (.file call)).remarks =
      call.noted ++ [.received call.payload.length]
        ++ (memory.turn (.file call)).reply.remarks := rfl
  rw [record, parts]
  simp only [List.map_append, String.join_append, FileCall.noted_text, List.map_cons, List.map_nil,
    Remark.text, Remark.texts, String.join_cons, String.join_nil, String.append_empty]
  simp only [String.append_assoc]
  rfl

end Turn

namespace Exchange

/-- What stands in the journal of a request that began with `packets` and is still waited for. -/
inductive Unfinished : Phase → List Packet → String → Prop
  | nothing : Unfinished .command [] ""
  | list {packet : Packet} (named : packet.Carries ("command=" ++ Command.listAvailable.name)) :
      Unfinished .listEnd [packet] "IN: list_available_blobs"
  | file {command : Command} {packet : Packet} (forFile : command ≠ .listAvailable)
      (named : packet.Carries ("command=" ++ command.name)) :
      Unfinished (.pathname command) [packet] ("IN: " ++ command.name)
  | details (call : FileCall) {packets : List Packet} (opened : call.Opened packets) :
      Unfinished (.details call.command call.pathname call.mayDelay) packets call.entry
  | content (call : FileCall) {packets : List Packet} (opened : call.Opened packets) :
      Unfinished (.content call.command call.pathname call.payload.toArray)
        (packets ++ .flush :: call.pieces.map .data) call.entry

/-- The beginning of a request is noted as far as it goes, and nothing is sent. -/
theorem converse_unfinished (phase : Phase) (packets : List Packet) (begun : Begun phase packets)
    (source rest : Source) (read : source.Yields packets rest) (desk : Desk) (free : desk.Free) :
    ∃ after remarks memory text, Unfinished phase packets text ∧
      remarks.flatMap Remark.bytes = Text.bytes text ∧ desk.Moves [] remarks memory after ∧
      converse source desk = dialogue.converse phase rest after := by
  cases begun with
  | nothing =>
      cases read
      exact ⟨desk, [], desk.memory, "", .nothing, rfl, desk.moves_refl free, rfl⟩
  | @list packet named =>
      cases read with
      | more head done =>
      cases done
      obtain ⟨after, moved, step⟩ := dialogue.converse_noting .command source rest desk packet
        [.heard .listAvailable] _ head (hearCommand_carried packet .listAvailable named) free
      exact ⟨after, _, _, _, .list named, rfl, moved, step⟩
  | @file command packet forFile named =>
      cases read with
      | more head done =>
      cases done
      obtain ⟨after, moved, step⟩ := dialogue.converse_noting .command source rest desk packet
        [.heard command] _ head (hearCommand_carried packet command named) free
      rw [if_neg forFile] at step
      have text := Remark.bytes_texts [.heard command]
      exact ⟨after, _, _, _, .file forFile named, text, moved, step⟩
  | details call opened =>
      obtain ⟨after, moved, step⟩ := converse_opened call packets opened source rest read desk free
      have text := Remark.bytes_texts call.noted
      rw [call.noted_text] at text
      exact ⟨after, _, _, _, .details call opened, text, moved, step⟩
  | @content call packets opened =>
      have parts : packets ++ .flush :: call.pieces.map .data =
          packets ++ [.flush] ++ call.pieces.map .data := by
        simp
      rw [parts] at read
      obtain ⟨middle, asked, content⟩ := (Source.yields_append_iff _ _ _ _).mp read
      obtain ⟨after, moved, step⟩ := converse_question call packets opened source middle asked desk
        free
      have received := converse_content call.command call.pathname call.pieces #[] middle rest
        content after
      have whole : (#[] : Array UInt8) ++ call.pieces.flatten = call.payload.toArray := by
        simp [FileCall.payload]
      have text := Remark.bytes_texts call.noted
      rw [call.noted_text] at text
      exact ⟨after, _, _, _, .content call opened, text, moved, step.trans (whole ▸ received)⟩

end Exchange

end ContentFilter
