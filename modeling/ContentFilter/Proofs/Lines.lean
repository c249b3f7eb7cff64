import ContentFilter.Proofs.Journaled

/-!
The journal of a session line by line. A record quotes what the driver has sent and puts nothing
between the parts of it but spaces, so a newline that is quoted breaks the record into lines that
look like any others. `record_quotes` says where in a record the quotations stand, and
`attend_lines` counts: without a newline in a quotation the lines of the journal are the records.
-/

namespace ContentFilter

namespace Text

/-- The number of newlines in a text. -/
def breaks (text : String) : Nat := (bytes text).count newline

theorem breaks_append (front back : String) :
    breaks (front ++ back) = breaks front + breaks back := by
  rw [breaks, bytes_append, List.count_append]
  rfl

theorem breaks_eq_zero_iff (text : String) : breaks text = 0 ↔ '\n' ∉ text.toList := by
  rw [breaks, List.count_eq_zero, newline_mem_bytes_iff]

theorem breaks_toString (number : Nat) : breaks (toString number) = 0 := by
  rw [breaks_eq_zero_iff]
  intro member
  have digits : (toString number).toList = Nat.toDigits 10 number := Nat.toList_repr
  rw [digits] at member
  have digit := Nat.isDigit_of_mem_toDigits (by decide) (by decide) member
  revert digit
  decide

theorem breaks_join_eq_zero (texts : List String) (whole : ∀ text ∈ texts, breaks text = 0) :
    breaks (String.join texts) = 0 := by
  rw [breaks, bytes_join, List.count_eq_zero, List.mem_flatMap]
  rintro ⟨text, member, broken⟩
  exact List.count_eq_zero.mp (whole text member) broken

theorem breaks_spaced (texts : List String) :
    breaks (String.join (texts.map (" " ++ ·))) = breaks (String.join texts) := by
  have space : breaks " " = 0 := rfl
  induction texts with
  | nil => rfl
  | cons text rest ih =>
      rw [List.map_cons, String.join_cons, String.join_cons, breaks_append, breaks_append,
        breaks_append, ih, space, Nat.zero_add]

theorem breaks_lines (lines : List String) :
    breaks (String.join (lines.map (· ++ "\n"))) = lines.length + breaks (String.join lines) := by
  have ended : breaks "\n" = 1 := rfl
  induction lines with
  | nil => rfl
  | cons line rest ih =>
      rw [List.map_cons, String.join_cons, String.join_cons, breaks_append, breaks_append,
        breaks_append, ih, ended, List.length_cons]
      omega

/-- Each line is brought to its end by one newline. -/
theorem splitOn_lines (lines : List String) (whole : ∀ line ∈ lines, breaks line = 0) :
    (bytes (String.join (lines.map (· ++ "\n")))).splitOn newline =
      (lines ++ [""]).map bytes := by
  have ended : bytes "\n" = [newline] := rfl
  induction lines with
  | nil => rfl
  | cons line rest ih =>
      obtain ⟨here, later⟩ := List.forall_mem_cons.mp whole
      have unbroken : newline ∉ bytes line := List.count_eq_zero.mp here
      rw [List.map_cons, String.join_cons, bytes_append, bytes_append, ended, List.append_assoc,
        List.singleton_append, List.splitOn_append_cons_self_of_not_mem unbroken, ih later]
      rfl

end Text

open Text (breaks)

/-! ### What is quoted -/

def Call.command : Call → Command
  | .list => .listAvailable
  | .file call => call.command

/-- The driver's texts that are noted with a command. -/
def Call.quoted : Call → List String
  | .list => []
  | .file call => call.pathname :: call.details.filter Exchange.isNoted

/-- The driver's texts in a record. A list query brings back pathnames that were sent before. -/
def Turn.quoted (turn : Turn) : List String := turn.call.quoted ++ turn.ready

namespace Memory

-- Whatever holds of the waitlist and of all that is sent holds of all that is quoted.
theorem turns_quoted (holds : String → Prop) (memory : Memory) (calls : List Call)
    (listed : memory.Lists holds) (sent : ∀ call ∈ calls, ∀ text ∈ call.quoted, holds text) :
    ∀ turn ∈ memory.turns calls, ∀ text ∈ turn.quoted, holds text := by
  induction calls generalizing memory with
  | nil => simp [turns]
  | cons call rest ih =>
      obtain ⟨here, later⟩ := List.forall_mem_cons.mp sent
      have onward : (memory.turn call).memory.Lists holds := by
        apply memory.lists_turn holds call listed
        rintro asked rfl
        exact here asked.pathname List.mem_cons_self
      have first : ∀ text ∈ (memory.turn call).quoted, holds text := by
        intro text member
        rw [Turn.quoted, memory.turn_call] at member
        rcases List.mem_append.mp member with noted | ready
        · exact here text noted
        · exact listed text (memory.ready_known call text ready)
      rw [turns]
      cases (memory.turn call).failure? with
      | none => exact List.forall_mem_cons.mpr ⟨first, ih _ onward later⟩
      | some failure => simpa using first

end Memory

/-! ### One record -/

namespace Turn

/-- The record without the newline at its end. -/
def line (turn : Turn) : String := String.ofList turn.record.toList.dropLast

/-- The record ends with a newline, and any other stands in what it quotes. -/
def Quotes (turn : Turn) : Prop :=
  turn.record = turn.line ++ "\n" ∧ ∃ rest, breaks rest = 0 ∧ turn.line =
    "IN: " ++ turn.call.command.name ++ String.join (turn.quoted.map (" " ++ ·)) ++ rest

theorem quotes_of_record (turn : Turn) (rest : String) (unbroken : breaks rest = 0)
    (record : turn.record = "IN: " ++ turn.call.command.name
      ++ String.join (turn.quoted.map (" " ++ ·)) ++ rest ++ "\n") : turn.Quotes := by
  have line : turn.line = "IN: " ++ turn.call.command.name
      ++ String.join (turn.quoted.map (" " ++ ·)) ++ rest := by
    have ended : "\n".toList = ['\n'] := rfl
    rw [Turn.line, record, String.toList_append, ended, List.dropLast_concat, String.ofList_toList]
  refine ⟨?_, rest, unbroken, line⟩
  rw [line, record]

theorem breaks_dots (count : Nat) : breaks (dots count) = 0 := by
  induction count with
  | zero => rfl
  | succ count ih =>
      have more : dots (count + 1) = dots count ++ "." := by
        simp only [dots, String.pushn_eq_repeat_push, Nat.repeat, String.push_eq_append]
        rfl
      rw [more, Text.breaks_append, ih]
      rfl

theorem closes_line (turn : Turn) (result : String) (closes : turn.Closes result)
    (goes : turn.failure? = none) : ∃ rest, breaks rest = 0 ∧ result = rest ++ "\n" := by
  cases closes with
  | error => exact ⟨"[ERROR]", rfl, rfl⟩
  | abort => exact ⟨"[ABORT]", rfl, rfl⟩
  | delayed => exact ⟨"[DELAYED]", rfl, rfl⟩
  | @content pieces =>
      refine ⟨"OUT: " ++ toString pieces.flatten.length ++ " " ++ dots pieces.length ++ " [OK]",
        ?_, ?_⟩
      · simp only [Text.breaks_append, Text.breaks_toString, breaks_dots]
        rfl
      · simp only [String.append_assoc]
        rfl
  | brokenOff _ fails | unsupported _ fails =>
      rw [goes] at fails
      cases fails

theorem record_quotes (memory : Memory) (call : Call) (goes : (memory.turn call).failure? = none) :
    (memory.turn call).Quotes := by
  cases call with
  | list =>
      apply quotes_of_record _ " [OK]" rfl
      rw [record_list]
      simp only [String.append_assoc]
      rfl
  | file call =>
      obtain ⟨rest, unbroken, result⟩ := closes_line _ _ (closes_file memory call) goes
      have quotes : (memory.turn (.file call)).quoted =
          call.pathname :: call.details.filter Exchange.isNoted := by
        rw [quoted, memory.file_ready call, List.append_nil]
        rfl
      have recorded : (memory.turn (.file call)).record =
          call.entry ++ " " ++ toString call.payload.length ++ " [OK] -- " ++ rest ++ "\n" := by
        rw [record_file, result]
        simp only [String.append_assoc]
        rfl
      apply quotes_of_record _ (" " ++ toString call.payload.length ++ " [OK] -- " ++ rest)
      · simp only [Text.breaks_append, Text.breaks_toString, unbroken]
        rfl
      · rw [recorded, quotes, List.map_cons, String.join_cons, FileCall.entry]
        simp only [String.append_assoc]
        rfl

theorem breaks_line (turn : Turn) (quotes : turn.Quotes) :
    breaks turn.line = breaks (String.join turn.quoted) := by
  obtain ⟨_, rest, unbroken, line⟩ := quotes
  have named : breaks ("IN: " ++ turn.call.command.name) = 0 := by
    cases turn.call.command <;> rfl
  rw [line, Text.breaks_append, Text.breaks_append, named, unbroken, Text.breaks_spaced,
    Nat.zero_add, Nat.add_zero]

theorem breaks_all (turns : List Turn) (quotes : ∀ turn ∈ turns, turn.Quotes) :
    breaks (String.join (turns.map line)) = breaks (String.join (turns.flatMap quoted)) := by
  induction turns with
  | nil => rfl
  | cons turn rest ih =>
      obtain ⟨here, later⟩ := List.forall_mem_cons.mp quotes
      rw [List.map_cons, String.join_cons, List.flatMap_cons, String.join_append,
        Text.breaks_append, Text.breaks_append, turn.breaks_line here, ih later]

end Turn

/-! ### The whole journal -/

/-- What a session that stops by itself writes for these turns. -/
def Turn.journaled (turns : List Turn) : String :=
  String.join (["START\n", "init handshake complete\n"] ++ turns.map Turn.record ++ ["STOP\n"])

theorem Turn.journaled_lines (turns : List Turn) (quotes : ∀ turn ∈ turns, turn.Quotes) :
    Turn.journaled turns = String.join
      ((["START", "init handshake complete"] ++ turns.map Turn.line ++ ["STOP"]).map
        (· ++ "\n")) := by
  have records : turns.map Turn.record = (turns.map Turn.line).map (· ++ "\n") := by
    rw [List.map_map]
    apply List.map_congr_left
    intro turn member
    rw [Function.comp_apply, (quotes turn member).1]
  have opening : ["START\n", "init handshake complete\n"] =
      ["START", "init handshake complete"].map (· ++ "\n") := by decide
  have closing : ["STOP\n"] = ["STOP"].map (· ++ "\n") := by decide
  rw [Turn.journaled, records, opening, closing, List.map_append, List.map_append]

theorem Turn.breaks_journaled (turns : List Turn) (quotes : ∀ turn ∈ turns, turn.Quotes) :
    breaks (Turn.journaled turns) =
      turns.length + 3 + breaks (String.join (turns.flatMap Turn.quoted)) := by
  have opening : breaks (String.join ["START", "init handshake complete"]) = 0 := rfl
  have closing : breaks (String.join ["STOP"]) = 0 := rfl
  rw [Turn.journaled_lines turns quotes, Text.breaks_lines, String.join_append, String.join_append,
    Text.breaks_append, Text.breaks_append, opening, closing, Turn.breaks_all turns quotes]
  simp only [List.length_append, List.length_cons, List.length_nil, List.length_map]
  omega

theorem Turn.splitOn_journaled (turns : List Turn) (quotes : ∀ turn ∈ turns, turn.Quotes)
    (whole : ∀ turn ∈ turns, ∀ text ∈ turn.quoted, breaks text = 0) :
    (Text.bytes (Turn.journaled turns)).splitOn Text.newline =
      (["START", "init handshake complete"] ++ turns.map Turn.line ++ ["STOP", ""]).map
        Text.bytes := by
  have unbroken : ∀ line ∈ ["START", "init handshake complete"] ++ turns.map Turn.line ++ ["STOP"],
      breaks line = 0 := by
    simp only [List.forall_mem_append, List.forall_mem_map]
    refine ⟨⟨by decide, ?_⟩, by decide⟩
    intro turn member
    rw [turn.breaks_line (quotes turn member)]
    exact Text.breaks_join_eq_zero _ (whole turn member)
  rw [Turn.journaled_lines turns quotes, Text.splitOn_lines _ unbroken, List.append_assoc]
  rfl

theorem Memory.turns_quotes (memory : Memory) (calls : List Call)
    (goes : ∀ turn ∈ memory.turns calls, turn.failure? = none) :
    ∀ turn ∈ memory.turns calls, turn.Quotes := by
  intro turn member
  obtain ⟨earlier, later, played⟩ := List.append_of_mem member
  obtain ⟨now, call, _, _, rfl, _⟩ := memory.turns_split calls earlier later turn played
  exact Turn.record_quotes now call (goes _ member)

namespace Service

variable (setup : Setup) (source : Source) (sink : Sink) (journal : Journal)

theorem attend_stopped (clear : source.Faultless) (free : sink.Free)
    (room : journal.file.room = none) (stops : (attend setup source sink journal).failure? = none) :
    ∃ calls packets,
      Packet.AllWritten packets (greeted setup source sink journal).source.bytes ∧
      Call.AllSpelled calls packets ∧
      let turns := (Memory.fresh setup.offered setup.delaysAll).turns calls
      turns.map Turn.call = calls ∧ (∀ turn ∈ turns, turn.failure? = none) ∧
      (attend setup source sink journal).desk.journal.close.contents =
        journal.text ++ Text.bytes (Turn.journaled turns) := by
  have whole : attend setup source sink journal =
      (greeted setup source sink journal).andThen Exchange.converse := rfl
  have greets : (greeted setup source sink journal).failure? = none := by
    rw [whole, Ending.andThen] at stops
    cases found : (greeted setup source sink journal).failure? with
    | none => rfl
    | some failure => simp [found] at stops
  rw [whole, Ending.andThen, greets] at stops ⊢
  obtain ⟨openedClear, openedFree, fresh, noted⟩ :=
    greeted_fresh setup source sink journal clear free room greets
  generalize greeted setup source sink journal = opened at *
  have known : opened.desk.memory.Announceable :=
    fresh ▸ (Memory.Reached.fresh setup.offered setup.delaysAll).announceable
  obtain ⟨failure?, left, verdict⟩ :=
    Exchange.verdict_total (Memory.fresh setup.offered setup.delaysAll) opened.source.bytes
  obtain ⟨calls, packets, front, rest, text, parts, written, spelled, asked, leaves, shown⟩ :=
    Exchange.converse_leaves _ opened.source.bytes left failure? verdict opened.source
      openedClear rfl opened.desk openedFree fresh known
  rw [← shown.failure, stops] at leaves
  cases leaves with
  | stopped goes =>
  rw [List.append_nil] at parts
  refine ⟨calls, packets, parts ▸ written, spelled, asked, goes, ?_⟩
  obtain ⟨file, drained, _, contents⟩ := Journal.drain_free _ shown.free.journal
  have opening : String.join ["START\n", "init handshake complete\n"] =
      "START\ninit handshake complete\n" := rfl
  rw [Journal.close, drained]
  refine contents.trans ?_
  rw [shown.noted, noted, List.append_assoc, ← Text.bytes_append, ← String.append_assoc,
    Turn.journaled, String.join_append, String.join_append, opening]
  rfl

/-- A session that stops by itself has noted its start, the greeting, one record for each command
and its stop. A record begins with the name of its command and ends with a newline, and there are
no other newlines than in the pathnames and details that it quotes. If the driver has sent none
there, nothing but these lines can be read in the journal. -/
theorem attend_lines (clear : source.Faultless) (free : sink.Free)
    (room : journal.file.room = none) (stops : (attend setup source sink journal).failure? = none) :
    ∃ calls packets,
      Packet.AllWritten packets (greeted setup source sink journal).source.bytes ∧
      Call.AllSpelled calls packets ∧
      let turns := (Memory.fresh setup.offered setup.delaysAll).turns calls
      turns.map Turn.call = calls ∧
      (attend setup source sink journal).desk.journal.close.contents =
        journal.text ++ Text.bytes (Turn.journaled turns) ∧
      (∀ turn ∈ turns, turn.Quotes) ∧
      (Text.bytes (Turn.journaled turns)).count Text.newline =
        calls.length + 3 + breaks (String.join (turns.flatMap Turn.quoted)) ∧
      ((∀ call ∈ calls, ∀ text ∈ call.quoted, '\n' ∉ text.toList) →
        (Text.bytes (Turn.journaled turns)).splitOn Text.newline =
          (["START", "init handshake complete"] ++ turns.map Turn.line
            ++ ["STOP", ""]).map Text.bytes) := by
  obtain ⟨calls, packets, written, spelled, asked, goes, contents⟩ :=
    attend_stopped setup source sink journal clear free room stops
  have quotes := Memory.turns_quotes _ calls goes
  have counted := Turn.breaks_journaled _ quotes
  have each := congrArg List.length asked
  rw [List.length_map] at each
  rw [each] at counted
  refine ⟨calls, packets, written, spelled, asked, contents, quotes, counted, ?_⟩
  intro whole
  apply Turn.splitOn_journaled _ quotes
  have seeded : (Memory.fresh setup.offered setup.delaysAll).Lists (breaks · = 0) := by
    have seeds : ∀ seed ∈ Waitlist.seeded.pathnames, breaks seed = 0 := by decide
    exact seeds
  apply Memory.turns_quoted (breaks · = 0) _ calls seeded
  intro call member text quoted
  exact (Text.breaks_eq_zero_iff text).mpr (whole call member text quoted)

theorem attend_lines_delayed :
    let setup : Setup := { offered := [⟨"smudge"⟩] }
    let source : Source := [.bytes Greeting.driverGreeting, .pause,
      .bytes (Packet.encodeAll (Exchange.delayedSession.flatMap Call.packets))]
    let journaled := (attend setup source {} { path := "filter.log" }).desk.journal.close.contents
    let start := Memory.fresh setup.offered setup.delaysAll
    (∃ calls, journaled = Text.bytes (Turn.journaled (start.turns calls)) ∧
      ∀ turn ∈ start.turns calls, turn.Quotes) ∧
    journaled.splitOn Text.newline = (["START", "init handshake complete",
      "IN: smudge test-delay10.a ref=main 3 [OK] -- [DELAYED]",
      "IN: list_available_blobs test-delay10.a [OK]",
      "IN: smudge test-delay10.a 0 [OK] -- OUT: 3 . [OK]", "STOP", ""]).map Text.bytes := by
  intro setup source journaled start
  obtain ⟨calls, _, _, _, _, contents, quotes, _⟩ :=
    attend_lines setup source {} { path := "filter.log" } (by simp [Source.Faultless, source])
      ⟨rfl, rfl⟩ rfl (by decide +kernel)
  exact ⟨⟨calls, contents, quotes⟩, by decide +kernel⟩

-- One command leaves two records behind, as it seems.
theorem attend_lines_broken :
    let setup : Setup := { offered := [⟨"clean"⟩] }
    let source : Source := [.bytes Greeting.driverGreeting,
      .bytes (Packet.encodeAll (Exchange.brokenSession.flatMap Call.packets))]
    let ending := attend setup source {} { path := "filter.log" }
    ending.failure? = none ∧ Exchange.brokenSession.length = 1 ∧
    ending.desk.journal.close.contents.splitOn Text.newline = (["START", "init handshake complete",
      "IN: clean a", "IN: smudge b 1 [OK] -- OUT: 1 . [OK]", "STOP", ""]).map Text.bytes ∧
    ending.desk.journal.close.contents.count Text.newline ≠
      Exchange.brokenSession.length + 3 := by
  decide +kernel

end Service

end ContentFilter
