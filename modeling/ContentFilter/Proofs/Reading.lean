import ContentFilter.Wire.Framing
import ContentFilter.Wire.Line

/-!
Packets that carry lines, and whole sequences of packets read off a source. `Written` are the bytes
that a packet is read from; `yields_allWritten` says that packets that were written are the packets
read, in pieces of any sizes and with any number of interruptions, and `yields_append_iff` lets a
sequence be read group by group.
-/

namespace ContentFilter

namespace Packet

theorem encodeAll_cons (packet : Packet) (rest : List Packet) :
    encodeAll (packet :: rest) = packet.encode ++ encodeAll rest := by
  simp [encodeAll]

theorem encodeAll_append (first second : List Packet) :
    encodeAll (first ++ second) = encodeAll first ++ encodeAll second := by
  simp [encodeAll]

/-! ### Packets as bytes -/

theorem hexNumber?_length (header : Bytes) (number : Nat)
    (found : hexNumber? header = some number) : header.length = headerSize := by
  unfold hexNumber? at found
  split at found
  · rfl
  · cases found

theorem readHeader_flush_iff (header : Bytes) :
    readHeader header = .ok .flush ↔ hexNumber? header = some 0 := by
  unfold readHeader
  cases found : hexNumber? header with
  | none => split <;> simp
  | some number =>
      have four := hexNumber?_length header number found
      rw [if_neg (by omega)]
      dsimp only
      split
      · simp_all
      · split
        · simp_all
        · split <;> simp_all

-- A header never promises more than a legal payload.
theorem readHeader_payload_iff (header : Bytes) (size : Nat) :
    readHeader header = .ok (.payload size) ↔
      hexNumber? header = some (headerSize + size) ∧ size ≤ maxPayload := by
  unfold readHeader
  cases found : hexNumber? header with
  | none => split <;> simp
  | some number =>
      have four := hexNumber?_length header number found
      have sizes : headerSize = 4 ∧ maxSize = 65520 ∧ maxPayload = maxSize - 4 := ⟨rfl, rfl, rfl⟩
      rw [if_neg (by omega), Option.some.injEq]
      dsimp only
      split
      · simp only [Except.ok.injEq, reduceCtorEq, false_iff]
        omega
      · split
        · simp only [reduceCtorEq, false_iff]
          omega
        · split
          · simp only [reduceCtorEq, false_iff]
            omega
          · simp only [Except.ok.injEq, Promise.payload.injEq]
            omega

/-- The bytes are read as the packet. The digits of a header may be in either case. -/
inductive Written : Packet → Bytes → Prop
  | flush {header : Bytes} (zero : hexNumber? header = some 0) : Written .flush header
  | data {header payload : Bytes}
      (size : hexNumber? header = some (headerSize + payload.length))
      (legal : payload.length ≤ maxPayload) : Written (.data payload) (header ++ payload)

/-- The bytes are read as the packets, one behind the other. -/
inductive AllWritten : List Packet → Bytes → Prop
  | nothing : AllWritten [] []
  | more {packet : Packet} {packets : List Packet} {raw rest : Bytes}
      (written : packet.Written raw) (later : AllWritten packets rest) :
      AllWritten (packet :: packets) (raw ++ rest)

theorem written_encode (packet : Packet) (legal : packet.Legal) :
    packet.Written packet.encode := by
  cases packet with
  | flush => exact .flush rfl
  | data payload =>
      refine .data (hexNumber?_header _ ?_) legal
      simp only [Legal, maxPayload, maxSize, headerSize] at legal ⊢
      omega

theorem written_length (packet : Packet) (raw : Bytes) (written : packet.Written raw) :
    headerSize ≤ raw.length := by
  cases written with
  | flush zero => exact Nat.le_of_eq (hexNumber?_length raw 0 zero).symm
  | data size =>
      have four := hexNumber?_length _ _ size
      rw [List.length_append]
      omega

theorem first_eq_packet_iff (packet : Packet) (raw rest : Bytes) :
    first raw = (.ok (some packet), rest) ↔
      ∃ written, packet.Written written ∧ raw = written ++ rest := by
  constructor
  · intro read
    unfold first at read
    dsimp only at read
    split at read
    · cases read
    · split at read
      · cases read
      · rename_i promised
        cases read
        exact ⟨_, .flush ((readHeader_flush_iff _).mp promised), (List.take_append_drop _ _).symm⟩
      · rename_i size promised
        obtain ⟨number, legal⟩ := (readHeader_payload_iff _ size).mp promised
        split at read
        · rename_i whole
          cases read
          rw [← whole] at number legal
          refine ⟨_, .data number legal, ?_⟩
          rw [List.append_assoc, List.take_append_drop, List.take_append_drop]
        · cases read
  · rintro ⟨written, spelled, rfl⟩
    cases spelled with
    | flush zero =>
        have four := hexNumber?_length written 0 zero
        have present : written ≠ [] := by
          rintro rfl
          cases four
        simp [first, ← four, present, (readHeader_flush_iff written).mpr zero]
    | @data header payload size legal =>
        have four := hexNumber?_length header _ size
        have present : header ≠ [] := by
          rintro rfl
          cases four
        have promised := (readHeader_payload_iff header _).mpr ⟨size, legal⟩
        simp [first, ← four, present, promised]

theorem first_eq_none_iff (raw rest : Bytes) :
    first raw = (.ok none, rest) ↔ raw = [] ∧ rest = [] := by
  constructor
  · intro read
    unfold first at read
    dsimp only at read
    split at read
    · rename_i ended
      cases read
      have empty : raw = [] := by simpa [headerSize] using ended
      exact ⟨empty, by simp [empty]⟩
    · split at read
      · cases read
      · cases read
      · split at read <;> cases read
  · rintro ⟨rfl, rfl⟩
    rfl

theorem allWritten_encodeAll (packets : List Packet) (legal : ∀ packet ∈ packets, packet.Legal) :
    AllWritten packets (encodeAll packets) := by
  induction packets with
  | nil => exact .nothing
  | cons packet packets ih =>
      rw [encodeAll_cons]
      exact .more (written_encode packet (legal packet List.mem_cons_self))
        (ih fun other member => legal other (List.mem_cons_of_mem packet member))

theorem allWritten_legal (packets : List Packet) (raw : Bytes) (written : AllWritten packets raw) :
    ∀ packet ∈ packets, packet.Legal := by
  induction written with
  | nothing =>
      intro packet member
      cases member
  | more one _ ih =>
      intro packet member
      rcases List.mem_cons.mp member with same | later
      · subst packet
        cases one with
        | flush => trivial
        | data _ legal => exact legal
      · exact ih packet later

theorem allWritten_append_iff (first second : List Packet) (raw : Bytes) :
    AllWritten (first ++ second) raw ↔
      ∃ front back, raw = front ++ back ∧ AllWritten first front ∧ AllWritten second back := by
  induction first generalizing raw with
  | nil =>
      constructor
      · intro written
        exact ⟨[], raw, rfl, .nothing, written⟩
      · rintro ⟨front, back, rfl, empty, written⟩
        cases empty
        exact written
  | cons packet first ih =>
      constructor
      · intro written
        cases written with
        | @more _ _ head rest one later =>
            obtain ⟨front, back, rfl, before, behind⟩ := (ih rest).mp later
            exact ⟨head ++ front, back, (List.append_assoc _ _ _).symm, .more one before, behind⟩
      · rintro ⟨front, back, rfl, before, behind⟩
        cases before with
        | @more _ _ head rest one later =>
            rw [List.append_assoc]
            exact .more one ((ih _).mpr ⟨rest, back, rfl, later, behind⟩)

theorem allWritten_concat (packets : List Packet) (packet : Packet) (raw one : Bytes)
    (written : AllWritten packets raw) (spelled : packet.Written one) :
    AllWritten (packets ++ [packet]) (raw ++ one) := by
  have single : AllWritten [packet] (one ++ []) := .more spelled .nothing
  rw [List.append_nil] at single
  exact (allWritten_append_iff _ _ _).mpr ⟨raw, one, rfl, written, single⟩

/-- Bytes are read packet by packet until they end or cannot be read on. -/
theorem reading_induction {motive : Bytes → Prop} (ended : motive [])
    (misframed : ∀ raw what left, first raw = (.error what, left) → motive raw)
    (packet : ∀ packet one left, Written packet one → motive left → motive (one ++ left))
    (raw : Bytes) : motive raw := by
  -- Every packet takes at least its header away.
  induction size : raw.length using Nat.strongRecOn generalizing raw with
  | ind length ih =>
      cases read : first raw with
      | mk outcome left =>
          cases outcome with
          | error what => exact misframed raw what left read
          | ok found =>
              cases found with
              | none =>
                  obtain ⟨rfl, _⟩ := (first_eq_none_iff raw left).mp read
                  exact ended
              | some next =>
                  obtain ⟨one, spelled, rfl⟩ := (first_eq_packet_iff next raw left).mp read
                  have shorter := written_length next one spelled
                  simp only [List.length_append, headerSize] at size shorter
                  exact packet next one left spelled (ih left.length (by omega) left rfl)

/-- The bytes from here on begin with something that is objected to: why, and what of them has not
been looked at. -/
inductive Stops (objection? : Option Packet → Option Violation) : Bytes → Violation → Bytes → Prop
  | ended {what : Violation} (objects : objection? none = some what) : Stops objection? [] what []
  | misframed {raw left : Bytes} {what : Violation} (framing : first raw = (.error what, left)) :
      Stops objection? raw what left
  | misplaced {packet : Packet} {raw : Bytes} (left : Bytes) {what : Violation}
      (written : packet.Written raw) (objects : objection? (some packet) = some what) :
      Stops objection? (raw ++ left) what left

/-! ### Lines -/

/-- The packet carries `line`, with or without a newline at the end. -/
def Carries (packet : Packet) (line : String) : Prop := packet.line? = .ok (some line)

def ofLine (line : String) : Packet := .data (Text.bytes line ++ [Text.newline])

theorem carries_ofLine (line : String) : (ofLine line).Carries line := by
  simp [Carries, ofLine, line?, text, withoutNewline, Text.ofBytes?_bytes, Except.map]

theorem carries_iff (payload : Bytes) (line : String) :
    (Packet.data payload).Carries line ↔ withoutNewline payload = Text.bytes line := by
  rw [← Text.ofBytes?_eq_some_iff]
  unfold Carries line? text
  dsimp only
  cases Text.ofBytes? (withoutNewline payload) <;> simp [Except.map]

theorem carries_fits (packet : Packet) (line : String) (carried : packet.Carries line)
    (legal : packet.Legal) : (Text.bytes line).length ≤ maxPayload := by
  cases packet with
  | flush => cases carried
  | data payload =>
      rw [← (carries_iff payload line).mp carried]
      simp only [Legal] at legal
      unfold withoutNewline
      split
      · simp only [List.length_dropLast]
        omega
      · exact legal

-- A flush counts as an empty line, which has no key.
theorem field_eq_ok_iff (packet : Packet) (key value : String) :
    packet.field key = .ok value ↔ value ≠ "" ∧ packet.Carries (key ++ "=" ++ value) := by
  have keyed (line : String) : Text.after? (key ++ "=") line = some value ↔
      line = key ++ "=" ++ value := Text.after?_eq_some_iff _ _ _
  unfold field Carries
  cases packet.line? with
  | error what => simp
  | ok found =>
      have flushed : Text.after? (key ++ "=") "" = none := by
        cases after : Text.after? (key ++ "=") "" with
        | none => rfl
        | some rest =>
            have joined := congrArg String.length ((Text.after?_eq_some_iff _ _ _).mp after)
            have sign : "=".length = 1 := by decide
            simp only [String.length_append, sign, String.length_empty] at joined
            omega
      cases found with
      | none => simp [flushed]
      | some line =>
          simp only [Option.getD_some, Except.ok.injEq, Option.some.injEq, ← keyed]
          cases Text.after? (key ++ "=") line with
          | none => simp
          | some rest =>
              by_cases empty : rest = ""
              · simp +contextual [empty, eq_comm]
              · simp only [empty, ↓reduceIte, Except.ok.injEq, Option.some.injEq]
                constructor
                · rintro rfl
                  exact ⟨empty, rfl⟩
                · exact And.right

end Packet

namespace Source

/-- Reading `source` gives `packets` one after the other and then leaves `rest`. -/
inductive Yields : Source → List Packet → Source → Prop
  | done (source : Source) : Yields source [] source
  | more {source middle rest : Source} {packet : Packet} {packets : List Packet}
      (read : source.next = (.ok (some packet), middle)) (later : Yields middle packets rest) :
      Yields source (packet :: packets) rest

/-- Nothing is left to be read, and the driver has closed the channel. -/
def Closed (source : Source) : Prop := ∃ rest, source.next = (.ok none, rest)

theorem yields_append_iff (source rest : Source) (first second : List Packet) :
    Yields source (first ++ second) rest ↔
      ∃ middle, Yields source first middle ∧ Yields middle second rest := by
  induction first generalizing source with
  | nil =>
      constructor
      · intro read
        exact ⟨source, .done source, read⟩
      · rintro ⟨middle, none, read⟩
        cases none
        exact read
  | cons packet first ih =>
      constructor
      · intro read
        cases read with
        | more head later =>
            obtain ⟨middle, before, behind⟩ := (ih _).mp later
            exact ⟨middle, .more head before, behind⟩
      · rintro ⟨middle, before, behind⟩
        cases before with
        | more head later => exact .more head ((ih _).mpr ⟨middle, later, behind⟩)

/-- The limit holds for every packet that comes in, whoever wrote it. -/
theorem next_legal (source rest : Source) (packet : Packet)
    (read : source.next = (.ok (some packet), rest)) : packet.Legal := by
  unfold next at read
  split at read
  · cases read
  · cases read
  · split at read
    · cases read
    · cases read
      trivial
    · rename_i size header
      have bound := ((Packet.readHeader_payload_iff _ size).mp header).2
      split at read
      · cases read
      · split at read
        · rename_i payload _ _ whole
          cases read
          simpa only [Packet.Legal, whole] using bound
        · cases read

theorem yields_legal (source rest : Source) (packets : List Packet)
    (read : Yields source packets rest) : ∀ packet ∈ packets, packet.Legal := by
  induction read with
  | done => intro packet member; cases member
  | more head _ ih =>
      intro packet member
      rcases List.mem_cons.mp member with same | later
      · subst packet
        exact next_legal _ _ _ head
      · exact ih packet later

theorem next_written (source : Source) (clear : source.Faultless) (packet : Packet)
    (raw tail : Bytes) (written : packet.Written raw) (sent : source.bytes = raw ++ tail) :
    ∃ rest, source.next = (.ok (some packet), rest) ∧ rest.Faultless ∧ rest.bytes = tail := by
  obtain ⟨rest, read, restClear, left⟩ := next_faultless source clear
  rw [sent, (Packet.first_eq_packet_iff packet (raw ++ tail) tail).mpr ⟨raw, written, rfl⟩]
    at read left
  exact ⟨rest, read, restClear, left⟩

theorem yields_allWritten (packets : List Packet) (raw tail : Bytes)
    (written : Packet.AllWritten packets raw) (source : Source) (clear : source.Faultless)
    (sent : source.bytes = raw ++ tail) :
    ∃ rest, Yields source packets rest ∧ rest.Faultless ∧ rest.bytes = tail := by
  induction written generalizing source with
  | nothing => exact ⟨source, .done source, clear, sent⟩
  | @more packet packets raw others one _ ih =>
      rw [List.append_assoc] at sent
      obtain ⟨middle, read, middleClear, left⟩ := next_written source clear packet raw _ one sent
      obtain ⟨rest, later, restClear, behind⟩ := ih middle middleClear left
      exact ⟨rest, .more read later, restClear, behind⟩

theorem yields_encodeAll (packets : List Packet) (legal : ∀ packet ∈ packets, packet.Legal)
    (tail : Bytes) (source : Source) (clear : source.Faultless)
    (sent : source.bytes = Packet.encodeAll packets ++ tail) :
    ∃ rest, Yields source packets rest ∧ rest.Faultless ∧ rest.bytes = tail :=
  yields_allWritten packets _ tail (Packet.allWritten_encodeAll packets legal) source clear sent

theorem closed_of_bytes (source : Source) (clear : source.Faultless) (none : source.bytes = []) :
    source.Closed := by
  obtain ⟨rest, read, _, _⟩ := next_faultless source clear
  rw [none] at read
  exact ⟨rest, read⟩

/-! ### Lines and content as they are read -/

theorem line_packet (source rest : Source) (packet : Packet)
    (read : source.next = (.ok (some packet), rest)) :
    source.line = (packet.line?.mapError .violation, rest) := by
  simp only [line, reading, read]

theorem contentOnto_packet (got : Array UInt8) (source rest : Source) (packet : Packet)
    (read : source.next = (.ok (some packet), rest)) :
    source.contentOnto got =
      match packet with
      | .flush => (.ok got.toList, rest)
      | .data payload => rest.contentOnto (got ++ payload) := by
  rw [contentOnto]
  split
  all_goals
    rename_i found
    rw [read] at found
    cases found
  · rfl
  · rfl

theorem contentOnto_pieces (pieces : List Bytes) (got : Array UInt8) (source rest : Source)
    (read : source.Yields (pieces.map .data) rest) :
    source.contentOnto got = rest.contentOnto (got ++ pieces.flatten) := by
  induction pieces generalizing got source with
  | nil =>
      cases read
      simp
  | cons piece pieces ih =>
      cases read with
      | more head later =>
          have joined : got ++ piece ++ pieces.flatten = got ++ (piece :: pieces).flatten := by
            apply Array.toList_inj.mp
            simp
          rw [contentOnto_packet got source _ (.data piece) head, ← joined]
          exact ih (got ++ piece) _ later

-- The pieces are put together again, whichever they are.
theorem content_yields (pieces : List Bytes) (source rest : Source)
    (read : source.Yields (pieces.map .data ++ [.flush]) rest) :
    source.content = (.ok pieces.flatten, rest) := by
  rcases (yields_append_iff _ _ _ _).mp read with ⟨middle, collected, ended⟩
  cases ended with
  | more flush done =>
      cases done
      rw [content, contentOnto_pieces pieces #[] source middle collected,
        contentOnto_packet _ middle rest .flush flush]
      simp

end Source

end ContentFilter
