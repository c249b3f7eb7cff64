import ContentFilter.Proofs.RoundTrip
import Mathlib.Data.Nat.Digits.Defs

/-!
What any bytes are read as. A header is told by the letters of its digits and the number that they
stand for; `Misframed` lists the bytes of which no packet can be read, with what is wrong with them.
Together with the end, the flush and the packets nothing is left out, and how many bytes have been
taken can be told by what they were read as: `next_classified`.
-/

namespace ContentFilter

namespace Packet

/-! ### The number in a header -/

/-- `letter` is the hexadecimal digit `value`, in either case. -/
def StandsFor (letter : UInt8) (value : Nat) : Prop :=
  ∃ letters ∈ ["0123456789abcdef", "0123456789ABCDEF"],
    (Text.bytes letters)[value]? = some letter

instance (letter : UInt8) (value : Nat) : Decidable (StandsFor letter value) := by
  unfold StandsFor
  infer_instance

/-- Four digits that together are `size`. -/
def Numbers (header : Bytes) (size : Nat) : Prop :=
  ∃ digits : List Nat, digits.length = 4 ∧ List.Forall₂ StandsFor header digits ∧
    Nat.ofDigits 16 digits.reverse = size

theorem hexValue?_eq_some_iff (letter : UInt8) (value : Nat) :
    hexValue? letter = some value ↔ StandsFor letter value := by
  constructor
  · intro read
    have every : ∀ letter, ∀ value ∈ hexValue? letter, StandsFor letter value :=
      forall_byte (by decide +kernel)
    exact every letter value read
  · rintro ⟨letters, member, found⟩
    have every : ∀ letters ∈ ["0123456789abcdef", "0123456789ABCDEF"],
        (Text.bytes letters).length = 16 ∧
          ∀ value : Fin 16, ∀ letter ∈ (Text.bytes letters)[value.val]?,
            hexValue? letter = some value.val := by
      decide +kernel
    obtain ⟨sixteen, each⟩ := every letters member
    obtain ⟨inside, _⟩ := List.getElem?_eq_some_iff.mp found
    exact each ⟨value, sixteen ▸ inside⟩ letter found

theorem hexValue?_eq_none_iff (letter : UInt8) :
    hexValue? letter = none ↔ ∀ value, ¬StandsFor letter value := by
  simp only [Option.eq_none_iff_forall_ne_some, ne_eq, hexValue?_eq_some_iff]

theorem hexNumber?_eq_some_iff (header : Bytes) (size : Nat) :
    hexNumber? header = some size ↔ Numbers header size := by
  have positional (a b c d : Nat) :
      Nat.ofDigits 16 [a, b, c, d].reverse = ((a * 16 + b) * 16 + c) * 16 + d := by
    simp only [List.reverse_cons, List.reverse_nil, List.nil_append, List.cons_append,
      Nat.ofDigits_cons, Nat.ofDigits_nil]
    omega
  constructor
  · intro read
    unfold hexNumber? at read
    split at read
    · simp only [Option.bind_eq_bind, Option.bind_eq_some_iff, Option.pure_def, Option.some.injEq,
        hexValue?_eq_some_iff] at read
      obtain ⟨a, readA, b, readB, c, readC, d, readD, same⟩ := read
      exact ⟨[a, b, c, d], rfl, .cons readA (.cons readB (.cons readC (.cons readD .nil))),
        (positional a b c d).trans same⟩
    · cases read
  · rintro ⟨digits, four, each, same⟩
    match digits, four with
    | [a, b, c, d], _ =>
        rw [positional] at same
        cases each with
        | cons readA more =>
        cases more with
        | cons readB more =>
        cases more with
        | cons readC more =>
        cases more with
        | cons readD more =>
        cases more
        simp only [← hexValue?_eq_some_iff] at readA readB readC readD
        simp only [hexNumber?, readA, readB, readC, readD, Option.bind_eq_bind, Option.bind_some,
          Option.pure_def, same]

theorem hexNumber?_eq_none_iff (header : Bytes) (four : header.length = headerSize) :
    hexNumber? header = none ↔ ∃ letter ∈ header, ∀ value, ¬StandsFor letter value := by
  simp only [← hexValue?_eq_none_iff]
  match header, four with
  | [a, b, c, d], _ =>
      simp only [hexNumber?, List.mem_cons, List.not_mem_nil, or_false, exists_eq_or_imp,
        exists_eq_left]
      cases hexValue? a <;> cases hexValue? b <;> cases hexValue? c <;> cases hexValue? d <;> simp

theorem numbers_zero_iff (raw : Bytes) : Numbers raw 0 ↔ raw = Text.bytes "0000" := by
  rw [← hexNumber?_eq_some_iff]
  constructor
  · intro read
    have zeros : raw.map lowerDigit = List.replicate 4 48 := (header_hexNumber? raw 0 read).symm
    obtain ⟨four, each⟩ := List.eq_replicate_iff.mp zeros
    rw [List.length_map] at four
    refine List.eq_replicate_iff.mpr ⟨four, fun letter member => ?_⟩
    -- No capital letter is the spelling of a zero.
    have every : ∀ letter, lowerDigit letter = 48 → letter = 48 := forall_byte (by decide +kernel)
    exact every letter (each _ (List.mem_map_of_mem member))
  · rintro rfl
    decide

/-! ### Bytes that begin with no packet -/

/-- What is wrong with the first of the bytes. -/
inductive Misframed (raw : Bytes) : Violation → Prop
  | shortHeader (present : raw ≠ []) (few : raw.length < 4) :
      Misframed raw (.shortHeader raw.length)
  | badHeader {letter : UInt8} (four : 4 ≤ raw.length) (member : letter ∈ raw.take 4)
      (stray : ∀ value, ¬StandsFor letter value) : Misframed raw (.badHeader (raw.take 4))
  | reservedSize {size : Nat} (number : Numbers (raw.take 4) size) (positive : 0 < size)
      (small : size < 4) : Misframed raw (.reservedSize size)
  | oversize {size : Nat} (number : Numbers (raw.take 4) size) (large : 65520 < size) :
      Misframed raw (.oversize size)
  | shortPayload {size : Nat} (number : Numbers (raw.take 4) size) (least : 4 ≤ size)
      (most : size ≤ 65520) (few : raw.length < size) :
      Misframed raw (.shortPayload (raw.length - 4) (size - 4))

theorem numbers_length (raw : Bytes) (size : Nat) (number : Numbers (raw.take 4) size) :
    4 ≤ raw.length := by
  obtain ⟨digits, four, each, _⟩ := number
  have whole := each.length_eq
  rw [four, List.length_take] at whole
  omega

theorem readHeader_eq_error_iff (header : Bytes) (what : Violation) :
    readHeader header = .error what ↔
      header.length < 4 ∧ what = .shortHeader header.length ∨
      4 ≤ header.length ∧ hexNumber? header = none ∧ what = .badHeader header ∨
      ∃ size, hexNumber? header = some size ∧
        (0 < size ∧ size < 4 ∧ what = .reservedSize size ∨
          65520 < size ∧ what = .oversize size) := by
  have four := hexNumber?_length header
  simp only [readHeader, headerSize, maxSize] at four ⊢
  grind

/-- How many bytes have been taken away, by what they were read as. -/
def consumed : Except Violation (Option Packet) → Nat
  | .ok none => 0
  | .ok (some .flush) => 4
  | .ok (some (.data payload)) => 4 + payload.length
  | .error (.shortHeader got) => got
  | .error (.shortPayload got _) => 4 + got
  | .error _ => 4

theorem first_objected (raw : Bytes) (what : Violation) (present : raw.take headerSize ≠ [])
    (objected : readHeader (raw.take headerSize) = .error what) :
    first raw = (.error what, raw.drop headerSize) := by
  simp only [first, present, objected, ↓reduceIte]

theorem misframed_of_first (raw left : Bytes) (what : Violation)
    (read : first raw = (.error what, left)) :
    Misframed raw what ∧ left = raw.drop (consumed (.error what)) := by
  have sizes : headerSize = 4 ∧ maxPayload = 65516 := ⟨rfl, rfl⟩
  unfold first at read
  dsimp only at read
  split at read
  · cases read
  · rename_i present
    split at read
    · rename_i objected
      cases read
      rcases (readHeader_eq_error_iff _ what).mp objected with
        ⟨few, rfl⟩ | ⟨four, stray, rfl⟩ | ⟨size, number, wrong⟩
      · rw [List.length_take, sizes.1] at few
        have whole : raw.take headerSize = raw := List.take_of_length_le (by omega)
        rw [whole] at present ⊢
        refine ⟨.shortHeader present (by omega), ?_⟩
        rw [consumed, List.drop_length, List.drop_of_length_le (by omega)]
      · rw [List.length_take, sizes.1] at four
        have whole : (raw.take headerSize).length = headerSize := by
          rw [List.length_take]
          omega
        obtain ⟨letter, member, none⟩ := (hexNumber?_eq_none_iff _ whole).mp stray
        exact ⟨.badHeader (by omega) member none, rfl⟩
      · have numbers := (hexNumber?_eq_some_iff _ size).mp number
        rcases wrong with ⟨positive, small, rfl⟩ | ⟨large, rfl⟩
        · exact ⟨.reservedSize numbers positive small, rfl⟩
        · exact ⟨.oversize numbers large, rfl⟩
    · cases read
    · rename_i size promised
      obtain ⟨number, fits⟩ := (readHeader_payload_iff _ size).mp promised
      have numbers := (hexNumber?_eq_some_iff _ _).mp number
      have four := numbers_length raw _ numbers
      split at read
      · cases read
      · rename_i short
        cases read
        rw [List.length_take, List.length_drop] at short
        have rest : ((raw.drop headerSize).take size).length = raw.length - 4 := by
          rw [List.length_take, List.length_drop]
          omega
        have wrong := Misframed.shortPayload numbers (by omega) (by omega) (by omega)
        rw [sizes.1, Nat.add_sub_cancel_left] at wrong
        rw [rest]
        refine ⟨wrong, ?_⟩
        rw [consumed, List.drop_drop, List.drop_of_length_le (by omega),
          List.drop_of_length_le (by omega)]

theorem first_of_misframed (raw : Bytes) (what : Violation) (wrong : Misframed raw what) :
    (first raw).1 = .error what := by
  have sizes : headerSize = 4 ∧ maxPayload = 65516 := ⟨rfl, rfl⟩
  have objected (four : 4 ≤ raw.length) (stops : readHeader (raw.take 4) = .error what) :
      (first raw).1 = .error what := by
    have present : raw.take headerSize ≠ [] := by
      rw [ne_eq, ← List.length_eq_zero_iff, List.length_take]
      omega
    rw [first_objected raw what present stops]
  cases wrong with
  | shortHeader present few =>
      have whole : raw.take headerSize = raw := List.take_of_length_le (by omega)
      have stops := (readHeader_eq_error_iff raw _).mpr (.inl ⟨few, rfl⟩)
      rw [first_objected raw _ (by rwa [whole]) (by rw [whole, stops])]
  | badHeader four member stray =>
      have whole : (raw.take 4).length = headerSize := by
        rw [List.length_take]
        omega
      have number := (hexNumber?_eq_none_iff _ whole).mpr ⟨_, member, stray⟩
      exact objected four ((readHeader_eq_error_iff _ _).mpr (.inr (.inl ⟨by omega, number, rfl⟩)))
  | reservedSize numbers positive small =>
      have number := (hexNumber?_eq_some_iff _ _).mpr numbers
      exact objected (numbers_length raw _ numbers) ((readHeader_eq_error_iff _ _).mpr
        (.inr (.inr ⟨_, number, .inl ⟨positive, small, rfl⟩⟩)))
  | oversize numbers large =>
      have number := (hexNumber?_eq_some_iff _ _).mpr numbers
      exact objected (numbers_length raw _ numbers) ((readHeader_eq_error_iff _ _).mpr
        (.inr (.inr ⟨_, number, .inr ⟨large, rfl⟩⟩)))
  | @shortPayload size numbers least most few =>
      have number := (hexNumber?_eq_some_iff _ _).mpr numbers
      have four := numbers_length raw _ numbers
      have behind : headerSize + (size - 4) = size := by omega
      have promised : readHeader (raw.take headerSize) = .ok (.payload (size - 4)) :=
        (readHeader_payload_iff _ _).mpr ⟨number.trans (congrArg some behind.symm), by omega⟩
      have present : raw.take headerSize ≠ [] := by
        rw [ne_eq, ← List.length_eq_zero_iff, List.length_take]
        omega
      have left : ((raw.drop headerSize).take (size - 4)).length = raw.length - 4 := by
        rw [List.length_take, List.length_drop]
        omega
      have short : ¬raw.length - 4 = size - 4 := by omega
      simp only [first, present, promised, left, short, ↓reduceIte]

/-! ### Bytes that begin with a packet -/

theorem first_flush_iff (raw : Bytes) :
    (first raw).1 = .ok (some .flush) ↔ Text.bytes "0000" <+: raw := by
  constructor
  · intro read
    obtain ⟨written, spelled, whole⟩ := (first_eq_packet_iff .flush raw _).mp (Prod.ext read rfl)
    cases spelled with
    | flush zero =>
        rw [(numbers_zero_iff written).mp ((hexNumber?_eq_some_iff _ _).mp zero)] at whole
        exact ⟨_, whole.symm⟩
  · rintro ⟨rest, rfl⟩
    rw [(first_eq_packet_iff .flush _ rest).mpr ⟨_, .flush (by decide), rfl⟩]

theorem first_data_iff (raw payload : Bytes) :
    (first raw).1 = .ok (some (.data payload)) ↔
      ∃ size, Numbers (raw.take 4) size ∧ 4 ≤ size ∧ size ≤ 65520 ∧ size ≤ raw.length ∧
        payload = (raw.drop 4).take (size - 4) := by
  have sizes : headerSize = 4 ∧ maxPayload = 65516 := ⟨rfl, rfl⟩
  constructor
  · intro read
    obtain ⟨rest, found⟩ : ∃ rest, first raw = (.ok (some (.data payload)), rest) :=
      ⟨_, Prod.ext read rfl⟩
    obtain ⟨written, spelled, whole⟩ := (first_eq_packet_iff (.data payload) raw rest).mp found
    cases spelled with
    | @data header payload number legal =>
        have four : header.length = 4 := hexNumber?_length header _ number
        subst whole
        simp only [List.append_assoc, List.take_left' four, List.drop_left' four]
        refine ⟨_, (hexNumber?_eq_some_iff header _).mp number, by omega, by omega, ?_, ?_⟩
        · simp only [List.length_append]
          omega
        · rw [sizes.1, Nat.add_sub_cancel_left, List.take_left]
  · rintro ⟨size, numbers, least, most, enough, rfl⟩
    have payload : ((raw.drop 4).take (size - 4)).length = size - 4 := by
      rw [List.length_take, List.length_drop]
      omega
    have number : hexNumber? (raw.take 4) = some (headerSize + (size - 4)) := by
      rw [(hexNumber?_eq_some_iff _ _).mpr numbers, sizes.1]
      congr 1
      omega
    rw [← payload] at number
    have whole : raw = raw.take 4 ++ (raw.drop 4).take (size - 4) ++
        (raw.drop 4).drop (size - 4) := by
      rw [List.append_assoc, List.take_append_drop, List.take_append_drop]
    rw [(first_eq_packet_iff _ raw _).mpr ⟨_, .data number (by omega), whole⟩]

theorem first_left (raw : Bytes) : (first raw).2 = raw.drop (consumed (first raw).1) := by
  cases read : first raw with
  | mk found left =>
      cases found with
      | error what => exact (misframed_of_first raw left what read).2
      | ok packet? =>
          cases packet? with
          | none =>
              obtain ⟨rfl, rfl⟩ := (first_eq_none_iff raw left).mp read
              rfl
          | some packet =>
              obtain ⟨written, spelled, rfl⟩ := (first_eq_packet_iff packet raw left).mp read
              cases spelled with
              | flush zero =>
                  exact (List.drop_left' (hexNumber?_length written _ zero)).symm
              | @data header payload number legal =>
                  refine (List.drop_left' ?_).symm
                  rw [List.length_append, hexNumber?_length header _ number]
                  rfl

theorem first_error_iff (raw : Bytes) (what : Violation) :
    (first raw).1 = .error what ↔ Misframed raw what :=
  ⟨fun read => (misframed_of_first raw _ what (Prod.ext read rfl)).1, first_of_misframed raw what⟩

theorem first_ended_iff (raw : Bytes) : (first raw).1 = .ok none ↔ raw = [] := by
  constructor
  · intro read
    exact ((first_eq_none_iff raw _).mp (Prod.ext read rfl)).1
  · rintro rfl
    rfl

-- Signs and blanks, which a reader of numbers might let pass, and whatever is not ASCII.
theorem stray_of_sign (letter : UInt8) (sign : letter ∈ Text.bytes "+- " ∨ 128 ≤ letter) :
    ∀ value, ¬StandsFor letter value := by
  have every : ∀ letter, letter ∈ Text.bytes "+- " ∨ 128 ≤ letter → hexValue? letter = none :=
    forall_byte (by decide +kernel)
  exact (hexValue?_eq_none_iff letter).mp (every letter sign)

end Packet

/-- Whatever the bytes are and however they arrive, they are read as exactly one of these, and as
many of them are taken as this says. -/
theorem Source.next_classified (source : Source) (clear : source.Faultless) :
    ∃ found rest, source.next = (found.mapError .violation, rest) ∧ rest.Faultless ∧
      rest.bytes = source.bytes.drop (Packet.consumed found) ∧
      (found = .ok none ↔ source.bytes = []) ∧
      (found = .ok (some .flush) ↔ Text.bytes "0000" <+: source.bytes) ∧
      (∀ payload, found = .ok (some (.data payload)) ↔
        ∃ size, Packet.Numbers (source.bytes.take 4) size ∧ 4 ≤ size ∧ size ≤ 65520 ∧
          size ≤ source.bytes.length ∧ payload = (source.bytes.drop 4).take (size - 4)) ∧
      (∀ what, found = .error what ↔ Packet.Misframed source.bytes what) ∧
      ∀ letter ∈ source.bytes.take 4, 4 ≤ source.bytes.length →
        letter ∈ Text.bytes "+- " ∨ 128 ≤ letter →
          found = .error (.badHeader (source.bytes.take 4)) := by
  obtain ⟨rest, read, restClear, left⟩ := source.next_faultless clear
  refine ⟨_, rest, read, restClear, left.trans (Packet.first_left _), Packet.first_ended_iff _,
    Packet.first_flush_iff _, Packet.first_data_iff _, Packet.first_error_iff _, ?_⟩
  intro letter member four sign
  exact (Packet.first_error_iff _ _).mpr
    (.badHeader four member (Packet.stray_of_sign letter sign))

-- The header and the payload arrive in pieces, and one letter of the header is a capital.
theorem Source.next_classified_pieces :
    let source : Source :=
      [.bytes (Text.bytes "00"), .pause, .bytes (Text.bytes "0Ahel"), .bytes (Text.bytes "lo\n+1")]
    source.Faultless ∧ ∃ rest,
      source.next = (.ok (some (.data (Text.bytes "hello\n"))), rest) ∧
        rest.bytes = Text.bytes "+1" := by
  intro source
  have clear : source.Faultless := by simp [Source.Faultless, source]
  obtain ⟨found, rest, read, _, left, _, _, data, _⟩ := source.next_classified clear
  have number : Packet.Numbers (source.bytes.take 4) 10 :=
    (Packet.hexNumber?_eq_some_iff _ _).mp (by decide)
  have payload := (data (Text.bytes "hello\n")).mpr
    ⟨10, number, by decide, by decide, by decide, by decide⟩
  subst payload
  exact ⟨clear, rest, read, left.trans (by decide)⟩

end ContentFilter
