/-!
Text and the bytes that carry it.

A line of the protocol arrives as bytes and is text only if they are UTF-8. `ofBytes?_eq_some_iff`
says that exactly the bytes of a text are accepted, so no two spellings reach the rest of the
filter as one text. Bytes that are not text appear in messages through `display`.
-/

namespace ContentFilter

abbrev Bytes := List UInt8

-- What is to hold of all 256 bytes can be computed.
theorem forall_byte {holds : UInt8 → Prop} (every : ∀ code : Fin 256, holds (UInt8.ofNat code))
    (byte : UInt8) : holds byte := by
  have found := every ⟨byte.toNat, byte.toNat_lt⟩
  rwa [UInt8.ofNat_toNat] at found

namespace Text

def newline : UInt8 := 10

def bytes (text : String) : Bytes := text.toUTF8.data.toList

def ofBytes? (raw : Bytes) : Option String := String.fromUTF8? ⟨raw.toArray⟩

theorem ofBytes?_bytes (text : String) : ofBytes? (bytes text) = some text := by
  have valid : ByteArray.IsValidUTF8 ⟨(bytes text).toArray⟩ := text.isValidUTF8
  simp only [ofBytes?, String.fromUTF8?, valid, ↓reduceDIte]
  rfl

theorem ofBytes?_eq_some_iff (raw : Bytes) (text : String) :
    ofBytes? raw = some text ↔ raw = bytes text := by
  constructor
  · intro read
    simp only [ofBytes?, String.fromUTF8?] at read
    split at read
    · cases read
      simp [bytes, String.fromUTF8]
    · cases read
  · intro same
    rw [same, ofBytes?_bytes]

theorem bytes_append (front back : String) : bytes (front ++ back) = bytes front ++ bytes back := by
  simp only [bytes, String.toUTF8, String.toByteArray_append, ByteArray.data_append,
    Array.toList_append]

theorem bytes_join (texts : List String) : bytes (String.join texts) = texts.flatMap bytes := by
  induction texts with
  | nil => rfl
  | cons text rest ih => rw [String.join_cons, bytes_append, List.flatMap_cons, ih]

/-! ### Prefixes -/

def strip : List Char → List Char → Option (List Char)
  | [], rest => some rest
  | _ :: _, [] => none
  | first :: lead, char :: rest => if first = char then strip lead rest else none

/-- What follows `lead` in `text`, if `text` starts with it. -/
def after? (lead text : String) : Option String :=
  (strip lead.toList text.toList).map String.ofList

theorem strip_eq_some_iff (lead text rest : List Char) :
    strip lead text = some rest ↔ text = lead ++ rest := by
  induction lead generalizing text with
  | nil => simp [strip, eq_comm]
  | cons first lead ih =>
      cases text with
      | nil => simp [strip]
      | cons char text =>
          by_cases same : first = char
          · simp [strip, same, ih]
          · simp [strip, same, Ne.symm same]

theorem after?_eq_some_iff (lead text rest : String) :
    after? lead text = some rest ↔ text = lead ++ rest := by
  simp only [after?, Option.map_eq_some_iff, strip_eq_some_iff]
  constructor
  · rintro ⟨chars, split, rfl⟩
    rw [← String.toList_inj]
    simp [split]
  · intro joined
    exact ⟨rest.toList, by simp [joined], by simp⟩

/-! ### Sets of names

A set of names is shown in ascending byte order, each name once. Comparing by code point is
comparing by UTF-8 byte, as `bytes_lt` says. `mem_sortedSet` and `sortedSet_ascending` leave one
list for each set.
-/

def dropRepeats : List String → List String
  | first :: second :: rest =>
      if first = second then dropRepeats (second :: rest)
      else first :: dropRepeats (second :: rest)
  | short => short

def sortedSet (names : List String) : List String :=
  dropRepeats (names.mergeSort fun left right => decide (left ≤ right))

theorem mem_dropRepeats (names : List String) (name : String) :
    name ∈ dropRepeats names ↔ name ∈ names := by
  fun_induction dropRepeats names with
  | case1 first rest ih => simp [ih]
  | case2 first second rest _ ih => simp [ih]
  | case3 => rfl

theorem mem_sortedSet (names : List String) (name : String) :
    name ∈ sortedSet names ↔ name ∈ names := by
  rw [sortedSet, mem_dropRepeats, List.mem_mergeSort]

theorem dropRepeats_ascending (names : List String)
    (sorted : names.Pairwise fun left right => left ≤ right) :
    (dropRepeats names).Pairwise fun left right => left < right := by
  fun_induction dropRepeats names with
  | case1 first rest ih => exact ih sorted.of_cons
  | case2 first second rest apart ih =>
      refine List.pairwise_cons.mpr ⟨fun name member => ?_, ih sorted.of_cons⟩
      have below : first ≤ second := List.rel_of_pairwise_cons sorted List.mem_cons_self
      rw [mem_dropRepeats] at member
      rcases List.mem_cons.mp member with same | later
      · subst name
        exact String.not_le.mp fun above => apart (String.le_antisymm below above)
      -- A later name is no smaller than `second`, which is not `first`.
      · have upward : second ≤ name := List.rel_of_pairwise_cons sorted.of_cons later
        exact String.not_le.mp fun above =>
          apart (String.le_antisymm below (String.le_trans upward above))
  | case3 names short =>
      match names, short with
      | [], _ => exact List.Pairwise.nil
      | [only], _ => exact List.pairwise_singleton _ _
      | first :: second :: rest, short => exact (short first second rest rfl).elim

theorem sortedSet_ascending (names : List String) :
    (sortedSet names).Pairwise fun left right => left < right := by
  apply dropRepeats_ascending
  have sorted := List.pairwise_mergeSort
    (fun left middle right (first : decide (left ≤ middle) = true)
        (second : decide (middle ≤ right) = true) =>
      decide_eq_true (String.le_trans (of_decide_eq_true first) (of_decide_eq_true second)))
    (fun left right => by
      rcases String.le_total left right with up | down
      · simp [up]
      · simp [down])
    names
  exact sorted.imp fun below => of_decide_eq_true below

-- The longer a character, the larger its first byte; equally long ones are compared byte by byte.
theorem utf8EncodeChar_lt (left right : Char) (below : left < right) (front back : Bytes) :
    String.utf8EncodeChar left ++ front < String.utf8EncodeChar right ++ back := by
  have codes : left.val.toNat < right.val.toNat := UInt32.lt_iff_toNat_lt.mp below
  have bound : right.val.toNat < 0x110000 := by
    rcases right.valid with low | ⟨_, high⟩
    · exact Nat.lt_trans low (by decide)
    · exact high
  unfold String.utf8EncodeChar
  dsimp only
  repeat' split
  all_goals
    simp only [List.cons_append, List.nil_append, List.cons_lt_cons_iff, ← UInt8.toNat_inj,
      UInt8.lt_iff_toNat_lt, UInt8.toNat_ofNat']
    simp (disch := omega) only [Nat.mod_eq_of_lt]
    omega

theorem bytes_eq_flatMap (text : String) :
    bytes text = text.toList.flatMap String.utf8EncodeChar := by
  rw [bytes, String.toUTF8, ← String.utf8Encode_toList, List.utf8Encode,
    List.toList_data_toByteArray]

theorem flatMap_utf8EncodeChar_lt (left right : List Char) (below : left < right) :
    left.flatMap String.utf8EncodeChar < right.flatMap String.utf8EncodeChar := by
  induction left generalizing right with
  | nil =>
      cases right with
      | nil => exact absurd below (List.not_lt_nil [])
      | cons char rest =>
          rw [List.flatMap_nil, List.flatMap_cons]
          cases encoded : String.utf8EncodeChar char with
          | nil => exact absurd encoded (by simp)
          | cons byte more => exact List.nil_lt_cons _ _
  | cons first rest ih =>
      cases right with
      | nil => exact absurd below (List.not_lt_nil _)
      | cons char others =>
          rw [List.flatMap_cons, List.flatMap_cons]
          rcases List.cons_lt_cons_iff.mp below with smaller | ⟨rfl, later⟩
          · exact utf8EncodeChar_lt first char smaller _ _
          · exact List.append_left_lt (ih others later)

theorem bytes_lt (left right : String) (below : left < right) : bytes left < bytes right := by
  rw [bytes_eq_flatMap, bytes_eq_flatMap]
  exact flatMap_utf8EncodeChar_lt _ _ (String.lt_iff.mp below)

/-! ### Newlines -/

theorem newline_mem_utf8EncodeChar (char : Char) :
    newline ∈ String.utf8EncodeChar char ↔ char = '\n' := by
  constructor
  · intro member
    have ten : (10 : UInt8).toNat = 10 := rfl
    have code : char.val.toNat = 10 := by
      unfold String.utf8EncodeChar newline at member
      dsimp only at member
      repeat' split at member
      all_goals
        simp only [List.mem_cons, List.not_mem_nil, or_false, ← UInt8.toNat_inj,
          UInt8.toNat_ofNat', ten] at member
        omega
    exact Char.ext (UInt32.toNat_inj.mp code)
  · rintro rfl
    decide

theorem newline_mem_bytes_iff (text : String) : newline ∈ bytes text ↔ '\n' ∈ text.toList := by
  simp only [bytes_eq_flatMap, List.mem_flatMap, newline_mem_utf8EncodeChar, exists_eq_right]

/-- Text ends with the byte of a newline only if it ends with a newline. -/
theorem getLast?_bytes_iff (text : String) :
    (bytes text).getLast? = some newline ↔ ∃ front, text = front ++ "\n" := by
  constructor
  · intro last
    rcases List.eq_nil_or_concat text.toList with empty | ⟨front, char, parts⟩
    · rw [bytes_eq_flatMap, empty] at last
      cases last
    · rw [bytes_eq_flatMap, parts, List.concat_eq_append, List.flatMap_append,
        List.flatMap_singleton, List.getLast?_append] at last
      have ended : (String.utf8EncodeChar char).getLast? = some newline := by
        cases found : (String.utf8EncodeChar char).getLast? with
        | none => simp at found
        | some byte => simpa [found] using last
      obtain rfl := (newline_mem_utf8EncodeChar char).mp (List.mem_of_getLast? ended)
      refine ⟨String.ofList front, ?_⟩
      rw [← String.toList_inj, parts]
      simp
  · rintro ⟨front, rfl⟩
    have ended : bytes "\n" = [newline] := rfl
    rw [bytes_append, ended, List.getLast?_concat]

/-! ### Showing bytes that may not be text -/

/-- What must follow the first byte of a character of several bytes: `more` bytes, the first of
them between `low` and `high` and the others continuation bytes. The narrowed ranges leave out
overlong forms, surrogates and code points above U+10FFFF. -/
structure Lead where
  bits : Nat
  more : Nat
  low : UInt8
  high : UInt8

def lead? (first : UInt8) : Option Lead :=
  let range (low high : UInt8) : Bool := low ≤ first && first ≤ high
  if range 0xC2 0xDF then some ⟨first.toNat - 0xC0, 1, 0x80, 0xBF⟩
  else if first == 0xE0 then some ⟨0, 2, 0xA0, 0xBF⟩
  else if first == 0xED then some ⟨0xD, 2, 0x80, 0x9F⟩
  else if range 0xE1 0xEF then some ⟨first.toNat - 0xE0, 2, 0x80, 0xBF⟩
  else if first == 0xF0 then some ⟨0, 3, 0x90, 0xBF⟩
  else if first == 0xF4 then some ⟨4, 3, 0x80, 0x8F⟩
  else if range 0xF1 0xF3 then some ⟨first.toNat - 0xF0, 3, 0x80, 0xBF⟩
  else none

/-- The outcome of reading on behind a first byte: the code point so far, the bytes still
missing from the character, and what is left unread. -/
structure Tail where
  code : Nat
  missing : Nat
  rest : Bytes

def readTail (code : Nat) : Nat → UInt8 → UInt8 → Bytes → Tail
  | 0, _, _, rest => ⟨code, 0, rest⟩
  | missing + 1, _, _, [] => ⟨code, missing + 1, []⟩
  | missing + 1, low, high, byte :: rest =>
      if low ≤ byte && byte ≤ high then
        readTail (code * 64 + (byte.toNat - 0x80)) missing 0x80 0xBF rest
      else ⟨code, missing + 1, byte :: rest⟩

theorem readTail_length (code missing : Nat) (low high : UInt8) (raw : Bytes) :
    (readTail code missing low high raw).rest.length ≤ raw.length := by
  induction raw generalizing code missing low high with
  | nil => cases missing <;> simp [readTail]
  | cons byte rest ih =>
      cases missing with
      | zero => simp [readTail]
      | succ missing =>
          simp only [readTail]
          split
          · exact Nat.le_succ_of_le (ih _ _ _ _)
          · simp

def replacement : Char := '\uFFFD'

/-- Appends `raw` to `shown`. A piece that begins like a character and does not complete it
becomes one replacement character, and so does every byte that begins none. -/
def displayOnto (shown : String) (raw : Bytes) : String :=
  match raw with
  | [] => shown
  | first :: rest =>
      if first < 0x80 then displayOnto (shown.push (Char.ofNat first.toNat)) rest
      else match lead? first with
        | none => displayOnto (shown.push replacement) rest
        | some lead =>
            let tail := readTail lead.bits lead.more lead.low lead.high rest
            let char := if tail.missing = 0 then Char.ofNat tail.code else replacement
            have := readTail_length lead.bits lead.more lead.low lead.high rest
            displayOnto (shown.push char) tail.rest
termination_by raw.length
decreasing_by all_goals simp_all only [List.length_cons]; omega

def display (raw : Bytes) : String := displayOnto "" raw

end Text

end ContentFilter
