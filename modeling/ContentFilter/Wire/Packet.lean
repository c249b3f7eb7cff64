import ContentFilter.Failure

/-!
The unit of the wire: four hexadecimal digits that count themselves and the payload behind them,
or the flush packet `0000`, which has no payload. `readHeader_header` says that a header written
is the header read. Reading takes letters of either case; writing uses lowercase. Content is cut
into payloads: `cut_flatten` and `mem_cut_length` say that none is lost, empty or too large.
-/

namespace ContentFilter

inductive Packet where
  | data (payload : Bytes)
  | flush
  deriving DecidableEq, Repr

namespace Packet

/-! ### Writing -/

def hexDigit (value : Nat) : UInt8 :=
  if value < 10 then UInt8.ofNat (48 + value) else UInt8.ofNat (87 + value)

/-- Four digits, for sizes below 65536. -/
def header (size : Nat) : Bytes :=
  [hexDigit (size / 4096 % 16), hexDigit (size / 256 % 16), hexDigit (size / 16 % 16),
    hexDigit (size % 16)]

def flushBytes : Bytes := header 0

def encode : Packet → Bytes
  | .data payload => header (headerSize + payload.length) ++ payload
  | .flush => flushBytes

/-- Content in payloads as large as they may be; empty content needs none. -/
def cut : Bytes → List Bytes
  | [] => []
  | first :: rest =>
      (first :: rest).take maxPayload :: cut ((first :: rest).drop maxPayload)
termination_by content => content.length
decreasing_by
  simp only [List.length_drop, List.length_cons, maxPayload, maxSize, headerSize]
  omega

theorem maxPayload_pos : 0 < maxPayload := by decide

theorem cut_flatten (content : Bytes) : (cut content).flatten = content := by
  fun_induction cut content with
  | case1 => rfl
  | case2 first rest ih => rw [List.flatten_cons, ih, List.take_append_drop]

/-- No payload is empty, and each fits a packet. -/
theorem mem_cut_length (content payload : Bytes) (member : payload ∈ cut content) :
    0 < payload.length ∧ payload.length ≤ maxPayload := by
  fun_induction cut content with
  | case1 => cases member
  | case2 first rest ih =>
      rcases List.mem_cons.mp member with same | later
      · subst payload
        have positive := maxPayload_pos
        simp only [List.length_take, List.length_cons]
        omega
      · exact ih later

/-! ### Reading -/

def hexValue? (digit : UInt8) : Option Nat :=
  if 48 ≤ digit ∧ digit ≤ 57 then some (digit.toNat - 48)
  else if 97 ≤ digit ∧ digit ≤ 102 then some (digit.toNat - 87)
  else if 65 ≤ digit ∧ digit ≤ 70 then some (digit.toNat - 55)
  else none

/-- The number four digits stand for; a sign or a blank is no digit. -/
def hexNumber? : Bytes → Option Nat
  | [a, b, c, d] => do
      let a ← hexValue? a
      let b ← hexValue? b
      let c ← hexValue? c
      let d ← hexValue? d
      return ((a * 16 + b) * 16 + c) * 16 + d
  | _ => none

/-- What a header promises. -/
inductive Promise where
  | flush
  | payload (size : Nat)
  deriving DecidableEq, Repr

/-- Reads the bytes that were there for a header, of which there may be fewer than four. -/
def readHeader (raw : Bytes) : Except Violation Promise :=
  if raw.length < headerSize then .error (.shortHeader raw.length)
  else match hexNumber? raw with
    | none => .error (.badHeader raw)
    | some size =>
        if size = 0 then .ok .flush
        else if size < headerSize then .error (.reservedSize size)
        else if maxSize < size then .error (.oversize size)
        else .ok (.payload (size - headerSize))

theorem hexValue?_hexDigit (value : Nat) (small : value < 16) :
    hexValue? (hexDigit value) = some value := by
  have every : ∀ digit : Fin 16, hexValue? (hexDigit digit) = some digit.val := by decide
  exact every ⟨value, small⟩

theorem hexNumber?_header (size : Nat) (small : size < 65536) :
    hexNumber? (header size) = some size := by
  simp only [header, hexNumber?, hexValue?_hexDigit _ (Nat.mod_lt _ (by decide : 0 < 16)),
    Option.bind_eq_bind, Option.bind_some, Option.pure_def]
  congr 1
  omega

theorem header_length (size : Nat) : (header size).length = headerSize := rfl

/-- A header of a legal data packet is read as the payload size it was written for. -/
theorem readHeader_header (size : Nat) (fits : size ≤ maxPayload) :
    readHeader (header (headerSize + size)) = .ok (.payload size) := by
  simp only [maxPayload, maxSize, headerSize] at fits
  have number := hexNumber?_header (headerSize + size) (by simp only [headerSize]; omega)
  have positive : ¬ headerSize + size = 0 := by simp only [headerSize]; omega
  have large : ¬ headerSize + size < headerSize := by omega
  have legal : ¬ maxSize < headerSize + size := by simp only [maxSize, headerSize]; omega
  simp only [readHeader, header_length, Nat.lt_irrefl, number, positive, large, legal,
    ↓reduceIte, Nat.add_sub_cancel_left]

end Packet

end ContentFilter
