import ContentFilter.Wire.Source

/-!
Packets as bytes, without arrivals. `Packet.first` takes one packet off a byte string;
`Source.next_faultless` says that a source without faults is read exactly so, whatever the sizes
of its pieces and however often a read was interrupted. `Packet.first_encode` says that a packet
written is the packet read, and that nothing behind it is touched.
-/

namespace ContentFilter

namespace Packet

/-- A packet that may be written: the limit is on data packets only. -/
def Legal : Packet → Prop
  | .data payload => payload.length ≤ maxPayload
  | .flush => True

instance (packet : Packet) : Decidable packet.Legal := by
  cases packet <;> unfold Legal <;> infer_instance

def encodeAll (packets : List Packet) : Bytes := packets.flatMap encode

/-- The first packet of a byte string and what follows it; `none` for no bytes at all. After a
violation the bytes that were looked at are gone. -/
def first (raw : Bytes) : Except Violation (Option Packet) × Bytes :=
  let header := raw.take headerSize
  let rest := raw.drop headerSize
  if header = [] then (.ok none, rest)
  else match readHeader header with
    | .error what => (.error what, rest)
    | .ok .flush => (.ok (some .flush), rest)
    | .ok (.payload size) =>
        let payload := rest.take size
        if payload.length = size then (.ok (some (.data payload)), rest.drop size)
        else (.error (.shortPayload payload.length size), rest.drop size)

theorem first_encode (packet : Packet) (legal : packet.Legal) (rest : Bytes) :
    first (packet.encode ++ rest) = (.ok (some packet), rest) := by
  cases packet with
  | flush => rfl
  | data payload =>
      have read := readHeader_header payload.length legal
      simp only [header, headerSize] at read
      simp [first, encode, header, headerSize, read]

end Packet

namespace Source

/-- The bytes that will arrive. -/
def bytes (source : Source) : Bytes := source.flatMap fun
  | .bytes piece => piece
  | _ => []

/-- No read will fail for good; it may be interrupted. -/
def Faultless (source : Source) : Prop := ∀ reason, .fault reason ∉ source

theorem faultless_cons (first : Arrival) (later : Source)
    (whole : Faultless (first :: later)) : Faultless later :=
  fun reason member => whole reason (List.mem_cons_of_mem first member)

theorem faultless_leave (rest : Bytes) (later : Source) (clear : Faultless later) :
    Faultless (leave rest later) := by
  intro reason member
  unfold leave at member
  split at member
  · exact clear reason member
  · rcases List.mem_cons.mp member with same | old
    · cases same
    · exact clear reason old

theorem bytes_leave (rest : Bytes) (later : Source) :
    (leave rest later).bytes = rest ++ later.bytes := by
  unfold leave
  split
  · rename_i empty
    simp [empty]
  · simp [bytes]

theorem gather_faultless (got : Array UInt8) (want : Nat) (source : Source)
    (clear : source.Faultless) :
    ∃ rest, gather got want source = (.ok (got ++ source.bytes.take want), rest) ∧
      rest.Faultless ∧ rest.bytes = source.bytes.drop want := by
  induction source generalizing got want with
  | nil => exact ⟨[], by cases want <;> simp [gather, bytes], clear, by simp [bytes]⟩
  | cons arrival later ih =>
      have clearLater := faultless_cons arrival later clear
      cases want with
      | zero => exact ⟨_, by simp [gather], clear, by simp⟩
      | succ want =>
          cases arrival with
          | pause =>
              obtain ⟨rest, read, restClear, left⟩ := ih got (want + 1) clearLater
              exact ⟨rest, by simpa [gather, bytes] using read, restClear,
                by simpa [bytes] using left⟩
          | fault reason => exact absurd List.mem_cons_self (clear reason)
          | bytes piece =>
              have joined : bytes (.bytes piece :: later) = piece ++ bytes later := by
                simp [bytes]
              by_cases short : (piece.take (want + 1)).length ≤ want
              -- The piece is used up.
              · have small : piece.length ≤ want := by
                  simp only [List.length_take] at short
                  omega
                have whole : piece.take (want + 1) = piece :=
                  List.take_of_length_le (by omega)
                obtain ⟨rest, read, restClear, left⟩ :=
                  ih (got ++ piece) (want + 1 - piece.length) clearLater
                refine ⟨rest, ?_, restClear, ?_⟩
                · rw [gather, whole, if_pos small, read, joined, List.take_append, whole]
                  congr 2
                  apply Array.toList_inj.mp
                  simp only [Array.toList_appendList, List.append_assoc]
                · have none : piece.drop (want + 1) = [] := List.drop_of_length_le (by omega)
                  rw [left, joined, List.drop_append, none, List.nil_append]
              -- The piece is more than enough, so nothing behind it is looked at.
              · have large : want + 1 ≤ piece.length := by
                  simp only [List.length_take] at short
                  omega
                refine ⟨leave (piece.drop (want + 1)) later, ?_,
                  faultless_leave _ _ clearLater, ?_⟩
                · rw [gather, if_neg short, joined, List.take_append_of_le_length large]
                · rw [bytes_leave, joined, List.drop_append_of_le_length large]

theorem take_faultless (want : Nat) (source : Source) (clear : source.Faultless) :
    ∃ rest, source.take want = (.ok (source.bytes.take want), rest) ∧
      rest.Faultless ∧ rest.bytes = source.bytes.drop want := by
  obtain ⟨rest, read, restClear, left⟩ := gather_faultless #[] want source clear
  exact ⟨rest, by simp [take, read], restClear, left⟩

/-- Only the bytes count: the first packet of what will arrive is read, or its violation. -/
theorem next_faultless (source : Source) (clear : source.Faultless) :
    ∃ rest, source.next = ((Packet.first source.bytes).1.mapError .violation, rest) ∧
      rest.Faultless ∧ rest.bytes = (Packet.first source.bytes).2 := by
  obtain ⟨behind, read, behindClear, left⟩ := take_faultless Packet.headerSize source clear
  unfold next Packet.first
  rw [read]
  by_cases ended : source.bytes.take Packet.headerSize = []
  · simp only [ended, ↓reduceIte]
    exact ⟨behind, rfl, behindClear, by simp [left]⟩
  · simp only [ended, ↓reduceIte]
    cases header : Packet.readHeader (source.bytes.take Packet.headerSize) with
    | error what => exact ⟨behind, rfl, behindClear, left⟩
    | ok promise =>
        cases promise with
        | flush => exact ⟨behind, rfl, behindClear, left⟩
        | payload size =>
            obtain ⟨rest, more, restClear, beyond⟩ := take_faultless size behind behindClear
            rw [left] at more beyond
            refine ⟨rest, ?_, restClear, ?_⟩
            · simp only [more]
              split <;> rfl
            · rw [beyond]
              dsimp only
              split <;> rfl

end Source

end ContentFilter
