import ContentFilter.Proofs.Performing
import Mathlib.Data.List.Forall2

/-!
Packets written and read back. What is written is read as the packets it was written for, and none
of the bytes behind them is touched, so a list of packets has an encoding of its own. The other way
round only the headers can change: reading takes their letters in either case, and `lowered` says
how they are written.
-/

namespace ContentFilter

namespace Packet

/-! ### Every packet list has its own bytes -/

theorem encode_append_inj (first second : Packet) (front back : Bytes) (legal : first.Legal)
    (also : second.Legal) (same : first.encode ++ front = second.encode ++ back) :
    first = second ∧ front = back := by
  have read := first_encode first legal front
  rw [same, first_encode second also back] at read
  cases read
  exact ⟨rfl, rfl⟩

theorem encode_ne_nil (packet : Packet) : packet.encode ≠ [] := by
  cases packet with
  | data payload => exact List.cons_ne_nil _ _
  | flush => exact List.cons_ne_nil _ _

theorem encodeAll_inj (first second : List Packet) (legal : ∀ packet ∈ first, packet.Legal)
    (also : ∀ packet ∈ second, packet.Legal) (same : encodeAll first = encodeAll second) :
    first = second := by
  induction first generalizing second with
  | nil =>
      cases second with
      | nil => rfl
      | cons packet rest =>
          rw [encodeAll_cons] at same
          exact absurd (List.append_eq_nil_iff.mp same.symm).1 packet.encode_ne_nil
  | cons packet rest ih =>
      cases second with
      | nil =>
          rw [encodeAll_cons] at same
          exact absurd (List.append_eq_nil_iff.mp same).1 packet.encode_ne_nil
      | cons other others =>
          rw [encodeAll_cons, encodeAll_cons] at same
          obtain ⟨rfl, later⟩ := encode_append_inj packet other _ _
            (legal packet List.mem_cons_self) (also other List.mem_cons_self) same
          rw [ih others (fun one member => legal one (List.mem_cons_of_mem packet member))
            (fun one member => also one (List.mem_cons_of_mem packet member)) later]

/-! ### Headers in either case -/

/-- A letter of a header as it is written. -/
def lowerDigit (digit : UInt8) : UInt8 := if 65 ≤ digit ∧ digit ≤ 70 then digit + 32 else digit

/-- The bytes of one packet with the letters of its header in lowercase. -/
def lowered (raw : Bytes) : Bytes := (raw.take headerSize).map lowerDigit ++ raw.drop headerSize

theorem hexValue?_spelling (digit : UInt8) (value : Nat) (read : hexValue? digit = some value) :
    value < 16 ∧ hexDigit value = lowerDigit digit := by
  -- Of the 256 bytes only 22 are digits.
  have every : ∀ digit, ∀ value ∈ hexValue? digit, value < 16 ∧ hexDigit value = lowerDigit digit :=
    forall_byte (by decide +kernel)
  exact every digit value read

theorem header_hexNumber? (raw : Bytes) (size : Nat) (read : hexNumber? raw = some size) :
    header size = raw.map lowerDigit := by
  unfold hexNumber? at read
  split at read
  · rename_i a b c d
    simp only [Option.bind_eq_bind, Option.bind_eq_some_iff, Option.pure_def,
      Option.some.injEq] at read
    obtain ⟨a', readA, b', readB, c', readC, d', readD, rfl⟩ := read
    obtain ⟨smallA, spelledA⟩ := hexValue?_spelling a a' readA
    obtain ⟨smallB, spelledB⟩ := hexValue?_spelling b b' readB
    obtain ⟨smallC, spelledC⟩ := hexValue?_spelling c c' readC
    obtain ⟨smallD, spelledD⟩ := hexValue?_spelling d d' readD
    have first : (((a' * 16 + b') * 16 + c') * 16 + d') / 4096 % 16 = a' := by omega
    have second : (((a' * 16 + b') * 16 + c') * 16 + d') / 256 % 16 = b' := by omega
    have third : (((a' * 16 + b') * 16 + c') * 16 + d') / 16 % 16 = c' := by omega
    have fourth : (((a' * 16 + b') * 16 + c') * 16 + d') % 16 = d' := by omega
    simp only [header, first, second, third, fourth, spelledA, spelledB, spelledC, spelledD,
      List.map_cons, List.map_nil]
  · cases read

theorem encode_of_written (packet : Packet) (raw : Bytes) (written : packet.Written raw) :
    packet.encode = lowered raw := by
  cases written with
  | flush zero =>
      have four := hexNumber?_length raw 0 zero
      simp [encode, flushBytes, header_hexNumber? raw 0 zero, lowered, ← four]
  | @data header payload size legal =>
      have four := hexNumber?_length header _ size
      rw [encode, header_hexNumber? header _ size]
      simp [lowered, ← four]

theorem lowered_length (raw : Bytes) : (lowered raw).length = raw.length := by
  rw [lowered, List.length_append, List.length_map, ← List.length_append, List.take_append_drop]

/-- The packets with the bytes that each of them is read from. -/
theorem allWritten_iff (packets : List Packet) (raw : Bytes) :
    AllWritten packets raw ↔
      ∃ spellings, List.Forall₂ Written packets spellings ∧ spellings.flatten = raw := by
  constructor
  · intro written
    induction written with
    | nothing => exact ⟨[], .nil, rfl⟩
    | @more packet packets raw rest one _ ih =>
        obtain ⟨spellings, each, rfl⟩ := ih
        exact ⟨raw :: spellings, .cons one each, rfl⟩
  · rintro ⟨spellings, each, rfl⟩
    induction each with
    | nil => exact .nothing
    | cons one _ ih => exact .more one ih

theorem encodeAll_of_written (packets : List Packet) (spellings : List Bytes)
    (each : List.Forall₂ Written packets spellings) :
    encodeAll packets = (spellings.map lowered).flatten := by
  induction each with
  | nil => rfl
  | cons one _ ih =>
      rw [encodeAll_cons, encode_of_written _ _ one, ih, List.map_cons, List.flatten_cons]

theorem lowered_flatten_iff (spellings : List Bytes) :
    (spellings.map lowered).flatten = spellings.flatten ↔
      ∀ spelling ∈ spellings, lowered spelling = spelling := by
  induction spellings with
  | nil => simp
  | cons spelling rest ih =>
      rw [List.map_cons, List.flatten_cons, List.flatten_cons, List.forall_mem_cons, ← ih]
      -- Lowering keeps the length, so every piece stays in its place.
      exact List.append_eq_append_iff_of_size_eq_left (lowered_length spelling)

end Packet

namespace Source

theorem written_of_next (source rest : Source) (clear : source.Faultless) (packet : Packet)
    (read : source.next = (.ok (some packet), rest)) :
    ∃ raw, packet.Written raw ∧ source.bytes = raw ++ rest.bytes ∧ rest.Faultless := by
  obtain ⟨left, found, leftClear, behind⟩ := source.next_faultless clear
  rw [read] at found
  obtain ⟨framed, rfl⟩ := Prod.mk.inj found
  cases parsed : Packet.first source.bytes with
  | mk outcome tail =>
      rw [parsed] at framed behind
      cases outcome with
      | error what => cases framed
      | ok found =>
          cases framed
          obtain ⟨raw, written, whole⟩ := (Packet.first_eq_packet_iff packet _ tail).mp parsed
          exact ⟨raw, written, behind ▸ whole, leftClear⟩

theorem allWritten_of_yields (source rest : Source) (packets : List Packet)
    (read : source.Yields packets rest) (clear : source.Faultless) :
    ∃ raw, Packet.AllWritten packets raw ∧ source.bytes = raw ++ rest.bytes ∧ rest.Faultless := by
  induction read with
  | done source => exact ⟨[], .nothing, rfl, clear⟩
  | more head _ ih =>
      obtain ⟨raw, written, whole, middleClear⟩ := written_of_next _ _ clear _ head
      obtain ⟨others, further, behind, restClear⟩ := ih middleClear
      exact ⟨raw ++ others, .more written further,
        by rw [whole, behind, List.append_assoc], restClear⟩

theorem bytes_of_closed (source : Source) (clear : source.Faultless) (ended : source.Closed) :
    source.bytes = [] := by
  obtain ⟨rest, closed⟩ := ended
  obtain ⟨left, read, _, _⟩ := source.next_faultless clear
  rw [closed] at read
  cases parsed : Packet.first source.bytes with
  | mk outcome tail =>
      rw [parsed] at read
      cases outcome with
      | error what => cases read
      | ok found =>
          cases read
          exact ((Packet.first_eq_none_iff _ tail).mp parsed).1

end Source

namespace Sink

/-- Writes one packet. A flush packet is followed by a flush call. -/
def put (sink : Sink) : Packet → Progress Sink
  | .data payload => sink.send payload
  | .flush => sink.flush

def putAll : List Packet → Sink → Progress Sink
  | [], sink => .on sink
  | packet :: rest, sink => (sink.put packet).andThen (putAll rest)

theorem sends_put (packet : Packet) (legal : packet.Legal) (sink : Sink) (free : sink.Free) :
    Sends sink packet.encode (sink.put packet) := by
  cases packet with
  | data payload => exact sends_send payload sink free legal
  | flush => exact sends_flush sink free

theorem sends_putAll (packets : List Packet) (legal : ∀ packet ∈ packets, packet.Legal)
    (sink : Sink) (free : sink.Free) :
    Sends sink (Packet.encodeAll packets) (sink.putAll packets) := by
  induction packets generalizing sink with
  | nil => exact ⟨free, by simp [Packet.encodeAll]⟩
  | cons packet rest ih =>
      obtain ⟨middle, put, here⟩ :=
        (sends_put packet (legal packet List.mem_cons_self) sink free).on
      obtain ⟨after, all, later⟩ :=
        (ih (fun other member => legal other (List.mem_cons_of_mem packet member)) middle here.1).on
      rw [putAll, put, Progress.on_andThen, all, Packet.encodeAll_cons]
      exact Sends.trans here later

theorem send_oversize (payload : Bytes) (large : Packet.maxPayload < payload.length)
    (sink : Sink) :
    sink.send payload = .halted (.violation (.oversizePayload payload.length)) sink := by
  simp only [send, large, ↓reduceIte]

/-! ### There and back -/

/-- Packets that were written are the packets read, however they arrive and whatever comes behind
them, and no other packets are written as the same bytes. -/
theorem putAll_read_back (packets : List Packet) (legal : ∀ packet ∈ packets, packet.Legal)
    (sink : Sink) (free : sink.Free) :
    (∃ after, sink.putAll packets = .on after ∧
      after.outlet.contents = sink.outlet.contents ++ Packet.encodeAll packets) ∧
    (∀ source : Source, source.Faultless → ∀ tail,
      source.bytes = Packet.encodeAll packets ++ tail →
        ∃ rest, source.Yields packets rest ∧ rest.Faultless ∧ rest.bytes = tail ∧
          (tail = [] → rest.Closed)) ∧
    (∀ payload : Bytes, Packet.maxPayload < payload.length →
      sink.send payload = .halted (.violation (.oversizePayload payload.length)) sink) ∧
    ∀ others : List Packet, (∀ packet ∈ others, packet.Legal) → others ≠ packets →
      Packet.encodeAll others ≠ Packet.encodeAll packets := by
  refine ⟨?_, ?_, fun payload large => send_oversize payload large sink, ?_⟩
  · obtain ⟨after, put, _, written⟩ := (sends_putAll packets legal sink free).on
    exact ⟨after, put, written⟩
  · intro source clear tail sent
    obtain ⟨rest, read, restClear, left⟩ :=
      Source.yields_encodeAll packets legal tail source clear sent
    refine ⟨rest, read, restClear, left, ?_⟩
    rintro rfl
    exact Source.closed_of_bytes rest restClear left
  · intro others also different same
    exact different (Packet.encodeAll_inj others packets also legal same)

-- The header of the first packet arrives in two pieces, and one digit of another comes behind.
theorem putAll_read_back_pieces :
    let packets : List Packet := [.data (Text.bytes "ab\n"), .flush, .data []]
    ∃ after rest, Sink.putAll packets {} = .on after ∧
      after.outlet.contents = Text.bytes "0007ab\n00000004" ∧
      Source.Yields
        [.bytes (Text.bytes "00"), .pause, .bytes (Text.bytes "07ab\n000000041")] packets rest ∧
      rest.bytes = Text.bytes "1" := by
  intro packets
  obtain ⟨⟨after, put, written⟩, reads, _⟩ :=
    putAll_read_back packets (by decide) {} ⟨rfl, rfl⟩
  obtain ⟨rest, read, _, left, _⟩ :=
    reads [.bytes (Text.bytes "00"), .pause, .bytes (Text.bytes "07ab\n000000041")]
      (by simp [Source.Faultless]) (Text.bytes "1") (by decide)
  exact ⟨after, rest, put, written.trans (by decide), read, left⟩

/-- Bytes that are read to their end are packets with headers in either case. Written back they are
the same bytes but for the letters of the headers, which are then in lowercase. -/
theorem putAll_lowered (source rest : Source) (clear : source.Faultless) (packets : List Packet)
    (read : source.Yields packets rest) (ended : rest.Closed) (sink : Sink) (free : sink.Free) :
    ∃ spellings : List Bytes, List.Forall₂ Packet.Written packets spellings ∧
      source.bytes = spellings.flatten ∧
      ∃ after, sink.putAll packets = .on after ∧
        after.outlet.contents =
          sink.outlet.contents ++ (spellings.map Packet.lowered).flatten ∧
        (after.outlet.contents = sink.outlet.contents ++ source.bytes ↔
          ∀ spelling ∈ spellings, Packet.lowered spelling = spelling) := by
  obtain ⟨raw, written, whole, restClear⟩ :=
    Source.allWritten_of_yields source rest packets read clear
  rw [Source.bytes_of_closed rest restClear ended, List.append_nil] at whole
  subst whole
  obtain ⟨spellings, each, joined⟩ := (Packet.allWritten_iff packets _).mp written
  obtain ⟨after, put, _, lowered⟩ :=
    (sends_putAll packets (Source.yields_legal source rest packets read) sink free).on
  rw [Packet.encodeAll_of_written packets spellings each] at lowered
  refine ⟨spellings, each, joined.symm, after, put, lowered, ?_⟩
  rw [lowered, List.append_cancel_left_eq, ← joined]
  exact Packet.lowered_flatten_iff spellings

-- One header has a capital letter, so the bytes written are not the bytes read.
theorem putAll_lowered_capital :
    let packets : List Packet := [.data (Text.bytes "hello\n"), .flush]
    let source : Source := [.bytes (Text.bytes "000Ahel"), .pause, .bytes (Text.bytes "lo\n0000")]
    ∃ spellings after, List.Forall₂ Packet.Written packets spellings ∧
      source.bytes = spellings.flatten ∧ Sink.putAll packets {} = .on after ∧
      after.outlet.contents = (spellings.map Packet.lowered).flatten ∧
      ¬∀ spelling ∈ spellings, Packet.lowered spelling = spelling := by
  intro packets source
  have read : source.Yields packets [] := .more rfl (.more rfl (.done []))
  obtain ⟨spellings, each, joined, after, put, lowered, same⟩ :=
    putAll_lowered source [] (by simp [Source.Faultless, source]) packets read ⟨[], rfl⟩ {}
      ⟨rfl, rfl⟩
  refine ⟨spellings, after, each, joined, put, lowered, ?_⟩
  rw [← same]
  cases put
  decide

-- A header with a capital letter is read, and written with a small one.
theorem capital_header_lowered :
    let packets : List Packet := [.data (Text.bytes "hello\n")]
    let source : Source := [.bytes (Text.bytes "000Ahello\n")]
    ∃ rest after, source.Yields packets rest ∧ rest.Closed ∧
      Sink.putAll packets {} = .on after ∧ after.outlet.contents = Text.bytes "000ahello\n" ∧
      after.outlet.contents ≠ source.bytes :=
  ⟨[], _, .more rfl (.done _), ⟨[], rfl⟩, rfl, by decide, by decide⟩

end Sink

end ContentFilter
