import ContentFilter.Wire.Packet

/-!
What the channel will deliver. A source is the list of arrivals still to come: pieces of any
size, pauses in which a read has to be tried again, and faults. How bytes are spread over pieces
makes no difference to what is read; `gather_unread` keeps the account of the bytes taken, and
`next_shrinks` is why every loop over a source ends.
-/

namespace ContentFilter

inductive Arrival where
  | bytes (piece : Bytes)
  /-- One read call is interrupted and made again. -/
  | pause
  /-- One read call fails with this text; what follows can still be read. -/
  | fault (reason : String)
  deriving DecidableEq, Repr

namespace Arrival

def size : Arrival → Nat
  | .bytes piece => piece.length
  | _ => 0

end Arrival

abbrev Source := List Arrival

namespace Source

/-- The bytes still to be read. -/
def unread : Source → Nat
  | [] => 0
  | first :: later => first.size + unread later

/-- Puts the rest of a piece back in front of `later`; of a piece used up nothing remains. -/
def leave (rest : Bytes) (later : Source) : Source :=
  if rest = [] then later else .bytes rest :: later

/-- Reads until `want` more bytes have joined `got`, or the arrivals end. No read is made for
zero bytes, so a fault that waits behind the last wanted byte is left where it is. -/
def gather (got : Array UInt8) : Nat → Source → Except String (Array UInt8) × Source
  | 0, source => (.ok got, source)
  | _ + 1, [] => (.ok got, [])
  | want + 1, .pause :: later => gather got (want + 1) later
  | _ + 1, .fault reason :: later => (.error reason, later)
  | want + 1, .bytes piece :: later =>
      let now := piece.take (want + 1)
      if now.length ≤ want then gather (got ++ now) (want + 1 - now.length) later
      else (.ok (got ++ now), leave (piece.drop (want + 1)) later)

/-- Takes up to `want` bytes: fewer only when the arrivals end. -/
def take (want : Nat) (source : Source) : Except String Bytes × Source :=
  match gather #[] want source with
  | (.ok got, rest) => (.ok got.toList, rest)
  | (.error reason, rest) => (.error reason, rest)

/-- The next packet, or `none` when the arrivals end between two packets. -/
def next (source : Source) : Except Failure (Option Packet) × Source :=
  match source.take Packet.headerSize with
  | (.error reason, rest) => (.error (.channel reason), rest)
  | (.ok [], rest) => (.ok none, rest)
  | (.ok raw, rest) =>
      match Packet.readHeader raw with
      | .error what => (.error (.violation what), rest)
      | .ok .flush => (.ok (some .flush), rest)
      | .ok (.payload size) =>
          match rest.take size with
          | (.error reason, rest) => (.error (.channel reason), rest)
          | (.ok payload, rest) =>
              if payload.length = size then (.ok (some (.data payload)), rest)
              else (.error (.violation (.shortPayload payload.length size)), rest)

/-! ### The account of bytes -/

theorem unread_leave (rest : Bytes) (later : Source) :
    (leave rest later).unread = rest.length + later.unread := by
  unfold leave
  split
  · rename_i empty
    simp [empty]
  · simp [unread, Arrival.size]

/-- Bytes held and bytes left make up what was there before; a fault may lose some. -/
def Accounts (before : Nat) : Except String Nat × Source → Prop
  | (.ok held, rest) => held + rest.unread = before
  | (.error _, rest) => rest.unread ≤ before

theorem size_appendPiece (got : Array UInt8) (piece : Bytes) :
    (got ++ piece).size = got.size + piece.length := by
  rw [← Array.length_toList, Array.toList_appendList, List.length_append, Array.length_toList]

theorem gather_unread (got : Array UInt8) (want : Nat) (source : Source) :
    Accounts (got.size + source.unread)
      ((gather got want source).1.map Array.size, (gather got want source).2) := by
  induction source generalizing got want with
  | nil => cases want <;> simp [gather, Except.map, Accounts]
  | cons first later ih =>
      cases want with
      | zero => simp [gather, Except.map, Accounts]
      | succ want =>
          cases first with
          | pause => simpa [gather, unread, Arrival.size] using ih got (want + 1)
          | fault reason => simp [gather, Except.map, Accounts, unread, Arrival.size]
          | bytes piece =>
              by_cases short : (piece.take (want + 1)).length ≤ want
              -- The piece is used up, and the later arrivals settle the rest.
              · have whole : piece.take (want + 1) = piece := by
                  apply List.take_of_length_le
                  simp only [List.length_take] at short
                  omega
                rw [whole] at short
                have step := ih (got ++ piece) (want + 1 - piece.length)
                rw [size_appendPiece] at step
                simpa only [gather, whole, short, ↓reduceIte, unread, Arrival.size,
                  Nat.add_assoc] using step
              -- The piece is more than enough; what is not taken is put back.
              · have parts : (piece.take (want + 1)).length + (piece.drop (want + 1)).length =
                    piece.length := by
                  rw [← List.length_append, List.take_append_drop]
                simp only [gather, short, ↓reduceIte, Except.map, Accounts, unread,
                  Arrival.size, size_appendPiece, unread_leave]
                omega

theorem take_ok (want : Nat) (source rest : Source) (raw : Bytes)
    (taken : source.take want = (.ok raw, rest)) :
    raw.length + rest.unread = source.unread := by
  have account := gather_unread #[] want source
  unfold take at taken
  split at taken
  · rename_i got left found
    cases taken
    simpa [found, Except.map, Accounts] using account
  · cases taken

/-- A packet costs at least its header. -/
theorem next_shrinks (source rest : Source) (packet : Packet)
    (read : source.next = (.ok (some packet), rest)) :
    rest.unread + Packet.headerSize ≤ source.unread := by
  unfold next at read
  split at read
  · cases read
  · cases read
  · rename_i raw after _ taken
    have account := take_ok _ _ _ _ taken
    have full (promise : Packet.Promise) (header : Packet.readHeader raw = .ok promise) :
        Packet.headerSize ≤ raw.length := by
      unfold Packet.readHeader at header
      split at header
      · cases header
      · omega
    split at read
    · cases read
    · rename_i header
      have := full _ header
      cases read
      omega
    · rename_i size header
      have := full _ header
      split at read
      · cases read
      · rename_i payload left more
        have behind := take_ok _ _ _ _ more
        split at read
        · cases read
          omega
        · cases read

end Source

end ContentFilter
