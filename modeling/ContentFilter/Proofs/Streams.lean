import ContentFilter.Exchange
import ContentFilter.Proofs.RoundTrip
import Mathlib.Algebra.Order.Floor.Div

/-!
Content on the wire. It is sent in payloads as large as they may be and read back from payloads of
any sizes: `CutsUp` says what the payloads are and `CutsUp.count` that their number follows from
it, the number that a reply with content notes once all of them have gone out. The reader joins
whatever stands before the first flush, and content whose flush never comes is never taken for
complete.
-/

namespace ContentFilter

namespace Packet

/-- The payloads are the content in pieces. None is empty, and only the last can be smaller than a
payload may be. -/
structure CutsUp (content : Bytes) (payloads : List Bytes) : Prop where
  joined : payloads.flatten = content
  present : ∀ payload ∈ payloads, payload ≠ []
  fits : ∀ payload ∈ payloads, payload.length ≤ maxPayload
  full : ∀ payload ∈ payloads.dropLast, payload.length = maxPayload

theorem cut_full (content payload : Bytes) (member : payload ∈ (cut content).dropLast) :
    payload.length = maxPayload := by
  fun_induction cut content with
  | case1 => cases member
  | case2 first rest ih =>
      -- Behind the first payload there is another one, so nothing was lacking for it.
      cases behind : cut ((first :: rest).drop maxPayload) with
      | nil =>
          rw [behind] at member
          cases member
      | cons next later =>
          rw [behind, List.dropLast_cons_of_ne_nil (List.cons_ne_nil next later)] at member
          rcases List.mem_cons.mp member with same | further
          · have left : (first :: rest).drop maxPayload ≠ [] := by
              intro none
              rw [none, cut] at behind
              cases behind
            have long := List.length_pos_of_ne_nil left
            rw [List.length_drop] at long
            rw [same, List.length_take]
            omega
          · rw [behind] at ih
            exact ih further

theorem cut_cutsUp (content : Bytes) : CutsUp content (cut content) where
  joined := cut_flatten content
  present := fun payload member =>
    List.ne_nil_of_length_pos (mem_cut_length content payload member).1
  fits := fun payload member => (mem_cut_length content payload member).2
  full := cut_full content

theorem CutsUp.behind {content payload : Bytes} {next : Bytes} {later : List Bytes}
    (cuts : CutsUp content (payload :: next :: later)) :
    payload.length = maxPayload ∧ CutsUp (next :: later).flatten (next :: later) := by
  have shorter : (payload :: next :: later).dropLast = payload :: (next :: later).dropLast :=
    List.dropLast_cons_of_ne_nil (List.cons_ne_nil next later)
  have full := cuts.full
  rw [shorter] at full
  constructor
  · exact full payload List.mem_cons_self
  · exact {
      joined := rfl
      present := fun other member => cuts.present other (List.mem_cons_of_mem payload member)
      fits := fun other member => cuts.fits other (List.mem_cons_of_mem payload member)
      full := fun other member => full other (List.mem_cons_of_mem payload member) }

/-- However content is cut up, the number of payloads is the same. -/
theorem CutsUp.count {content : Bytes} {payloads : List Bytes} (cuts : CutsUp content payloads) :
    payloads.length = content.length ⌈/⌉ maxPayload := by
  have positive := maxPayload_pos
  rw [Nat.ceilDiv_eq_add_pred_div, ← cuts.joined]
  induction payloads generalizing content with
  | nil => rfl
  | cons payload rest ih =>
      cases rest with
      | nil =>
          have present := List.length_pos_of_ne_nil (cuts.present payload List.mem_cons_self)
          have fits := cuts.fits payload List.mem_cons_self
          have one : payload.length + maxPayload - 1 = payload.length - 1 + maxPayload := by omega
          rw [List.flatten_singleton, one, Nat.add_div_right _ positive,
            Nat.div_eq_of_lt (by omega)]
          rfl
      | cons next later =>
          rcases cuts.behind with ⟨full, further⟩
          have more : (payload ++ (next :: later).flatten).length + maxPayload - 1 =
              (next :: later).flatten.length + maxPayload - 1 + maxPayload := by
            rw [List.length_append]
            omega
          rw [List.flatten_cons, more, Nat.add_div_right _ positive, List.length_cons, ih further]

/-- The bytes are read as the payloads and the flush that ends them. -/
def Streamed (payloads : List Bytes) (raw : Bytes) : Prop :=
  AllWritten (payloads.map .data ++ [.flush]) raw

theorem streamed_cons (payload : Bytes) (payloads : List Bytes) (one raw : Bytes)
    (written : Written (.data payload) one) (streamed : Streamed payloads raw) :
    Streamed (payload :: payloads) (one ++ raw) :=
  .more written streamed

end Packet

namespace Sink

theorem putAll_data (payloads : List Bytes) (sink : Sink) :
    sink.putAll (payloads.map .data) = sink.sendAll payloads := by
  induction payloads generalizing sink with
  | nil => rfl
  | cons payload rest ih =>
      simp only [List.map_cons, putAll, sendAll, put]
      congr 1
      funext reached
      exact ih reached

theorem sends_sendAll (payloads : List Bytes)
    (fits : ∀ payload ∈ payloads, payload.length ≤ Packet.maxPayload) (sink : Sink)
    (free : sink.Free) :
    Sends sink (Packet.encodeAll (payloads.map .data)) (sink.sendAll payloads) := by
  rw [← putAll_data]
  apply sends_putAll _ _ sink free
  intro packet member
  rcases List.mem_map.mp member with ⟨payload, listed, same⟩
  subst same
  exact fits payload listed

end Sink

/-- The payloads of a reply go out one by one, and nothing else on the desk changes. -/
theorem Effect.performAll_sends (payloads : List Bytes) (desk : Desk) :
    performAll (payloads.map .send) desk =
      (desk.sink.sendAll payloads).map fun sink => { desk with sink } := by
  induction payloads generalizing desk with
  | nil => rfl
  | cons payload rest ih =>
      simp only [List.map_cons, performAll, perform, Sink.sendAll]
      cases desk.sink.send payload with
      | halted failure after => rfl
      | on after => exact ih { desk with sink := after }

namespace Source

theorem contentOnto_closed (got : Array UInt8) (source : Source) (ended : source.Closed) :
    (source.contentOnto got).1 = .error (.violation .endInContent) := by
  rcases ended with ⟨rest, read⟩
  rw [contentOnto]
  split
  all_goals
    rename_i found
    cases read.symm.trans found
  rfl

theorem content_ended (pieces : List Bytes) (source rest : Source)
    (read : source.Yields (pieces.map .data) rest) (ended : rest.Closed) :
    source.content.1 = .error (.violation .endInContent) := by
  rw [content, contentOnto_pieces pieces #[] source rest read]
  exact contentOnto_closed _ rest ended

theorem contentOnto_misframed (got : Array UInt8) (source rest : Source) (failure : Failure)
    (read : source.next = (.error failure, rest)) :
    source.contentOnto got = (.error failure, rest) := by
  rw [contentOnto]
  split
  all_goals
    rename_i found
    cases read.symm.trans found
  rfl

-- Whatever has been collected by then, the bytes stop somewhere before the flush.
theorem contentOnto_unended (raw : Bytes)
    (unended : ∀ pieces front tail, Packet.Streamed pieces front → raw ≠ front ++ tail)
    (got : Array UInt8) (source : Source) (clear : source.Faultless) (sent : source.bytes = raw) :
    ∃ what, (source.contentOnto got).1 = .error (.violation what) := by
  induction raw using Packet.reading_induction generalizing got source with
  | ended =>
      exact ⟨.endInContent, contentOnto_closed got source (closed_of_bytes source clear sent)⟩
  | misframed raw what left framing =>
      rcases source.next_faultless clear with ⟨rest, read, _, _⟩
      rw [sent, framing] at read
      exact ⟨what, by rw [contentOnto_misframed got source rest _ read]⟩
  | packet packet one left written ih =>
      rcases source.next_written clear packet one left written sent with
        ⟨rest, read, restClear, behind⟩
      rw [contentOnto_packet got source rest packet read]
      cases packet with
      | flush =>
          have whole : Packet.Streamed [] (one ++ []) := .more written .nothing
          rw [List.append_nil] at whole
          exact absurd rfl (unended [] one left whole)
      | data payload =>
          apply ih _ _ rest restClear behind
          rintro pieces front tail streamed same
          apply unended (payload :: pieces) (one ++ front) tail
          · exact Packet.streamed_cons payload pieces one front written streamed
          · rw [same, List.append_assoc]

end Source

/-- Content goes out in as few payloads as it needs, which is what the reply notes, and comes back
from payloads of any sizes, with nothing behind the flush touched. Where the flush does not come,
nothing is taken for content. -/
theorem cut_content_rejoined (content : Bytes) (sink : Sink) (free : sink.Free) :
    (∃ after, sink.sendAll (Packet.cut content) = .on after ∧
      after.outlet.contents =
        sink.outlet.contents ++ Packet.encodeAll ((Packet.cut content).map .data) ∧
      ∀ desk : Desk, desk.sink = sink →
        Effect.performAll ((Packet.cut content).map .send) desk =
          .on { desk with sink := after }) ∧
    Packet.CutsUp content (Packet.cut content) ∧
    (Packet.cut content).length = content.length ⌈/⌉ Packet.maxPayload ∧
    Exchange.contentReply content = .note (.sending content.length) ::
      (Packet.cut content).map .send ++
        [.flush, .note (.sent (content.length ⌈/⌉ Packet.maxPayload)), .flush] ∧
    (∀ pieces raw tail, Packet.Streamed pieces raw → ∀ source : Source, source.Faultless →
      source.bytes = raw ++ tail →
        ∃ rest, source.content = (.ok pieces.flatten, rest) ∧ rest.Faultless ∧
          rest.bytes = tail) ∧
    (∀ (pieces : List Bytes) raw, Packet.AllWritten (pieces.map .data) raw → ∀ source : Source,
      source.Faultless → source.bytes = raw →
        source.content.1 = .error (.violation .endInContent)) ∧
    ∀ source : Source, source.Faultless →
      (∀ pieces raw tail, Packet.Streamed pieces raw → source.bytes ≠ raw ++ tail) →
        ∃ what, source.content.1 = .error (.violation what) := by
  have cuts := Packet.cut_cutsUp content
  refine ⟨?_, cuts, cuts.count, ?_, ?_, ?_, ?_⟩
  · rcases (Sink.sends_sendAll _ cuts.fits sink free).on with ⟨after, sent, _, written⟩
    refine ⟨after, sent, written, ?_⟩
    rintro desk rfl
    rw [Effect.performAll_sends, sent]
    rfl
  · rw [← cuts.count]
    rfl
  · intro pieces raw tail streamed source clear sent
    rcases source.yields_allWritten _ raw tail streamed clear sent with
      ⟨rest, read, restClear, left⟩
    exact ⟨rest, source.content_yields pieces rest read, restClear, left⟩
  · intro pieces raw written source clear sent
    rw [← List.append_nil raw] at sent
    rcases source.yields_allWritten _ raw [] written clear sent with ⟨rest, read, restClear, left⟩
    exact source.content_ended pieces rest read (Source.closed_of_bytes rest restClear left)
  · intro source clear unended
    exact source.contentOnto_unended source.bytes unended #[] clear rfl

-- The third payload is short. What is read was cut up otherwise, and a read was interrupted.
theorem cut_content_rejoined_pieces :
    (∃ after, ({} : Sink).sendAll (Packet.cut (List.replicate (2 * Packet.maxPayload + 10) 120)) =
      .on after) ∧
    (Packet.cut (List.replicate (2 * Packet.maxPayload + 10) 120)).length = 3 ∧
    (∃ rest, Source.content
        [.bytes (Text.bytes "00040006ab0004"), .pause, .bytes (Text.bytes "0005c00000006de")] =
      (.ok (Text.bytes "abc"), rest) ∧ rest.bytes = Text.bytes "0006de") ∧
    (Source.content [.bytes (Text.bytes "00040006ab")]).1 =
      .error (.violation .endInContent) := by
  rcases cut_content_rejoined (List.replicate (2 * Packet.maxPayload + 10) 120) {} ⟨rfl, rfl⟩ with
    ⟨⟨after, sent, _⟩, _, count, _, read, unended, _⟩
  have pieces : Packet.Streamed [[], Text.bytes "ab", [], Text.bytes "c"]
      (Text.bytes "00040006ab00040005c0000") :=
    Packet.allWritten_encodeAll
      [.data [], .data (Text.bytes "ab"), .data [], .data (Text.bytes "c"), .flush] (by decide)
  have unclosed : Packet.AllWritten [.data [], .data (Text.bytes "ab")] (Text.bytes "00040006ab") :=
    Packet.allWritten_encodeAll [.data [], .data (Text.bytes "ab")] (by decide)
  rcases read _ _ (Text.bytes "0006de") pieces
      [.bytes (Text.bytes "00040006ab0004"), .pause, .bytes (Text.bytes "0005c00000006de")]
      (by simp [Source.Faultless]) (by decide) with ⟨rest, content, _, left⟩
  rw [List.length_replicate, Nat.ceilDiv_eq_add_pred_div] at count
  exact ⟨⟨after, sent⟩, count, ⟨rest, content, left⟩,
    unended [[], Text.bytes "ab"] _ unclosed _ (by simp [Source.Faultless]) (by decide)⟩

end ContentFilter
