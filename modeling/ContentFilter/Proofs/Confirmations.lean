import ContentFilter.Proofs.Greeted

/-!
How long the name of a capability may be. The line that confirms a name ends with a newline, and
the line that brings it need not: the longest name that can arrive is one byte too long to be
confirmed. `Names.size_le` says how long a name that arrives can be, `confirmable_iff` which of
these names can be confirmed.
-/

namespace ContentFilter

/-- The bytes of the name. -/
def Capability.size (capability : Capability) : Nat := (Text.bytes capability.name).length

namespace Packet

/-- The longest name that fits into a packet behind its key. -/
def maxName : Nat := maxPayload - (Text.bytes "capability=").length

theorem nameLine_length (capability : Capability) :
    (Text.bytes ("capability=" ++ capability.name)).length = capability.size + 11 := by
  have key : (Text.bytes "capability=").length = 11 := by decide
  rw [Text.bytes_append, List.length_append, key, Capability.size, Nat.add_comm]

theorem maxName_room : maxName + 11 = maxPayload := by decide

theorem Names.size_le {packet : Packet} {capability : Capability}
    (names : packet.Names capability) (legal : packet.Legal) : capability.size ≤ maxName := by
  have fits := packet.carries_fits _ names.2 legal
  rw [nameLine_length] at fits
  have room := maxName_room
  omega

/-- The longest name leaves no room for a newline. -/
theorem Names.unended {packet : Packet} {capability : Capability}
    (names : packet.Names capability) (legal : packet.Legal) (longest : capability.size = maxName) :
    packet = .say ("capability=" ++ capability.name) := by
  cases packet with
  | flush => cases names.2
  | data payload =>
      have line := (carries_iff payload _).mp names.2
      have full : (withoutNewline payload).length = maxPayload := by
        rw [line, nameLine_length, longest, maxName_room]
      unfold withoutNewline at line full
      split at full
      · rename_i ended
        have some : payload ≠ [] := by
          rintro rfl
          cases ended
        have length := List.length_pos_of_ne_nil some
        rw [List.length_dropLast] at full
        have fits : payload.length ≤ maxPayload := legal
        omega
      · rename_i unended
        rw [if_neg unended] at line
        rw [line, say]

end Packet

namespace Greeting

theorem capabilityLine_length (capability : Capability) :
    (Text.bytes (capabilityLine capability)).length = capability.size + 12 := by
  have line : capabilityLine capability = "capability=" ++ capability.name ++ "\n" := rfl
  have newline : (Text.bytes "\n").length = 1 := by decide
  rw [line, Text.bytes_append, List.length_append, Packet.nameLine_length, newline]

theorem confirmable_iff (named : List Capability) (capability : Capability)
    (arrives : capability.size ≤ Packet.maxName) :
    Confirmable named capability ↔ capability ∈ named ∧ capability.size ≠ Packet.maxName := by
  have room := Packet.maxName_room
  unfold Confirmable
  rw [capabilityLine_length]
  constructor
  · rintro ⟨known, fits⟩
    exact ⟨known, by omega⟩
  · rintro ⟨known, shorter⟩
    exact ⟨known, by omega⟩

theorem refuses_longest (named : List Capability) (capability : Capability)
    (known : capability ∈ named) (longest : capability.size = Packet.maxName) :
    Refuses named capability (.oversizePayload (Packet.maxPayload + 1)) := by
  have line : (Text.bytes (capabilityLine capability)).length = Packet.maxPayload + 1 := by
    rw [capabilityLine_length, longest, ← Packet.maxName_room]
  have refuses : Refuses named capability _ := .oversize known (by omega)
  rwa [line] at refuses

theorem spelled_size_le (named : List Capability) (packets : List Packet)
    (spelled : Spelled named packets) (legal : ∀ packet ∈ packets, packet.Legal)
    (capability : Capability) (member : capability ∈ named) :
    capability.size ≤ Packet.maxName := by
  cases spelled with
  | @greeting identity version lines known agreed each =>
      rcases named_arrived lines named each capability member with ⟨packet, listed, names⟩
      exact names.size_le (legal packet (by simp [listed]))

/-- A greeting that names everything required and offered goes well exactly when no name is offered
that has the greatest length. Such a name arrives in a line that fills its packet, and it ends the
session once the names offered before it have been confirmed. -/
theorem advertised_confirmed_iff (required offered named : List Capability) (packets : List Packet)
    (spelled : Spelled named packets) (front left : Bytes)
    (written : Packet.AllWritten packets front)
    (needed : ∀ capability ∈ required, capability ∈ named)
    (known : ∀ capability ∈ offered, capability ∈ named) (source : Source)
    (clear : source.Faultless) (arrives : source.bytes = front ++ left) (desk : Desk)
    (free : desk.sink.Free) :
    let ending := Service.greet required offered source desk
    (ending.failure? = none ↔ ∀ capability ∈ offered, capability.size ≠ Packet.maxName) ∧
    (ending.failure? = none → Settled offered ending desk none
      (answer ++ (offered.map confirmation ++ [.flush])) left) ∧
    (∀ before longest behind, offered = before ++ longest :: behind →
      (∀ capability ∈ before, capability.size ≠ Packet.maxName) →
      longest.size = Packet.maxName →
        Settled offered ending desk (some (.oversizePayload (Packet.maxPayload + 1)))
          (answer ++ before.map confirmation) left) ∧
    (∀ capability ∈ named, capability.size ≤ Packet.maxName) ∧
    ∀ packet ∈ packets, ∀ capability, packet.Names capability →
      capability.size = Packet.maxName → packet = .say ("capability=" ++ capability.name) := by
  intro ending
  have legal := Packet.allWritten_legal packets front written
  have sizes := spelled_size_le named packets spelled legal
  have comes (what? : Option Violation) (sent : List Packet)
      (outcome : Outcome required offered named what? sent) :
      Settled offered ending desk what? (answer ++ sent) left :=
    greet_verdict required offered source clear desk free what? _ left
      (arrives ▸ .complete left spelled written outcome)
  have confirms (capability : Capability) (member : capability ∈ named)
      (shorter : capability.size ≠ Packet.maxName) : Confirmable named capability :=
    (confirmable_iff named capability (sizes capability member)).mpr ⟨member, shorter⟩
  have agrees (shorter : ∀ capability ∈ offered, capability.size ≠ Packet.maxName) :
      Settled offered ending desk none (answer ++ (offered.map confirmation ++ [.flush])) left := by
    apply comes
    exact .agreed needed fun capability member =>
      confirms capability (known capability member) (shorter capability member)
  have refuses (before : List Capability) (longest : Capability) (behind : List Capability)
      (first : offered = before ++ longest :: behind)
      (shorter : ∀ capability ∈ before, capability.size ≠ Packet.maxName)
      (large : longest.size = Packet.maxName) :
      Settled offered ending desk (some (.oversizePayload (Packet.maxPayload + 1)))
        (answer ++ before.map confirmation) left := by
    apply comes
    apply Outcome.unconfirmed needed first
    · intro capability member
      exact confirms capability (known capability (by simp [first, member]))
        (shorter capability member)
    · exact refuses_longest named longest (known longest (by simp [first])) large
  have exactly : ending.failure? = none ↔
      ∀ capability ∈ offered, capability.size ≠ Packet.maxName := by
    constructor
    · intro well
      rcases stands_or_stops (fun capability => capability.size ≠ Packet.maxName) offered with
        shorter | ⟨before, longest, behind, first, shorter, large⟩
      · exact shorter
      · have fails := (refuses before longest behind first shorter (not_not.mp large)).failure
        rw [well] at fails
        cases fails
    · intro shorter
      exact (agrees shorter).failure
  refine ⟨exactly, fun well => agrees (exactly.mp well), refuses, sizes, ?_⟩
  intro packet member capability names longest
  exact names.unended (legal packet member) longest

/-- The packets of a greeting that names one capability. -/
def naming (line : Packet) : List Packet :=
  [.say clientIdentity, .say versionLine, .flush, line, .flush]

theorem spelled_naming (line : Packet) (capability : Capability) (names : line.Names capability) :
    Spelled [capability] (naming line) := by
  apply Spelled.greeting _ _ (.cons names .nil)
  · exact (Packet.carries_iff _ _).mpr (by decide)
  · exact (Packet.carries_iff _ _).mpr (by decide)

theorem advertised_confirmed_iff_smudge :
    let smudge : Capability := ⟨"smudge"⟩
    let ending := Service.greet [smudge] [smudge]
      [.bytes (Packet.encodeAll (naming (.ofLine "capability=smudge")))] (.opened (.fresh [] false))
    smudge.size ≠ Packet.maxName ∧ ending.failure? = none ∧
      ending.desk.memory.capabilities = [smudge] := by
  intro smudge ending
  have names : (Packet.ofLine "capability=smudge").Names smudge :=
    ⟨by decide, Packet.carries_ofLine "capability=smudge"⟩
  have shorter : smudge.size ≠ Packet.maxName := by decide
  rcases advertised_confirmed_iff [smudge] [smudge] [smudge] _ (spelled_naming _ smudge names) _ []
    (Packet.allWritten_encodeAll _ (by decide)) (by simp) (by simp)
    [.bytes (Packet.encodeAll (naming (.ofLine "capability=smudge")))] (by simp [Source.Faultless])
    (by decide) (.opened (.fresh [] false)) ⟨rfl, rfl⟩ with ⟨exactly, agreed, _⟩
  have well := exactly.mpr (by simpa using shorter)
  exact ⟨shorter, well, congrArg Memory.capabilities (agreed well).memory⟩

/-- A name of `size` bytes, all of one letter. -/
def lettered (size : Nat) : Capability := ⟨String.ofList (List.replicate size 'a')⟩

theorem lettered_size (size : Nat) : (lettered size).size = size := by
  have letter : (String.utf8EncodeChar 'a').length = 1 := by decide
  rw [Capability.size, lettered, Text.bytes_eq_flatMap, String.toList_ofList, List.length_flatMap,
    List.map_replicate, letter, List.sum_replicate_nat, Nat.mul_one]

theorem lettered_names (size : Nat) (positive : 0 < size) :
    (Packet.say ("capability=" ++ (lettered size).name)).Names (lettered size) := by
  have key : '\n' ∉ "capability=".toList := by decide
  constructor
  · intro empty
    have none := lettered_size size
    rw [Capability.size, empty] at none
    have nothing : (Text.bytes "").length = 0 := by decide
    omega
  · apply Packet.say_carries
    intro front same
    have ended : '\n' ∈ ("capability=" ++ (lettered size).name).toList := by
      rw [same, String.toList_append]
      exact List.mem_append_right _ (by decide)
    simp only [lettered, String.toList_append, String.toList_ofList, List.mem_append] at ended
    rcases ended with before | behind
    · exact key before
    · cases List.eq_of_mem_replicate behind

theorem longest_name_refused :
    let longest := lettered 65505
    let packets := naming (.say ("capability=" ++ longest.name))
    (∀ packet ∈ packets, packet.Legal) ∧ Spelled [longest] packets ∧
    (Service.greet [] [longest] [.bytes (Packet.encodeAll packets)]
      (.opened (.fresh [] false))).failure? = some (.violation (.oversizePayload 65517)) := by
  intro longest packets
  have large : longest.size = Packet.maxName := lettered_size 65505
  have names := lettered_names 65505 (by decide)
  have legal : ∀ packet ∈ packets, packet.Legal := by
    have fits := Packet.nameLine_length longest
    rw [large] at fits
    simp only [packets, naming, List.forall_mem_cons]
    exact ⟨by decide, by decide, trivial, Nat.le_of_eq fits, trivial, by simp⟩
  have spelled := spelled_naming _ longest names
  have refuses := refuses_longest [longest] longest List.mem_cons_self large
  have outcome : Outcome [] [longest] [longest] _ _ :=
    .unconfirmed (by simp) (List.nil_append _).symm (by simp) refuses
  have settled := greet_verdict [] [longest] [.bytes (Packet.encodeAll packets)]
    (by simp [Source.Faultless]) (.opened (.fresh [] false)) ⟨rfl, rfl⟩ _ _ []
    (by simpa [Source.bytes] using
      Verdict.complete [] spelled (Packet.allWritten_encodeAll packets legal) outcome)
  exact ⟨legal, spelled, settled.failure⟩

end Greeting

end ContentFilter
