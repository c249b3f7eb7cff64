import ContentFilter.Proofs.Grammar
import ContentFilter.Proofs.RoundTrip
import ContentFilter.Service

/-!
Which greetings are accepted. `Verdict` reads the bytes of a driver without a filter: they open a
session and name what is needed, or they stop at the first packet or the first capability that is
not right, and then it says why, what has been sent by then and what is left unread.
`verdict_total` says that every byte string has a verdict and `greet_verdict` that the greeting
comes to it.
-/

namespace ContentFilter

/-! ### Lines that name a capability -/

namespace Packet

/-- The capability that a packet names; `none` for the flush behind the last one. -/
def capability? (packet : Packet) : Except Violation (Option Capability) :=
  if packet = .flush then .ok none
  else match packet.field "capability" with
    | .error what => .error what
    | .ok name => .ok (some ⟨name⟩)

/-- The packet is a line that names the capability. -/
def Names (packet : Packet) (capability : Capability) : Prop :=
  capability.name ≠ "" ∧ packet.Carries ("capability=" ++ capability.name)

theorem capability?_eq_some_iff (packet : Packet) (capability : Capability) :
    packet.capability? = .ok (some capability) ↔ packet.Names capability := by
  have named : packet.field "capability" = .ok capability.name ↔ packet.Names capability :=
    packet.field_eq_ok_iff "capability" capability.name
  rw [← named]
  by_cases flushed : packet = .flush
  · subst flushed
    simp [capability?, named, Names, Carries, line?]
  · cases found : packet.field "capability" with
    | error what => simp [capability?, flushed, found]
    | ok name =>
        obtain ⟨own⟩ := capability
        simp [capability?, flushed, found]

-- No line is taken for the end of the group, not even an empty one.
theorem capability?_eq_none_iff (packet : Packet) :
    packet.capability? = .ok none ↔ packet = .flush := by
  by_cases flushed : packet = .flush
  · simp [capability?, flushed]
  · cases found : packet.field "capability" <;> simp [capability?, flushed, found]

end Packet

namespace Source

/-- Reads lines that name capabilities up to the flush behind them. -/
def capabilitiesOnto (heard : List Capability) (source : Source) :
    Except Failure (List Capability) × Source :=
  match read : source.next with
  | (.error failure, rest) => (.error failure, rest)
  | (.ok none, rest) => (.error (.violation .endInLine), rest)
  | (.ok (some packet), rest) =>
      match packet.capability? with
      | .error what => (.error (.violation what), rest)
      | .ok none => (.ok heard.reverse, rest)
      | .ok (some capability) =>
          have := next_shrinks source rest _ read
          capabilitiesOnto (capability :: heard) rest
termination_by source.unread
decreasing_by simp only [Packet.headerSize] at this; omega

def capabilities (source : Source) : Except Failure (List Capability) × Source :=
  source.capabilitiesOnto []

theorem capabilitiesOnto_packet (heard : List Capability) (source rest : Source)
    (packet : Packet) (read : source.next = (.ok (some packet), rest)) :
    source.capabilitiesOnto heard =
      match packet.capability? with
      | .error what => (.error (.violation what), rest)
      | .ok none => (.ok heard.reverse, rest)
      | .ok (some capability) => rest.capabilitiesOnto (capability :: heard) := by
  rw [capabilitiesOnto]
  split <;> simp_all

theorem capabilitiesOnto_names (heard named : List Capability) (lines : List Packet)
    (each : List.Forall₂ Packet.Names lines named) (source rest : Source)
    (read : source.Yields lines rest) :
    source.capabilitiesOnto heard = rest.capabilitiesOnto (named.reverse ++ heard) := by
  induction each generalizing heard source with
  | nil =>
      cases read
      rfl
  | @cons packet capability lines named names _ ih =>
      cases read with
      | more head later =>
          have found := (packet.capability?_eq_some_iff capability).mpr names
          rw [capabilitiesOnto_packet heard source _ packet head, found]
          simpa using ih (capability :: heard) _ later

theorem capabilitiesOnto_group (heard named : List Capability) (lines : List Packet)
    (each : List.Forall₂ Packet.Names lines named) (source rest : Source)
    (read : source.Yields (lines ++ [.flush]) rest) :
    source.capabilitiesOnto heard = (.ok (heard.reverse ++ named), rest) := by
  obtain ⟨middle, listed, ended⟩ := (yields_append_iff _ _ _ _).mp read
  cases ended with
  | more flush done =>
      cases done
      rw [capabilitiesOnto_names heard named lines each source middle listed,
        capabilitiesOnto_packet _ middle rest .flush flush]
      simp [Packet.capability?]

end Source

namespace Greeting

theorem hear_capabilities (required offered heard : List Capability) (memory : Memory)
    (packet : Packet) :
    hear required offered memory (.capabilities heard) packet =
      match packet.capability? with
      | .error what => .violation what
      | .ok none => conclude required offered heard memory
      | .ok (some capability) => { next := .await (.capabilities (capability :: heard)) } := by
  cases packet with
  | flush => rfl
  | data payload =>
      simp only [hear, Packet.capability?, reduceCtorEq, ↓reduceIte, Packet.field]
      cases read : (Packet.data payload).line? with
      | error what => rfl
      | ok found =>
          cases found with
          | none => cases (Packet.line?_eq_none_iff _).mp read
          | some line =>
              have key : "capability" ++ "=" = "capability=" := rfl
              simp only [Option.getD_some, key]
              cases Text.after? "capability=" line with
              | none => rfl
              | some name => by_cases empty : name = "" <;> simp [empty]

/-- The greeting reads the capabilities of the driver as a group, and then concludes. -/
theorem converse_capabilities (required offered heard : List Capability) (source : Source)
    (desk : Desk) :
    (dialogue required offered).converse (.capabilities heard) source desk =
      match source.capabilitiesOnto heard with
      | (.error failure, rest) => ⟨some failure, rest, desk⟩
      | (.ok named, rest) =>
          Dialogue.react (conclude required offered named.reverse desk.memory) rest desk
            fun phase desk => (dialogue required offered).converse phase rest desk := by
  have hears (heard : List Capability) (packet : Packet) :
      (dialogue required offered).hear desk.memory (.capabilities heard) packet = _ :=
    hear_capabilities required offered heard desk.memory packet
  fun_induction Source.capabilitiesOnto heard source with
  | case1 heard source failure rest read => rw [Dialogue.converse_fault _ _ _ _ _ _ read]
  | case2 heard source rest read =>
      rw [Dialogue.converse_closed _ _ _ _ _ read]
      rfl
  | case3 heard source packet rest read what wrong =>
      rw [Dialogue.converse_packet _ _ _ _ _ _ read, hears, wrong]
      rfl
  | case4 heard source packet rest read ended =>
      rw [Dialogue.converse_packet _ _ _ _ _ _ read, hears, ended]
      dsimp only
      rw [List.reverse_reverse]
  | case5 heard source packet rest read capability named shorter ih =>
      rw [Dialogue.converse_packet _ _ _ _ _ _ read, hears, named]
      exact ih

/-! ### The greeting as packets -/

/-- The packets that answer the identity and the version. -/
def answer : List Packet := [.say serverIdentity, .say versionLine, .flush]

/-- The packet that confirms a capability. -/
def confirmation (capability : Capability) : Packet := .say (capabilityLine capability)

/-- The capability has been named, and the line that confirms it fits into one packet. -/
def Confirmable (named : List Capability) (capability : Capability) : Prop :=
  capability ∈ named ∧ (Text.bytes (capabilityLine capability)).length ≤ Packet.maxPayload

/-- The packets of a complete greeting that names these capabilities. -/
inductive Spelled (named : List Capability) : List Packet → Prop
  | greeting {identity version : Packet} {lines : List Packet}
      (known : identity.Carries clientIdentity) (agreed : version.Carries versionLine)
      (each : List.Forall₂ Packet.Names lines named) :
      Spelled named (identity :: version :: .flush :: (lines ++ [.flush]))

/-- `packets` are the beginning of a greeting, and `phase` is what it waits for. -/
inductive Begun : Phase → List Packet → Prop
  | nothing : Begun .identity []
  | known {identity : Packet} (known : identity.Carries clientIdentity) :
      Begun .version [identity]
  | agreed {identity version : Packet} (known : identity.Carries clientIdentity)
      (agreed : version.Carries versionLine) : Begun .versionEnd [identity, version]
  | listing {identity version : Packet} {lines : List Packet} {named : List Capability}
      (known : identity.Carries clientIdentity) (agreed : version.Carries versionLine)
      (each : List.Forall₂ Packet.Names lines named) :
      Begun (.capabilities named.reverse) (identity :: version :: .flush :: lines)

namespace Phase

/-- What has been sent by then. -/
def said : Phase → List Packet
  | .identity | .version | .versionEnd => []
  | .capabilities _ => answer

/-- What is wrong with a packet that should carry `line`. -/
def mismatch? (what line : String) (packet : Packet) : Option Violation :=
  match packet.line? with
  | .error problem => some problem
  | .ok found => if found = some line then none else some (.badLine what (found.getD ""))

/-- What is wrong with a packet, or with the end of the arrivals, in a phase. -/
def objection? : Phase → Option Packet → Option Violation
  | .identity, some packet => mismatch? "initialize" clientIdentity packet
  | .version, some packet => mismatch? "version" versionLine packet
  | .versionEnd, some .flush => none
  | .versionEnd, some (.data payload) => some (.notFlush "version end" payload)
  | .capabilities _, some packet =>
      match packet.capability? with
      | .error problem => some problem
      | .ok _ => none
  | .versionEnd, none => some (.endBefore "version end")
  | .identity, none | .version, none | .capabilities _, none => some .endInLine

theorem mismatch?_eq_none_iff (what line : String) (packet : Packet) :
    mismatch? what line packet = none ↔ packet.Carries line := by
  unfold mismatch? Packet.Carries
  cases packet.line? with
  | error problem => simp
  | ok found => simp

end Phase

/-- Why a capability is not confirmed. That it was not named comes first. -/
inductive Refuses (named : List Capability) (capability : Capability) : Violation → Prop
  | unnamed (unnamed : capability ∉ named) : Refuses named capability (.lacksOffered capability)
  | oversize (known : capability ∈ named)
      (large : Packet.maxPayload < (Text.bytes (capabilityLine capability)).length) :
      Refuses named capability
        (.oversizePayload (Text.bytes (capabilityLine capability)).length)

/-- What becomes of a complete list of capabilities: why the session ends with it, if it does, and
which packets are sent. -/
inductive Outcome (required offered named : List Capability) :
    Option Violation → List Packet → Prop
  | lacking {before behind : List Capability} {missing : Capability}
      (first : required = before ++ missing :: behind)
      (present : ∀ capability ∈ before, capability ∈ named) (absent : missing ∉ named) :
      Outcome required offered named (some (.lacksRequired missing)) []
  | unconfirmed {before behind : List Capability} {refused : Capability} {what : Violation}
      (needed : ∀ capability ∈ required, capability ∈ named)
      (first : offered = before ++ refused :: behind)
      (confirmed : ∀ capability ∈ before, Confirmable named capability)
      (refuses : Refuses named refused what) :
      Outcome required offered named (some what) (before.map confirmation)
  | agreed (needed : ∀ capability ∈ required, capability ∈ named)
      (confirmed : ∀ capability ∈ offered, Confirmable named capability) :
      Outcome required offered named none (offered.map confirmation ++ [.flush])

/-- How a greeting ends on these bytes: why the session ends with it, if it does, which packets are
sent, and which bytes are left unread. -/
inductive Verdict (required offered : List Capability) :
    Bytes → Option Violation → List Packet → Bytes → Prop
  | malformed {phase : Phase} {packets : List Packet} {raw rest left : Bytes} {what : Violation}
      (begun : Begun phase packets) (written : Packet.AllWritten packets raw)
      (stops : Packet.Stops phase.objection? rest what left) :
      Verdict required offered (raw ++ rest) (some what) phase.said left
  | complete {named : List Capability} {packets sent : List Packet} {raw : Bytes} (left : Bytes)
      {what? : Option Violation} (spelled : Spelled named packets)
      (written : Packet.AllWritten packets raw)
      (outcome : Outcome required offered named what? sent) :
      Verdict required offered (raw ++ left) what? (answer ++ sent) left

/-! ### Every byte string has a verdict -/

theorem stands_or_stops {Item : Type} (stands : Item → Prop) (items : List Item) :
    (∀ item ∈ items, stands item) ∨ ∃ before item behind,
      items = before ++ item :: behind ∧ (∀ earlier ∈ before, stands earlier) ∧ ¬stands item := by
  classical
  cases found : items.find? (¬stands ·) with
  | none => exact .inl (by simpa using found)
  | some item =>
      obtain ⟨stops, before, behind, split, earlier⟩ := List.find?_eq_some_iff_append.mp found
      exact .inr ⟨before, item, behind, split, by simpa using earlier, by simpa using stops⟩

theorem refuses_of_not_confirmable (named : List Capability) (capability : Capability)
    (refused : ¬Confirmable named capability) : ∃ what, Refuses named capability what := by
  by_cases known : capability ∈ named
  · exact ⟨_, .oversize known (by simpa [Confirmable, known] using refused)⟩
  · exact ⟨_, .unnamed known⟩

theorem outcome_total (required offered named : List Capability) :
    ∃ what? sent, Outcome required offered named what? sent := by
  rcases stands_or_stops (· ∈ named) required with
    needed | ⟨before, missing, behind, rfl, present, absent⟩
  · rcases stands_or_stops (Confirmable named) offered with
      confirmed | ⟨before, refused, behind, rfl, confirmed, stops⟩
    · exact ⟨_, _, .agreed needed confirmed⟩
    · obtain ⟨what, refuses⟩ := refuses_of_not_confirmable named refused stops
      exact ⟨_, _, .unconfirmed needed rfl confirmed refuses⟩
  · exact ⟨_, _, .lacking rfl present absent⟩

/-- A packet goes on with the greeting, completes it or is objected to. -/
theorem begun_packet (phase : Phase) (packets : List Packet) (packet : Packet)
    (begun : Begun phase packets) :
    (∃ next, Begun next (packets ++ [packet])) ∨ (∃ named, Spelled named (packets ++ [packet])) ∨
      ∃ what, phase.objection? (some packet) = some what := by
  cases begun with
  | nothing =>
      cases objects : Phase.mismatch? "initialize" clientIdentity packet with
      | some what => exact .inr (.inr ⟨what, objects⟩)
      | none => exact .inl ⟨_, .known ((Phase.mismatch?_eq_none_iff _ _ _).mp objects)⟩
  | known known =>
      cases objects : Phase.mismatch? "version" versionLine packet with
      | some what => exact .inr (.inr ⟨what, objects⟩)
      | none => exact .inl ⟨_, .agreed known ((Phase.mismatch?_eq_none_iff _ _ _).mp objects)⟩
  | agreed known agreed =>
      cases packet with
      | flush => exact .inl ⟨_, .listing known agreed .nil⟩
      | data payload => exact .inr (.inr ⟨_, rfl⟩)
  | @listing identity version lines named known agreed each =>
      cases found : packet.capability? with
      | error what => exact .inr (.inr ⟨what, by simp only [Phase.objection?, found]⟩)
      | ok found? =>
          cases found? with
          | none =>
              obtain rfl := (packet.capability?_eq_none_iff).mp found
              exact .inr (.inl ⟨named, .greeting known agreed each⟩)
          | some capability =>
              have names := (packet.capability?_eq_some_iff capability).mp found
              have more : List.Forall₂ Packet.Names (lines ++ [packet]) (named ++ [capability]) :=
                List.rel_append each (.cons names .nil)
              exact .inl ⟨_, .listing known agreed more⟩

theorem verdict_from (required offered : List Capability) (phase : Phase) (packets : List Packet)
    (raw rest : Bytes) (begun : Begun phase packets) (written : Packet.AllWritten packets raw) :
    ∃ what? sent left, Verdict required offered (raw ++ rest) what? sent left := by
  induction rest using Packet.reading_induction generalizing phase packets raw with
  | ended =>
      have objects : ∃ what, phase.objection? none = some what := by
        cases phase <;> exact ⟨_, rfl⟩
      obtain ⟨what, objects⟩ := objects
      exact ⟨_, _, [], .malformed begun written (.ended objects)⟩
  | misframed rest what left framing =>
      exact ⟨_, _, left, .malformed begun written (.misframed framing)⟩
  | packet packet one left spelled ih =>
      have more := Packet.allWritten_concat packets packet raw one written spelled
      rcases begun_packet phase packets packet begun with
        ⟨next, further⟩ | ⟨named, complete⟩ | ⟨what, objects⟩
      · rw [← List.append_assoc]
        exact ih next _ _ further more
      · rw [← List.append_assoc]
        obtain ⟨what?, sent, outcome⟩ := outcome_total required offered named
        exact ⟨what?, _, left, .complete left complete more outcome⟩
      · exact ⟨_, _, left, .malformed begun written (.misplaced left spelled objects)⟩

theorem verdict_total (required offered : List Capability) (raw : Bytes) :
    ∃ what? sent left, Verdict required offered raw what? sent left :=
  verdict_from required offered .identity [] [] raw .nothing .nothing

/-! ### The greeting comes to its verdict -/

variable (required offered : List Capability)

theorem expect_objects (what line : String) (next : Phase) (packet : Packet) (problem : Violation)
    (objects : Phase.mismatch? what line packet = some problem) :
    expect what line next packet = .violation problem := by
  unfold Phase.mismatch? at objects
  unfold expect
  cases found : packet.line? with
  | error other =>
      rw [found] at objects
      cases objects
      rfl
  | ok found? =>
      rw [found] at objects
      dsimp only at objects ⊢
      split at objects
      · cases objects
      · rename_i other
        cases objects
        rw [if_neg other]

theorem expect_carried (what line : String) (next : Phase) (packet : Packet)
    (carried : packet.Carries line) : expect what line next packet = { next := .await next } := by
  have found : packet.line? = .ok (some line) := carried
  simp only [expect, found, ↓reduceIte]

theorem hear_objects (memory : Memory) (phase : Phase) (packet : Packet) (what : Violation)
    (objects : phase.objection? (some packet) = some what) :
    hear required offered memory phase packet = .violation what := by
  cases phase with
  | identity => exact expect_objects "initialize" clientIdentity .version packet what objects
  | version => exact expect_objects "version" versionLine .versionEnd packet what objects
  | versionEnd =>
      cases packet with
      | data payload =>
          cases objects
          rfl
      | flush => cases objects
  | capabilities heard =>
      rw [hear_capabilities]
      simp only [Phase.objection?] at objects
      split at objects <;> cases objects
      simp only [*]

theorem hangUp_objects (phase : Phase) (what : Violation)
    (objects : phase.objection? none = some what) :
    hangUp phase = { failure? := some (.violation what) } := by
  cases phase <;> cases objects <;> rfl

theorem converse_onward (phase next : Phase) (source rest : Source) (packet : Packet)
    (read : source.next = (.ok (some packet), rest)) (desk : Desk)
    (heard : hear required offered desk.memory phase packet = { next := .await next }) :
    (dialogue required offered).converse phase source desk =
      (dialogue required offered).converse next rest desk := by
  have hears : (dialogue required offered).hear desk.memory phase packet = _ := heard
  rw [Dialogue.converse_packet _ _ _ _ _ _ read, hears]
  rfl

theorem converse_versionEnd (source rest : Source) (read : source.next = (.ok (some .flush), rest))
    (desk : Desk) (free : desk.sink.Free) :
    ∃ sink, desk.sink.Sends (Packet.encodeAll answer) (.on sink) ∧
      (dialogue required offered).converse .versionEnd source desk =
        (dialogue required offered).converse (.capabilities []) rest { desk with sink } := by
  have fits (payload : Bytes) (member : .send payload ∈ hello) :
      payload.length ≤ Packet.maxPayload := by
    simp only [hello, Effect.say, List.mem_cons, Effect.send.injEq, reduceCtorEq,
      List.not_mem_nil, or_false] at member
    rcases member with rfl | rfl <;> decide
  obtain ⟨sink, performed, sent⟩ :=
    Effect.performAll_silent hello desk free fits (by simp [hello, Effect.say])
  refine ⟨sink, sent, ?_⟩
  have heard : (dialogue required offered).hear desk.memory .versionEnd .flush =
      { effects := hello, next := .await (.capabilities []) } := rfl
  rw [Dialogue.converse_packet _ _ _ _ _ _ read, heard]
  simp only [Dialogue.react, performed]
  rfl

theorem converse_begun (phase : Phase) (packets : List Packet) (begun : Begun phase packets)
    (source rest : Source) (read : source.Yields packets rest) (desk : Desk)
    (free : desk.sink.Free) :
    ∃ sink, desk.sink.Sends (Packet.encodeAll phase.said) (.on sink) ∧
      (dialogue required offered).converse .identity source desk =
        (dialogue required offered).converse phase rest { desk with sink } := by
  have silent : desk.sink.Sends [] (.on desk.sink) := ⟨free, (List.append_nil _).symm⟩
  cases begun with
  | nothing =>
      cases read
      exact ⟨desk.sink, silent, rfl⟩
  | @known identity known =>
      cases read with
      | more readIdentity done =>
      cases done
      exact ⟨desk.sink, silent, converse_onward required offered .identity .version source rest
        identity readIdentity desk (expect_carried _ _ _ identity known)⟩
  | @agreed identity version known agreed =>
      cases read with
      | @more _ second _ _ _ readIdentity read =>
      cases read with
      | more readVersion done =>
      cases done
      have toVersion := converse_onward required offered .identity .version source second identity
        readIdentity desk (expect_carried _ _ _ identity known)
      have toEnd := converse_onward required offered .version .versionEnd second rest version
        readVersion desk (expect_carried _ _ _ version agreed)
      exact ⟨desk.sink, silent, toVersion.trans toEnd⟩
  | @listing identity version lines named known agreed each =>
      cases read with
      | @more _ second _ _ _ readIdentity read =>
      cases read with
      | @more _ third _ _ _ readVersion read =>
      cases read with
      | @more _ fourth _ _ _ readEnd readLines =>
      have toVersion := converse_onward required offered .identity .version source second identity
        readIdentity desk (expect_carried _ _ _ identity known)
      have toEnd := converse_onward required offered .version .versionEnd second third version
        readVersion desk (expect_carried _ _ _ version agreed)
      obtain ⟨sink, sent, toLines⟩ :=
        converse_versionEnd required offered third fourth readEnd desk free
      refine ⟨sink, sent, ?_⟩
      rw [toVersion, toEnd, toLines, converse_capabilities, converse_capabilities,
        Source.capabilitiesOnto_names [] named lines each fourth rest readLines, List.append_nil]

/-! ### Confirming -/

theorem says_packets (capabilities : List Capability) :
    (capabilities.map fun capability => Effect.say (capabilityLine capability)).flatMap
        Effect.packets = capabilities.map confirmation := by
  rw [List.flatMap_map, List.map_eq_flatMap]
  rfl

theorem says_recall (memory : Memory) (capabilities : List Capability) :
    Effect.recallAll memory
      (capabilities.map fun capability => Effect.say (capabilityLine capability)) = memory := by
  have lines := Effect.recallAll_sends memory
    (capabilities.map fun capability => Text.bytes (capabilityLine capability))
  rwa [List.map_map] at lines

theorem confirm_append (heard before behind : List Capability) (memory : Memory)
    (named : ∀ capability ∈ before, capability ∈ heard) :
    confirm heard memory offered (before ++ behind) =
      { confirm heard memory offered behind with
        effects := (before.map fun capability => .say (capabilityLine capability))
          ++ (confirm heard memory offered behind).effects } := by
  induction before with
  | nil => rfl
  | cons capability rest ih =>
      obtain ⟨here, later⟩ := List.forall_mem_cons.mp named
      simp only [List.cons_append, confirm, here, ↓reduceIte, ih later, List.map_cons]

theorem conclude_needed (heard : List Capability) (memory : Memory)
    (needed : ∀ capability ∈ required, capability ∈ heard) :
    conclude required offered heard memory = confirm heard memory offered offered := by
  have found : required.find? (· ∉ heard) = none := by simpa using needed
  simp only [conclude, found]

theorem conclude_lacking (heard before behind : List Capability) (missing : Capability)
    (memory : Memory) (first : required = before ++ missing :: behind)
    (present : ∀ capability ∈ before, capability ∈ heard) (absent : missing ∉ heard) :
    conclude required offered heard memory = .violation (.lacksRequired missing) := by
  have found : required.find? (· ∉ heard) = some missing :=
    List.find?_eq_some_iff_append.mpr
      ⟨by simpa using absent, before, behind, first, by simpa using present⟩
  simp only [conclude, found]

/-- What is remembered once the capabilities have been confirmed or refused. -/
def settle (offered : List Capability) (memory : Memory) : Option Violation → Memory
  | none => { memory with capabilities := offered }
  | some _ => memory

theorem says_performed (capabilities : List Capability)
    (fit : ∀ capability ∈ capabilities,
      (Text.bytes (capabilityLine capability)).length ≤ Packet.maxPayload)
    (desk : Desk) (free : desk.sink.Free) :
    ∃ sink, desk.sink.Sends (Packet.encodeAll (capabilities.map confirmation)) (.on sink) ∧
      Effect.performAll
          (capabilities.map fun capability => .say (capabilityLine capability)) desk =
        .on { desk with sink } := by
  have fits (payload : Bytes)
      (member : .send payload ∈
        capabilities.map fun capability => Effect.say (capabilityLine capability)) :
      payload.length ≤ Packet.maxPayload := by
    obtain ⟨capability, listed, same⟩ := List.mem_map.mp member
    cases same
    exact fit capability listed
  obtain ⟨sink, performed, sent⟩ :=
    Effect.performAll_silent _ desk free fits (by simp [Effect.say])
  rw [says_recall] at performed
  rw [says_packets] at sent
  exact ⟨sink, sent, performed⟩

theorem conclude_unconfirmed (named before behind : List Capability) (refused : Capability)
    (what : Violation) (needed : ∀ capability ∈ required, capability ∈ named)
    (first : offered = before ++ refused :: behind)
    (confirmed : ∀ capability ∈ before, Confirmable named capability)
    (refuses : Refuses named refused what) (rest : Source) (desk : Desk)
    (free : desk.sink.Free) (goOn : Phase → Desk → Ending) :
    ∃ sink, desk.sink.Sends (Packet.encodeAll (before.map confirmation)) (.on sink) ∧
      Dialogue.react (conclude required offered named.reverse desk.memory) rest desk goOn =
        ⟨some (.violation what), rest, { desk with sink }⟩ := by
  obtain ⟨sink, sent, performed⟩ := says_performed before
    (fun capability member => (confirmed capability member).2) desk free
  refine ⟨sink, sent, ?_⟩
  have parts : confirm named.reverse desk.memory offered offered = _ :=
    (congrArg (confirm named.reverse desk.memory offered) first).trans
      (confirm_append offered named.reverse before (refused :: behind) desk.memory
        fun capability member => List.mem_reverse.mpr (confirmed capability member).1)
  rw [conclude_needed required offered _ _ (by simpa using needed), parts]
  cases refuses with
  | unnamed unnamed =>
      have unheard : refused ∉ named.reverse := by simpa using unnamed
      simp only [confirm, unheard, ↓reduceIte, Reaction.violation, List.append_nil,
        Dialogue.react, performed]
  | oversize known large =>
      have heard : refused ∈ named.reverse := by simpa using known
      have halts (later : List Effect) (desk : Desk) :
          Effect.performAll (.say (capabilityLine refused) :: later) desk =
            .halted (.violation
              (.oversizePayload (Text.bytes (capabilityLine refused)).length)) desk := by
        simp only [Effect.performAll, Effect.say, Effect.perform, Sink.send_oversize _ large,
          Progress.map, Progress.halted_andThen]
      simp only [confirm, heard, ↓reduceIte, Dialogue.react, Effect.performAll_append, performed,
        Progress.on_andThen, halts]

theorem conclude_agreed (named : List Capability)
    (needed : ∀ capability ∈ required, capability ∈ named)
    (confirmed : ∀ capability ∈ offered, Confirmable named capability) (rest : Source)
    (desk : Desk) (free : desk.sink.Free) (goOn : Phase → Desk → Ending) :
    ∃ sink, desk.sink.Sends (Packet.encodeAll (offered.map confirmation ++ [.flush]))
        (.on sink) ∧
      Dialogue.react (conclude required offered named.reverse desk.memory) rest desk goOn =
        ⟨none, rest, ⟨{ desk.memory with capabilities := offered }, sink, desk.journal⟩⟩ := by
  obtain ⟨middle, sent, performed⟩ := says_performed offered
    (fun capability member => (confirmed capability member).2) desk free
  obtain ⟨sink, ended, flushed⟩ := Effect.performAll_silent
    [.flush, .remember { desk.memory with capabilities := offered }] { desk with sink := middle }
    sent.1 (by simp) (by simp)
  rw [Packet.encodeAll_append]
  refine ⟨sink, sent.trans flushed, ?_⟩
  have parts := confirm_append offered named.reverse offered [] desk.memory
    fun capability member => List.mem_reverse.mpr (confirmed capability member).1
  rw [List.append_nil] at parts
  rw [conclude_needed required offered _ _ (by simpa using needed), parts]
  simp only [confirm, Dialogue.react, Effect.performAll_append, performed, Progress.on_andThen,
    ended]
  rfl

theorem conclude_outcome (named : List Capability) (what? : Option Violation)
    (sent : List Packet) (outcome : Outcome required offered named what? sent) (rest : Source)
    (desk : Desk) (free : desk.sink.Free) (goOn : Phase → Desk → Ending) :
    ∃ sink, desk.sink.Sends (Packet.encodeAll sent) (.on sink) ∧
      Dialogue.react (conclude required offered named.reverse desk.memory) rest desk goOn =
        ⟨what?.map .violation, rest, ⟨settle offered desk.memory what?, sink, desk.journal⟩⟩ := by
  cases outcome with
  | @lacking before behind missing first present absent =>
      refine ⟨desk.sink, ⟨free, (List.append_nil _).symm⟩, ?_⟩
      rw [conclude_lacking required offered named.reverse before behind missing desk.memory first
        (by simpa using present) (by simpa using absent)]
      rfl
  | @unconfirmed before behind refused what needed first confirmed refuses =>
      exact conclude_unconfirmed required offered named before behind refused what needed first
        confirmed refuses rest desk free goOn
  | agreed needed confirmed =>
      exact conclude_agreed required offered named needed confirmed rest desk free goOn

/-- How a greeting has ended that was to come to a verdict: the failure, what went out, what is
left unread, and what is remembered. The journal has not been touched. -/
structure Settled (ending : Ending) (desk : Desk) (what? : Option Violation)
    (sent : List Packet) (left : Bytes) : Prop where
  failure : ending.failure? = what?.map .violation
  sent : desk.sink.Sends (Packet.encodeAll sent) (.on ending.desk.sink)
  clear : ending.source.Faultless
  left : ending.source.bytes = left
  memory : ending.desk.memory = settle offered desk.memory what?
  journal : ending.desk.journal = desk.journal

theorem greet_verdict (source : Source) (clear : source.Faultless) (desk : Desk)
    (free : desk.sink.Free) (what? : Option Violation) (sent : List Packet) (left : Bytes)
    (verdict : Verdict required offered source.bytes what? sent left) :
    Settled offered (Service.greet required offered source desk) desk what? sent left := by
  generalize whole : source.bytes = raw at verdict
  cases verdict with
  | @malformed phase packets raw rest left what begun written stops =>
      obtain ⟨middle, read, middleClear, behind⟩ :=
        source.yields_allWritten packets raw rest written clear whole
      obtain ⟨sink, said, onward⟩ :=
        converse_begun required offered phase packets begun source middle read desk free
      obtain ⟨last, ended, lastClear, unread⟩ :=
        (dialogue required offered).converse_stops phase phase.objection?
          (fun memory packet what => hear_objects required offered memory phase packet what)
          (hangUp_objects phase) rest left what stops middle middleClear behind { desk with sink }
      rw [Service.greet, onward, ended]
      exact ⟨rfl, said, lastClear, unread, rfl, rfl⟩
  | @complete named packets sent raw left what? spelled written outcome =>
      obtain ⟨middle, read, middleClear, behind⟩ :=
        source.yields_allWritten packets raw left written clear whole
      cases spelled with
      | @greeting identity version lines known agreed each =>
          obtain ⟨first, readOpening, readLines⟩ := (Source.yields_append_iff source middle
            [identity, version, .flush] (lines ++ [.flush])).mp read
          obtain ⟨answered, said, onward⟩ := converse_begun required offered _ _
            (.listing known agreed .nil) source first readOpening desk free
          obtain ⟨sink, confirmed, ended⟩ := conclude_outcome required offered named what? sent
            outcome middle { desk with sink := answered } said.1
            fun phase desk => (dialogue required offered).converse phase middle desk
          have listed := Source.capabilitiesOnto_group [] named lines each first middle readLines
          rw [Service.greet, onward, List.reverse_nil, converse_capabilities, listed]
          dsimp only
          rw [List.reverse_nil, List.nil_append, ended]
          refine ⟨rfl, ?_, middleClear, behind, rfl, rfl⟩
          rw [Packet.encodeAll_append]
          exact said.trans confirmed

/-! ### Which greetings are accepted -/

/-- The bytes in front of `left` are a greeting that names everything it has to. -/
def Accepted (required offered : List Capability) (raw left : Bytes) : Prop :=
  ∃ named packets front, raw = front ++ left ∧ Packet.AllWritten packets front ∧
    Spelled named packets ∧ (∀ capability ∈ required, capability ∈ named) ∧
    ∀ capability ∈ offered, Confirmable named capability

theorem verdict_of_accepted (raw left : Bytes) (accepted : Accepted required offered raw left) :
    Verdict required offered raw none (answer ++ (offered.map confirmation ++ [.flush])) left := by
  obtain ⟨named, packets, front, rfl, written, spelled, needed, confirmed⟩ := accepted
  exact .complete left spelled written (.agreed needed confirmed)

theorem accepted_of_verdict (raw left : Bytes) (sent : List Packet)
    (verdict : Verdict required offered raw none sent left) :
    Accepted required offered raw left := by
  cases verdict with
  | complete left spelled written outcome =>
      cases outcome with
      | agreed needed confirmed =>
          exact ⟨_, _, _, rfl, written, spelled, needed, confirmed⟩

theorem confirmation_names (capability : Capability) (nonempty : capability.name ≠ "") :
    (confirmation capability).Names capability := by
  have line : confirmation capability = .ofLine ("capability=" ++ capability.name) :=
    congrArg Packet.data (Text.bytes_append _ "\n")
  exact ⟨nonempty, line ▸ Packet.carries_ofLine _⟩

theorem named_arrived (lines : List Packet) (named : List Capability)
    (each : List.Forall₂ Packet.Names lines named) (capability : Capability)
    (member : capability ∈ named) : ∃ packet ∈ lines, packet.Names capability := by
  induction each with
  | nil => cases member
  | @cons packet _ _ _ names _ ih =>
      rcases List.mem_cons.mp member with rfl | later
      · exact ⟨packet, List.mem_cons_self, names⟩
      · rcases ih later with ⟨other, listed, here⟩
        exact ⟨other, List.mem_cons_of_mem packet listed, here⟩

theorem names_nonempty (lines : List Packet) (named : List Capability)
    (each : List.Forall₂ Packet.Names lines named) (capability : Capability)
    (member : capability ∈ named) : capability.name ≠ "" := by
  rcases named_arrived lines named each capability member with ⟨_, _, names⟩
  exact names.1

/-- What was confirmed reads back as the offer. -/
theorem capabilities_confirmed (raw left : Bytes)
    (accepted : Accepted required offered raw left) (source : Source) (clear : source.Faultless)
    (tail : Bytes)
    (sent : source.bytes = Packet.encodeAll (offered.map confirmation ++ [.flush]) ++ tail) :
    ∃ rest, source.capabilities = (.ok offered, rest) ∧ rest.bytes = tail := by
  obtain ⟨named, packets, front, _, _, spelled, _, confirmed⟩ := accepted
  cases spelled with
  | @greeting identity version lines known agreed each =>
      have names : List.Forall₂ Packet.Names (offered.map confirmation) offered := by
        rw [List.forall₂_map_left_iff]
        exact List.forall₂_same.mpr fun capability member =>
          confirmation_names capability
            (names_nonempty lines named each capability (confirmed capability member).1)
      have legal : ∀ packet ∈ offered.map confirmation ++ [Packet.flush], packet.Legal := by
        simp only [List.forall_mem_append, List.forall_mem_map, List.forall_mem_singleton]
        exact ⟨fun capability member => (confirmed capability member).2, trivial⟩
      obtain ⟨rest, read, _, unread⟩ := source.yields_encodeAll _ legal tail clear sent
      exact ⟨rest, Source.capabilitiesOnto_group [] offered _ names source rest read, unread⟩

/-- A greeting on a channel without faults goes well exactly when the bytes start with the packets
of one that names everything required and offered. The offer is then in force, all of it and
nothing else has been confirmed, and nothing behind the greeting has been read. On any other bytes
the greeting ends as the verdict says. -/
theorem greet_accepts (source : Source) (clear : source.Faultless) (desk : Desk)
    (free : desk.sink.Free) :
    let ending := Service.greet required offered source desk
    (ending.failure? = none ↔ ∃ left, Accepted required offered source.bytes left) ∧
    (∀ left, Accepted required offered source.bytes left →
      ending.desk.memory.capabilities = offered ∧ ending.source.bytes = left ∧
      ending.desk.sink.outlet.contents = desk.sink.outlet.contents ++
        Packet.encodeAll (answer ++ (offered.map confirmation ++ [.flush])) ∧
      ∀ other : Source, other.Faultless → ∀ tail,
        other.bytes = Packet.encodeAll (offered.map confirmation ++ [.flush]) ++ tail →
          ∃ rest, other.capabilities = (.ok offered, rest) ∧ rest.bytes = tail) ∧
    (∃ what? sent left, Verdict required offered source.bytes what? sent left) ∧
    ∀ what? sent left, Verdict required offered source.bytes what? sent left →
      Settled offered ending desk what? sent left := by
  intro ending
  have comes := greet_verdict required offered source clear desk free
  obtain ⟨what?, sent, left, verdict⟩ := verdict_total required offered source.bytes
  refine ⟨⟨?_, ?_⟩, ?_, ⟨what?, sent, left, verdict⟩, comes⟩
  · intro well
    have settled := comes what? sent left verdict
    cases what? with
    | none => exact ⟨left, accepted_of_verdict required offered _ left sent verdict⟩
    | some what =>
        have fails := settled.failure
        rw [well] at fails
        cases fails
  · rintro ⟨left, accepted⟩
    exact (comes none _ left (verdict_of_accepted required offered _ left accepted)).failure
  · intro left accepted
    have settled := comes none _ left (verdict_of_accepted required offered _ left accepted)
    exact ⟨congrArg Memory.capabilities settled.memory, settled.left, settled.sent.2,
      capabilities_confirmed required offered _ left accepted⟩

/-- The greeting of a driver, with a capital letter in one header and a newline behind two of the
lines. -/
def driverGreeting : Bytes :=
  Text.bytes "0015git-filter-client000Eversion=2\n0000"
    ++ Text.bytes "0014capability=clean0016capability=smudge\n0014capability=delay0000"

-- The offer names one capability twice; a digit of the first request has come in already.
theorem greet_accepts_repeated :
    let offered : List Capability := [⟨"smudge"⟩, ⟨"smudge"⟩]
    let source : Source := [.bytes driverGreeting, .pause, .bytes (Text.bytes "0")]
    let ending := Service.greet requiredCapabilities offered source (.opened (.fresh [] false))
    ∃ left, Accepted requiredCapabilities offered source.bytes left ∧ left = Text.bytes "0" ∧
      ending.desk.memory.capabilities = offered ∧
      ending.desk.sink.outlet.contents =
        Text.bytes "0015git-filter-server000dversion=20000"
          ++ Text.bytes "0016capability=smudge\n0016capability=smudge\n0000" := by
  intro offered source ending
  obtain ⟨accepts, accepted, _⟩ := greet_accepts requiredCapabilities offered source
    (by simp [Source.Faultless, source]) (.opened (.fresh [] false)) ⟨rfl, rfl⟩
  obtain ⟨left, found⟩ := accepts.mp (by decide +kernel)
  obtain ⟨inForce, unread, sent, _⟩ := accepted left found
  refine ⟨left, found, ?_, inForce, sent.trans (by decide +kernel)⟩
  rw [← unread]
  decide +kernel

end Greeting

end ContentFilter
