import ContentFilter.Proofs.Joined
import ContentFilter.Proofs.Journaled
import ContentFilter.Proofs.Shuffled

/-!
Runs that go through the waitlist in different orders. Whatever the two orders are, one packet is
answered alike (`hear_echo`), so two runs tell the driver the same, up to the lines of each
announcement: `order_unseen` for an exchange, `attend_reordered` for a session. Where the channel or
the journal refuses something, this is left open.
-/

namespace ContentFilter

theorem Memory.beside_stirred (memory other : Memory) (beside : memory.Beside other)
    (iteration also : Iteration) (time : Nat) :
    (memory.stirred iteration time).Beside (other.stirred also time) := by
  have one := iteration.perm time memory.waitlist.entries
  have two := also.perm time other.waitlist.entries
  have sound : (memory.stirred iteration time).Sound :=
    memory.sound_same _ beside.sound (one.map Prod.fst)
  have alsoSound : (other.stirred also time).Sound :=
    other.sound_same _ beside.alsoSound (two.map Prod.fst)
  refine ⟨⟨beside.same.capabilities, beside.same.delaysAll, fun pathname => ?_,
    beside.same.aborted⟩, sound, alsoSound⟩
  calc (memory.stirred iteration time).waitlist.find? pathname
      = memory.waitlist.find? pathname :=
        Waitlist.find?_perm _ memory.waitlist one sound.distinct pathname
    _ = other.waitlist.find? pathname := beside.same.tickets pathname
    _ = (other.stirred also time).waitlist.find? pathname :=
        Waitlist.find?_perm other.waitlist _ two.symm beside.alsoSound.distinct pathname

/-- The same reply, except that an announcement may come in another order. -/
inductive Reply.Echoes : Reply → Reply → Prop
  | same (reply : Reply) : Echoes reply reply
  | listed (one other : Announcement) (ready : one.ready = other.ready)
      (announced : one.announced.Perm other.announced) : Echoes (.listed one) (.listed other)

namespace Exchange

/-! ### One packet -/

/-- Two reactions, each in its own memory, that differ in nothing but the order of an
announcement. -/
structure Echo (memory other : Memory) (one two : Reaction Phase) : Prop where
  next : one.next = two.next
  noted : one.effects.flatMap Effect.remarks = two.effects.flatMap Effect.remarks
  replied : ∃ replies others, List.Forall₂ Reply.Echoes replies others ∧
    one.effects.flatMap Effect.packets = replies.flatMap Reply.packets ∧
    two.effects.flatMap Effect.packets = others.flatMap Reply.packets
  remembered : (Effect.recallAll memory one.effects).Beside (Effect.recallAll other two.effects)
  fits : ∀ payload, .send payload ∈ one.effects ∨ .send payload ∈ two.effects →
    payload.length ≤ Packet.maxPayload

section

variable (memory other : Memory) (beside : memory.Beside other)

include beside

theorem echo_noting (remarks : List Remark) (next : Next Phase) :
    Echo memory other ⟨remarks.map .note, next⟩ ⟨remarks.map .note, next⟩ where
  next := rfl
  noted := rfl
  replied := ⟨[], [], .nil, by simp [Effect.packets], by simp [Effect.packets]⟩
  remembered := by simpa only [Effect.recallAll_notes] using beside
  fits := by simp

theorem echo_allowed (command : Command) (pathname : String) (fits : Announceable pathname) :
    Echo memory other (hear memory (.details command pathname true) .flush)
      (hear other (.details command pathname true) .flush) := by
  have heard (memory : Memory) : hear memory (.details command pathname true) .flush =
      { effects := [.remember (memory.permit pathname)]
        next := .await (.content command pathname #[]) } := by
    simp only [hear, hearDetail, Packet.line?, ↓reduceIte, Memory.allowDelay_eq_permit]
  rw [heard, heard]
  exact ⟨rfl, rfl, ⟨[], [], .nil, rfl, rfl⟩, memory.beside_permit other beside pathname fits,
    by simp⟩

theorem echo_listed :
    Echo memory other (hear memory .listEnd .flush) (hear other .listEnd .flush) := by
  have perm := Waitlist.perm_of_find? memory.waitlist other.waitlist beside.sound.distinct
    beside.alsoSound.distinct beside.same.tickets
  have polled := memory.waitlist.shuffled_poll other.waitlist perm
  have heard (memory : Memory) : hear memory .listEnd .flush =
      { effects := listReply memory, next := .await .command } := rfl
  rw [heard, heard]
  refine ⟨rfl, ?_, ?_, ?_, ?_⟩
  · rw [listReply_remarks, listReply_remarks]
    simp only [Reply.remarks, polled.ready]
  · refine ⟨[.listed memory.waitlist.announcement], [.listed other.waitlist.announcement],
      .cons (.listed _ _ polled.ready polled.announced) .nil, ?_, ?_⟩
    · rw [listReply_packets, List.flatMap_singleton]
    · rw [listReply_packets, List.flatMap_singleton]
  · rw [listReply_recall, listReply_recall]
    exact memory.beside_countDown other beside
  · rintro payload (member | member)
    · exact listReply_fits memory beside.sound.known payload member
    · exact listReply_fits other beside.alsoSound.known payload member

theorem echo_concluded (request : Request) :
    Echo memory other (conclude memory request) (conclude other request) := by
  have alike := memory.answer?_alike other request (beside.same.alikeFor _ _)
  cases decided : memory.answer? request with
  | none =>
      have refused (memory : Memory) (undecided : memory.answer? request = none) :
          conclude memory request = ⟨[.received request.payload.length].map .note,
            .fail (.unsupported request.command.name)⟩ := by
        simp only [conclude, undecided, List.map_singleton]
      rw [refused memory decided, refused other (alike.symm.trans decided)]
      exact echo_noting memory other beside _ _
  | some answer =>
      obtain ⟨next, answered⟩ : ∃ next, ∀ memory : Memory,
          memory.answer? request = some answer → conclude memory request =
            ⟨.note (.received request.payload.length) :: fileReply memory request answer,
              next⟩ := by
        refine ⟨(conclude memory request).next, fun now found => ?_⟩
        simp only [conclude, decided, found]
      have packets (memory : Memory) :
          (.note (.received request.payload.length) :: fileReply memory request answer).flatMap
            Effect.packets = [Reply.answered answer].flatMap Reply.packets := by
        rw [List.flatMap_cons, fileReply_packets, List.flatMap_singleton]
        rfl
      have recalled (memory : Memory) : Effect.recallAll memory
          (.note (.received request.payload.length) :: fileReply memory request answer) =
            memory.after request answer := fileReply_recall memory request answer
      rw [answered memory decided, answered other (alike.symm.trans decided)]
      refine ⟨rfl, ?_, ⟨[.answered answer], [.answered answer], .cons (.same _) .nil,
        packets memory, packets other⟩, ?_, ?_⟩
      · simp only [List.flatMap_cons, fileReply_remarks]
      · rw [recalled, recalled]
        exact memory.beside_after other beside request answer
      · simp only [List.mem_cons, reduceCtorEq, false_or]
        rintro payload (member | member)
        · exact fileReply_fits memory request answer payload member
        · exact fileReply_fits other request answer payload member

/-- A packet is heard alike, whichever of the memories hears it. -/
theorem hear_echo (phase : Phase) (waiting : phase.Announceable) (packet : Packet) :
    Echo memory other (hear memory phase packet) (hear other phase packet) := by
  have hearing := hear_hearing memory phase packet
  -- What sends and remembers nothing does not look at the memory either.
  have noting (same : hear memory phase packet = hear other phase packet)
      (silent : ∃ (remarks : List Remark) (next : Next Phase),
        hear memory phase packet = ⟨remarks.map .note, next⟩) :
      Echo memory other (hear memory phase packet) (hear other phase packet) := by
    obtain ⟨remarks, next, heard⟩ := silent
    rw [← same, heard]
    exact echo_noting memory other beside remarks next
  cases phase with
  | command =>
      refine noting rfl ?_
      generalize hear memory .command packet = reaction at hearing
      cases hearing with
      | noted remarks => exact ⟨remarks, _, rfl⟩
      | unknown | objected => exact ⟨[], _, rfl⟩
  | pathname command =>
      refine noting rfl ?_
      generalize hear memory (.pathname command) packet = reaction at hearing
      cases hearing with
      | noted remarks => exact ⟨remarks, _, rfl⟩
      | objected => exact ⟨[], _, rfl⟩
  | listEnd =>
      cases packet with
      | flush => exact echo_listed memory other beside
      | data payload => exact noting rfl ⟨[], _, rfl⟩
  | details command pathname mayDelay =>
      by_cases allows : mayDelay = true ∧ packet = .flush
      · obtain ⟨rfl, rfl⟩ := allows
        exact echo_allowed memory other beside command pathname waiting
      · refine noting ?_ ?_
        · simp only [hear, hearDetail]
          cases found : packet.line? with
          | error what => rfl
          | ok carried =>
              cases carried with
              | some line => rfl
              | none =>
                  have ends := (Packet.line?_eq_none_iff packet).mp found
                  have prompt : mayDelay = false := by
                    simpa [ends] using allows
                  rw [prompt]
                  rfl
        · generalize hear memory (.details command pathname mayDelay) packet = reaction at hearing
          cases hearing with
          | noted remarks => exact ⟨remarks, _, rfl⟩
          | allowed => exact absurd ⟨rfl, rfl⟩ allows
          | objected => exact ⟨[], _, rfl⟩
  | content command pathname received =>
      cases packet with
      | flush => exact echo_concluded memory other beside _
      | data payload => exact noting rfl ⟨[], _, rfl⟩

end

/-! ### A whole run -/

/-- What the two runs have done since `desk` and since `other` differs in nothing but the order of
announcements. -/
structure Told (desk other : Desk) (one two : Ending) : Prop where
  failure : one.failure? = two.failure?
  unread : one.source = two.source
  remembered : one.desk.memory.Beside two.desk.memory
  added : ∃ replies others noted, List.Forall₂ Reply.Echoes replies others ∧
    desk.Adds (Packet.encodeAll (replies.flatMap Reply.packets)) noted one.desk ∧
    other.Adds (Packet.encodeAll (others.flatMap Reply.packets)) noted two.desk

theorem told_here (desk other : Desk) (free : desk.Free) (also : other.Free)
    (beside : desk.memory.Beside other.memory) (failure? : Option Failure) (source : Source) :
    Told desk other ⟨failure?, source, desk⟩ ⟨failure?, source, other⟩ :=
  ⟨rfl, rfl, beside, [], [], [], .nil, desk.adds_refl free, other.adds_refl also⟩

theorem told_behind (desk other after late : Desk) (replies others : List Reply)
    (noted : Bytes) (echoes : List.Forall₂ Reply.Echoes replies others)
    (here : desk.Adds (Packet.encodeAll (replies.flatMap Reply.packets)) noted after)
    (there : other.Adds (Packet.encodeAll (others.flatMap Reply.packets)) noted late)
    (one two : Ending) (told : Told after late one two) : Told desk other one two := by
  obtain ⟨more, further, text, later, onward, beyond⟩ := told.added
  refine ⟨told.failure, told.unread, told.remembered, replies ++ more, others ++ further,
    noted ++ text, List.rel_append echoes later, ?_, ?_⟩
  · rw [List.flatMap_append, Packet.encodeAll_append]
    exact here.trans onward
  · rw [List.flatMap_append, Packet.encodeAll_append]
    exact there.trans beyond

theorem told_part (desk other : Desk) (free : desk.Free) (also : other.Free)
    (beside : desk.memory.Beside other.memory) (phase : Phase) (source : Source) :
    Told desk other (Dialogue.part (hangUp phase) source desk)
      (Dialogue.part (hangUp phase) source other) := by
  have silent : ∃ remarks : List Remark, (hangUp phase).effects = remarks.map .note := by
    cases phase with
    | command => exact ⟨[.stopped], rfl⟩
    | listEnd | pathname | details | content => exact ⟨[], rfl⟩
  obtain ⟨remarks, effects⟩ := silent
  obtain ⟨after, performed, moved⟩ := Effect.performAll_free (remarks.map .note) desk free (by simp)
  obtain ⟨late, alsoPerformed, alsoMoved⟩ :=
    Effect.performAll_free (remarks.map .note) other also (by simp)
  rw [Effect.recallAll_notes] at moved alsoMoved
  have still : after.memory.Beside late.memory := by
    rw [moved.remembered, alsoMoved.remembered]
    exact beside
  have unsent : (remarks.map Effect.note).flatMap Effect.packets = [] := by simp [Effect.packets]
  rw [unsent] at moved alsoMoved
  simp only [Dialogue.part, effects, performed, alsoPerformed]
  exact told_behind desk other after late [] [] _ .nil ⟨moved.free, moved.sent, moved.noted⟩
    ⟨alsoMoved.free, alsoMoved.sent, alsoMoved.noted⟩ _ _
    (told_here after late moved.free alsoMoved.free still _ source)

/-- One packet, heard in two orders: the driver is told the same, and the runs go on in the same
phase. -/
theorem stirring_packet (iteration also : Iteration) (time : Nat) (phase : Phase)
    (source rest : Source) (packet : Packet) (desk other : Desk) (free : desk.Free)
    (alsoFree : other.Free) (beside : desk.memory.Beside other.memory)
    (waiting : phase.Announceable) (read : source.next = (.ok (some packet), rest)) :
    ∃ (after late : Desk) (replies others : List Reply) (noted : Bytes) (next : Next Phase),
      List.Forall₂ Reply.Echoes replies others ∧
      desk.Adds (Packet.encodeAll (replies.flatMap Reply.packets)) noted after ∧
      other.Adds (Packet.encodeAll (others.flatMap Reply.packets)) noted late ∧
      after.memory.Beside late.memory ∧
      (∀ further, next = .await further → further.Announceable) ∧
      (stirring iteration).converse (time, phase) source desk =
        (stirring iteration).proceed (next.timed (time + 1)) rest after ∧
      (stirring also).converse (time, phase) source other =
        (stirring also).proceed (next.timed (time + 1)) rest late := by
  have legal := Source.next_legal source rest packet read
  have stirred := desk.memory.beside_stirred other.memory beside iteration also time
  have echo := hear_echo _ _ stirred phase waiting packet
  obtain ⟨after, moved, step⟩ := stirring_step iteration time phase source rest desk packet
    (hear (desk.memory.stirred iteration time) phase packet).effects
    (hear (desk.memory.stirred iteration time) phase packet).next read rfl free
    (fun payload member => echo.fits payload (.inl member))
  obtain ⟨late, alsoMoved, alsoStep⟩ := stirring_step also time phase source rest other packet
    (hear (other.memory.stirred also time) phase packet).effects
    (hear (other.memory.stirred also time) phase packet).next read rfl alsoFree
    (fun payload member => echo.fits payload (.inr member))
  obtain ⟨replies, others, echoes, sent, alsoSent⟩ := echo.replied
  have still : after.memory.Beside late.memory := by
    rw [moved.remembered, alsoMoved.remembered]
    exact echo.remembered
  refine ⟨after, late, replies, others, _, _, echoes, ⟨moved.free, sent ▸ moved.sent, moved.noted⟩,
    ⟨alsoMoved.free, alsoSent ▸ alsoMoved.sent, echo.noted.symm ▸ alsoMoved.noted⟩, still,
    fun further => ?_, step, ?_⟩
  · exact hear_awaits (desk.memory.stirred iteration time) phase further packet waiting legal
  · rw [alsoStep, ← echo.next]

/-- Two runs that hear the same packets, each in orders of its own. -/
theorem stirring_told (iteration also : Iteration) (time : Nat) (phase : Phase) (source : Source)
    (desk other : Desk) (free : desk.Free) (alsoFree : other.Free)
    (beside : desk.memory.Beside other.memory) (waiting : phase.Announceable) :
    Told desk other ((stirring iteration).converse (time, phase) source desk)
      ((stirring also).converse (time, phase) source other) := by
  induction size : source.unread using Nat.strongRecOn
    generalizing time phase source desk other with
  | ind unread ih =>
  cases next : source.next with
  | mk outcome rest =>
  cases outcome with
  | error failure =>
      rw [Dialogue.converse_fault _ _ source rest desk failure next,
        Dialogue.converse_fault _ _ source rest other failure next]
      exact told_here desk other free alsoFree beside _ rest
  | ok found =>
  cases found with
  | none =>
      rw [Dialogue.converse_closed _ _ source rest desk next,
        Dialogue.converse_closed _ _ source rest other next]
      exact told_part desk other free alsoFree beside phase rest
  | some packet =>
      have shorter := Source.next_shrinks source rest packet next
      simp only [Packet.headerSize] at shorter
      obtain ⟨after, late, replies, others, noted, onward, echoes, here, there, still, waits, step,
        alsoStep⟩ := stirring_packet iteration also time phase source rest packet desk other free
          alsoFree beside waiting next
      rw [step, alsoStep]
      apply told_behind desk other after late replies others noted echoes here there
      cases onward with
      | finish => exact told_here after late here.free there.free still _ rest
      | fail failure => exact told_here after late here.free there.free still _ rest
      | await further =>
          exact ih rest.unread (by omega) (time + 1) further rest after late here.free there.free
            still (waits further rfl) rfl

/-- Everything that two runs from one desk leave behind, in two orders. -/
structure Reordered (desk : Desk) (one two : Ending) : Prop where
  failure : one.failure? = two.failure?
  unread : one.source = two.source
  journal : one.desk.journal.close.contents = two.desk.journal.close.contents
  remembered : one.desk.memory.Matches two.desk.memory
  entries : one.desk.memory.waitlist.entries.Perm two.desk.memory.waitlist.entries
  replies : ∃ replies others, List.Forall₂ Reply.Echoes replies others ∧
    one.desk.sink.outlet.contents = desk.sink.outlet.contents ++
      Packet.encodeAll (replies.flatMap Reply.packets) ∧
    two.desk.sink.outlet.contents = desk.sink.outlet.contents ++
      Packet.encodeAll (others.flatMap Reply.packets)

theorem reordered_of_told (desk : Desk) (one two : Ending) (told : Told desk desk one two) :
    Reordered desk one two := by
  obtain ⟨replies, others, noted, echoes, here, there⟩ := told.added
  refine ⟨told.failure, told.unread, ?_, told.remembered.same, ?_,
    replies, others, echoes, here.sent, there.sent⟩
  · rw [Journal.close_contents _ here.free.journal, Journal.close_contents _ there.free.journal,
      here.noted, there.noted]
  · exact Waitlist.perm_of_find? _ _ told.remembered.sound.distinct
      told.remembered.alsoSound.distinct told.remembered.same.tickets

theorem reordered_refl (desk : Desk) (failure? : Option Failure) (source : Source) :
    Reordered desk ⟨failure?, source, desk⟩ ⟨failure?, source, desk⟩ := by
  have nothing : desk.sink.outlet.contents =
      desk.sink.outlet.contents ++ Packet.encodeAll (([] : List Reply).flatMap Reply.packets) := by
    simp [Packet.encodeAll]
  exact ⟨rfl, rfl, rfl, ⟨rfl, rfl, fun _ => rfl, rfl⟩, .refl _, [], [], .nil, nothing, nothing⟩

theorem converseIn_reordered (iteration also : Iteration) (source : Source) (desk : Desk)
    (free : desk.Free) (reached : desk.memory.Reached) :
    Reordered desk (converseIn iteration source desk) (converseIn also source desk) := by
  have alike : desk.memory.Beside desk.memory :=
    ⟨⟨rfl, rfl, fun _ => rfl, rfl⟩, reached.sound, reached.sound⟩
  exact reordered_of_told desk _ _
    (stirring_told iteration also 0 .command source desk desk free free alike trivial)

/-- The order of the entries reaches the order of an announcement and nothing else: one poll leaves
the same entries and finds the same pathnames ready, and no run depends on the orders in which it
has met the entries. -/
theorem order_unseen (waitlist shuffled : Waitlist)
    (perm : waitlist.entries.Perm shuffled.entries) (iteration also : Iteration)
    (source : Source) (desk : Desk) (free : desk.Free) (reached : desk.memory.Reached) :
    waitlist.Shuffled shuffled ∧
      converseIn .entered source desk = converse source desk ∧
      Reordered desk (converseIn iteration source desk) (converseIn also source desk) := by
  exact ⟨waitlist.shuffled_poll shuffled perm, converseIn_entered source desk,
    converseIn_reordered iteration also source desk free reached⟩

-- The second list query finds one pathname ready and brings the stranger again.
theorem order_unseen_turned :
    let source := Source.sending (.file strangeSmudge :: countedSession)
    let desk := Desk.opened (Memory.fresh [⟨"smudge"⟩] false)
    (converseIn .entered source desk).desk.sink.outlet.contents ≠
        (converseIn .turned source desk).desk.sink.outlet.contents ∧
      Waitlist.Shuffled .seeded ⟨Waitlist.seeded.entries.reverse⟩ ∧
      converseIn .entered source desk = converse source desk ∧
      Reordered desk (converseIn .entered source desk) (converseIn .turned source desk) := by
  intro source desk
  refine ⟨by decide +kernel, ?_⟩
  exact order_unseen .seeded ⟨Waitlist.seeded.entries.reverse⟩ (List.reverse_perm _).symm .entered
    .turned source desk (Desk.free_opened _) (.fresh [⟨"smudge"⟩] false)

end Exchange

namespace Service

-- The greeting does not look at the waitlist, so the orders matter from the first request on.
theorem attend_reordered (iteration also : Iteration) (setup : Setup) (source : Source)
    (clear : source.Faultless) (sink : Sink) (free : sink.Free) (journal : Journal)
    (room : journal.file.room = none) :
    Exchange.Reordered (greeted setup source sink journal).desk
      (attendIn iteration setup source sink journal) (attendIn also setup source sink journal) := by
  have whole (order : Iteration) : attendIn order setup source sink journal =
      (greeted setup source sink journal).andThen (Exchange.converseIn order) := rfl
  rw [whole, whole, Ending.andThen, Ending.andThen]
  cases greets : (greeted setup source sink journal).failure? with
  | none =>
      obtain ⟨_, unhindered, fresh, _⟩ :=
        greeted_fresh setup source sink journal clear free room greets
      exact Exchange.converseIn_reordered iteration also _ _ unhindered
        (fresh ▸ .fresh setup.offered setup.delaysAll)
  | some failure => exact Exchange.reordered_refl _ _ _

end Service

end ContentFilter
