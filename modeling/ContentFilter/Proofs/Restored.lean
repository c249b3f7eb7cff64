import ContentFilter.Proofs.Conversation

/-!
Content that is cleaned and then smudged again. A request that neither a rule nor a ticket has a
say in is answered with its own content, changed, and remembers nothing: `turn_plain`. The change
undoes itself, so whoever reads the content of one reply and sends it back with the other command
reads in the second reply what went into the first request, whatever the pieces were.
-/

namespace ContentFilter

namespace Memory

/-- Nothing but the capability decides a request with `command` for `pathname`. -/
structure Plain (memory : Memory) (command : Command) (pathname : String) : Prop where
  supported : memory.supports command = true
  running : memory.aborted command = false
  unreserved : Reserved.fileRule? command pathname = none
  idle : ∀ ticket, memory.waitlist.find? pathname = some ticket → ticket.stage = .idle

variable (memory : Memory) (request : Request)

theorem output?_plain (plain : memory.Plain request.command request.pathname) :
    memory.output? request = some (Rotation.rotate request.payload) := by
  have unkept : memory.kept? request.pathname = none := by
    unfold kept?
    cases found : memory.waitlist.find? request.pathname with
    | none => rfl
    | some ticket =>
        have stage := plain.idle ticket found
        simp only [Option.bind_some, stage, Stage.output?]
  simp only [output?, unkept, plain.supported, ↓reduceIte]

theorem isAwaited_plain (plain : memory.Plain request.command request.pathname) :
    memory.isAwaited request.pathname = false := by
  unfold isAwaited
  cases found : memory.waitlist.find? request.pathname with
  | none => rfl
  | some ticket =>
      have stage := plain.idle ticket found
      simp only [stage]
      rfl

theorem replyTo_plain (plain : memory.Plain request.command request.pathname) :
    memory.replyTo request = .answered (.content (Rotation.rotate request.payload)) := by
  have rule : memory.rule? request.command request.pathname = none := by
    simp only [rule?, plain.running, plain.unreserved, Bool.false_eq_true, ↓reduceIte]
  have unforced := memory.answer?_unforced request (by simp [rule])
  simp only [output?_plain memory request plain, isAwaited_plain memory request plain, rule]
    at unforced
  rw [replyTo_eq, unforced]
  simp

theorem turn_plain (call : FileCall) (plain : memory.Plain call.command call.pathname)
    (prompt : call.mayDelay = false) :
    memory.turn (.file call) =
      ⟨.file call, .answered (.content (Rotation.rotate call.payload)), memory⟩ := by
  have unchanged : memory.allowing call = memory := by
    simp only [allowing, prompt, Bool.false_eq_true, ↓reduceIte]
  have reply := memory.replyTo_plain call.request plain
  simp only [turn, unchanged, reply, settle, FileCall.request_payload]

end Memory

namespace Exchange

/-! ### A reply as the driver reads it -/

/-- A driver that reads `answer` finds success and then `content`, and nothing behind the answer
is touched. -/
def Fetches (answer content : Bytes) : Prop :=
  ∀ (source : Source) (tail : Bytes), source.Faultless → source.bytes = answer ++ tail →
    ∃ first second third rest,
      source.line = (.ok (some (statusLine .success)), first) ∧
      first.line = (.ok none, second) ∧
      second.content = (.ok content, third) ∧
      third.line = (.ok none, rest) ∧ rest.bytes = tail

theorem fetches_content (output : Bytes) :
    Fetches (Packet.encodeAll (Reply.answered (.content output)).packets) output := by
  intro source tail clear sent
  have legal : ∀ packet ∈ (Reply.answered (.content output)).packets, packet.Legal := by
    intro packet member
    simp only [Reply.packets, Packet.ofStatus, List.mem_append, List.mem_cons, List.mem_map,
      List.not_mem_nil, or_false] at member
    rcases member with ((rfl | rfl) | ⟨payload, cut, rfl⟩) | rfl | rfl
    · exact statusLine_fits .success
    · trivial
    · exact (Packet.mem_cut_length output payload cut).2
    · trivial
    · trivial
  obtain ⟨rest, read, _, left⟩ := Source.yields_encodeAll _ legal tail source clear sent
  have parts : (Reply.answered (.content output)).packets =
      Packet.say (statusLine .success) :: .flush ::
        (((Packet.cut output).map .data ++ [.flush]) ++ [.flush]) := by
    simp [Reply.packets, Packet.ofStatus]
  rw [parts] at read
  cases read with
  | @more _ first _ _ _ status read =>
  cases read with
  | @more _ second _ _ _ closed read =>
  obtain ⟨third, collected, ending⟩ := (Source.yields_append_iff _ _ _ _).mp read
  cases ending with
  | more ended done =>
  cases done
  refine ⟨first, second, third, rest, ?_, ?_, ?_, ?_, left⟩
  · have carried : (Packet.say (statusLine .success)).line? =
        .ok (some (statusLine .success)) := by decide
    rw [source.line_packet first _ status, carried]
    rfl
  · exact first.line_packet second .flush closed
  · have whole := second.content_yields (Packet.cut output) third collected
    rwa [Packet.cut_flatten] at whole
  · exact third.line_packet rest .flush ended

theorem fetches_unique (answer one other : Bytes) (fetches : Fetches answer one)
    (also : Fetches answer other) : one = other := by
  obtain ⟨_, _, _, _, status, closed, content, _⟩ :=
    fetches [.bytes answer] [] (by simp [Source.Faultless]) (by simp [Source.bytes])
  obtain ⟨_, _, _, _, status', closed', content', _⟩ :=
    also [.bytes answer] [] (by simp [Source.Faultless]) (by simp [Source.bytes])
  rw [status] at status'
  cases status'
  rw [closed] at closed'
  cases closed'
  rw [content] at content'
  cases content'
  rfl

/-! ### There and back -/

/-- A run that waits for a command at `desk` sends `answer` and waits for the next one at `after`,
where `rest` is still to be read. All that is remembered has stayed. -/
structure Serves (source : Source) (desk : Desk) (answer : Bytes) (rest : Source) (after : Desk) :
    Prop where
  onward : converse source desk = converse rest after
  sent : after.sink.outlet.contents = desk.sink.outlet.contents ++ answer
  remembered : after.memory = desk.memory
  free : after.Free

theorem serves_plain (call : FileCall) (packets : List Packet)
    (spelled : (Call.file call).Spelled packets) (source rest : Source)
    (read : source.Yields packets rest) (desk : Desk) (free : desk.Free)
    (plain : desk.memory.Plain call.command call.pathname) (prompt : call.mayDelay = false) :
    ∃ after answer, Serves source desk answer rest after ∧
      Fetches answer (Rotation.rotate call.payload) := by
  obtain ⟨after, moved, onward⟩ :=
    converse_file call packets spelled source rest read desk free
  have turn := desk.memory.turn_plain call plain prompt
  rw [turn] at moved onward
  refine ⟨after, _, ?_, fetches_content (Rotation.rotate call.payload)⟩
  exact ⟨onward, moved.sent, moved.remembered, moved.free⟩

/-- Whatever a clean request is made of, a driver that reads the content of its reply and sends
that in a smudge request, in any pieces, reads the content of the clean request in the second
reply. Nothing is remembered of either, so the same holds of whatever comes next. -/
theorem clean_smudge_restores (desk : Desk) (free : desk.Free) (there : FileCall)
    (cleans : there.command = .clean) (prompt : there.mayDelay = false)
    (plainClean : desk.memory.Plain .clean there.pathname)
    (plainSmudge : desk.memory.Plain .smudge there.pathname) (packets : List Packet)
    (spelled : (Call.file there).Spelled packets) (source rest : Source)
    (read : source.Yields packets rest) :
    ∃ middle answer, Serves source desk answer rest middle ∧
      Fetches answer (Rotation.rotate there.payload) ∧
      ∀ back : FileCall, back.command = .smudge → back.pathname = there.pathname →
        back.mayDelay = false → Fetches answer back.payload →
          ∀ others left, (Call.file back).Spelled others → rest.Yields others left →
            ∃ after reply, Serves rest middle reply left after ∧ Fetches reply there.payload := by
  rw [← cleans] at plainClean
  obtain ⟨middle, answer, served, fetches⟩ :=
    serves_plain there packets spelled source rest read desk free plainClean prompt
  refine ⟨middle, answer, served, fetches, ?_⟩
  intro back smudges same prompt' sends others left spelled' read'
  have payload : back.payload = Rotation.rotate there.payload :=
    fetches_unique answer _ _ sends fetches
  rw [← served.remembered, ← smudges, ← same] at plainSmudge
  obtain ⟨after, reply, replied, restores⟩ :=
    serves_plain back others spelled' rest left read' middle served.free plainSmudge prompt'
  rw [payload, Rotation.rotate_rotate] at restores
  exact ⟨after, reply, replied, restores⟩

-- The second request cuts the content elsewhere, and a piece of it is empty.
theorem clean_smudge_restores_pieces :
    let memory := Memory.fresh [⟨"clean"⟩, ⟨"smudge"⟩] false
    let source := Source.sending [.file strayClean, .file returningSmudge]
    ∃ middle answer rest after reply left, Serves source (.opened memory) answer rest middle ∧
      Fetches answer (Text.bytes "klm") ∧ Serves rest middle reply left after ∧
      Fetches reply (Text.bytes "xyz") := by
  intro memory source
  have unasked : ∀ ticket, memory.waitlist.find? strayClean.pathname = some ticket →
      ticket.stage = .idle := by
    intro ticket found
    have seeded : memory.waitlist.find? strayClean.pathname = some ⟨2, .idle⟩ := by decide
    rw [seeded] at found
    cases found
    rfl
  have brings : source.Brings [.file strayClean, .file returningSmudge] :=
    Source.brings_sending _ (by decide)
  cases brings with
  | @call _ rest _ packets _ spelled read brings =>
  cases brings with
  | @call _ left _ others _ spelled' read' _ =>
  obtain ⟨middle, answer, served, fetches, returns⟩ :=
    clean_smudge_restores (.opened memory) (Desk.free_opened memory) strayClean (by decide)
      (by decide) ⟨by decide, by decide, by decide, unasked⟩
      ⟨by decide, by decide, by decide, unasked⟩ packets spelled source rest read
  have same : returningSmudge.payload = Rotation.rotate strayClean.payload := by decide
  obtain ⟨after, reply, replied, restored⟩ :=
    returns returningSmudge (by decide) (by decide) (by decide) (same ▸ fetches) others left
      spelled' read'
  have sent : Rotation.rotate strayClean.payload = Text.bytes "klm" := by decide
  have whole : strayClean.payload = Text.bytes "xyz" := by decide
  rw [sent] at fetches
  rw [whole] at restored
  exact ⟨middle, answer, rest, after, reply, left, served, fetches, replied, restored⟩

end Exchange

end ContentFilter
