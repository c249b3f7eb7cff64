import ContentFilter.Proofs.Iterated
import ContentFilter.Proofs.Reached
import Mathlib.Data.List.Forall2

/-!
The exchange on the wire against the exchange turn by turn. A driver that sends complete requests,
in whatever spelling and pieces, sees exactly the turns. The steps are taken by a run that goes
through the waitlist in any order: `stirring_list` and `stirring_file` say so of one call, from its
first packet to the end of the reply, and `stirring_brings` of a whole session. A name with
`converse_` in the place of `stirring_` says what it comes to in the usual order.
-/

namespace ContentFilter

namespace FileCall

/-- `packets` are a request up to the details it has so far. -/
inductive Opened (call : FileCall) : List Packet → Prop
  | question {command placing : Packet} {details : List Packet}
      (named : command.Carries ("command=" ++ call.command.name))
      (placed : placing.Carries (Exchange.pathnameLine call.pathname))
      (detailed : List.Forall₂ Packet.Carries details call.details) :
      Opened call (command :: placing :: details)

/-- The call with one more detail. -/
def further (call : FileCall) (line : String) (known : Exchange.isDetail line = true) : FileCall :=
  { call with
    details := call.details ++ [line]
    known := List.forall_mem_append.mpr ⟨call.known, List.forall_mem_singleton.mpr known⟩ }

/-- The call with no content yet. -/
def silent (call : FileCall) : FileCall := { call with pieces := [] }

/-- The call with one more piece of content. -/
def longer (call : FileCall) (piece : Bytes) : FileCall :=
  { call with pieces := call.pieces ++ [piece] }

theorem opened_further (call : FileCall) (packets : List Packet) (opened : call.Opened packets)
    (line : String) (known : Exchange.isDetail line = true) (packet : Packet)
    (carried : packet.Carries line) : (call.further line known).Opened (packets ++ [packet]) := by
  cases opened with
  | question named placed detailed =>
      exact .question named placed (List.rel_append detailed (.cons carried .nil))

theorem mayDelay_further (call : FileCall) (line : String)
    (known : Exchange.isDetail line = true) :
    (call.further line known).mayDelay =
      (call.mayDelay || decide (line = Exchange.mayDelayLine)) := by
  simp [further, mayDelay, eq_comm, Bool.decide_or]

theorem opened_silent (call : FileCall) (packets : List Packet) (opened : call.Opened packets) :
    call.silent.Opened packets := by
  cases opened with
  | question named placed detailed => exact .question named placed detailed

theorem opened_longer (call : FileCall) (packets : List Packet) (opened : call.Opened packets)
    (piece : Bytes) : (call.longer piece).Opened packets := by
  cases opened with
  | question named placed detailed => exact .question named placed detailed

theorem payload_longer (call : FileCall) (piece : Bytes) :
    (call.longer piece).payload.toArray = call.payload.toArray ++ piece := by
  apply Array.toList_inj.mp
  simp [longer, payload]

end FileCall

namespace Call

/-- `packets` spell the call; each line may end with a newline or not. -/
inductive Spelled : Call → List Packet → Prop
  | list {command : Packet}
      (named : command.Carries ("command=" ++ Command.listAvailable.name)) :
      Spelled .list [command, .flush]
  | file {call : FileCall} {command pathname : Packet} {details : List Packet}
      (named : command.Carries ("command=" ++ call.command.name))
      (placed : pathname.Carries (Exchange.pathnameLine call.pathname))
      (detailed : List.Forall₂ Packet.Carries details call.details) :
      Spelled (.file call)
        (command :: pathname :: (details ++ .flush :: (call.pieces.map .data ++ [.flush])))

/-- The usual spelling, every line with a newline. -/
def packets : Call → List Packet
  | .list => [.ofLine ("command=" ++ Command.listAvailable.name), .flush]
  | .file call =>
      .ofLine ("command=" ++ call.command.name)
        :: .ofLine (Exchange.pathnameLine call.pathname)
        :: (call.details.map .ofLine ++ .flush :: (call.pieces.map .data ++ [.flush]))

theorem spelled_packets (call : Call) : call.Spelled call.packets := by
  cases call with
  | list => exact .list (Packet.carries_ofLine _)
  | file call =>
      refine .file (Packet.carries_ofLine _) (Packet.carries_ofLine _) ?_
      rw [List.forall₂_map_left_iff]
      exact List.forall₂_same.mpr fun line _ => Packet.carries_ofLine line

end Call

namespace Source

/-- The source holds these calls, in some spelling, and then the driver closes the channel. -/
inductive Brings : Source → List Call → Prop
  | closed {source : Source} (ended : source.Closed) : Brings source []
  | call {source rest : Source} {call : Call} {packets : List Packet} {calls : List Call}
      (spelled : call.Spelled packets) (read : source.Yields packets rest)
      (later : Brings rest calls) : Brings source (call :: calls)

theorem brings_encodeAll (calls : List Call)
    (fits : ∀ call ∈ calls, ∀ packet ∈ call.packets, packet.Legal) (source : Source)
    (clear : source.Faultless)
    (sent : source.bytes = Packet.encodeAll (calls.flatMap Call.packets)) :
    source.Brings calls := by
  induction calls generalizing source with
  | nil => exact .closed (closed_of_bytes source clear sent)
  | cons call calls ih =>
      rw [List.flatMap_cons, Packet.encodeAll_append] at sent
      obtain ⟨rest, read, restClear, left⟩ :=
        yields_encodeAll call.packets (fits call List.mem_cons_self) _ source clear sent
      have later := ih (fun other member => fits other (List.mem_cons_of_mem call member)) rest
        restClear left
      exact .call call.spelled_packets read later

/-- The calls in the usual spelling, in one piece. -/
def sending (calls : List Call) : Source :=
  [.bytes (Packet.encodeAll (calls.flatMap Call.packets))]

theorem brings_sending (calls : List Call)
    (fits : ∀ call ∈ calls, ∀ packet ∈ call.packets, packet.Legal) :
    (sending calls).Brings calls :=
  brings_encodeAll calls fits (sending calls) (by simp [Faultless, sending])
    (by simp [bytes, sending])

end Source

namespace Memory

/-! ### What any order keeps -/

theorem announceable_perm (memory after : Memory) (known : memory.Announceable)
    (perm : after.waitlist.pathnames.Perm memory.waitlist.pathnames) : after.Announceable :=
  fun pathname member => known pathname (perm.mem_iff.mp member)

variable (iteration : Iteration) (time : Nat)

theorem announceable_stirred (memory : Memory) (known : memory.Announceable) :
    (memory.stirred iteration time).Announceable :=
  memory.announceable_perm _ known ((iteration.perm time memory.waitlist.entries).map Prod.fst)

theorem announceable_stirredFor (memory : Memory) (known : memory.Announceable) (count : Nat) :
    (memory.stirredFor iteration time count).Announceable := by
  induction count generalizing memory time with
  | zero => exact known
  | succ count ih =>
      exact ih (time + 1) (memory.stirred iteration time)
        (memory.announceable_stirred iteration time known)

theorem announceable_turnIn (memory : Memory) (call : Call) (known : memory.Announceable)
    (fits : ∀ asked, call = .file asked → ContentFilter.Announceable asked.pathname) :
    (memory.turnIn iteration time call).memory.Announceable := by
  cases call with
  | list =>
      exact announceable_turn _ .list (memory.announceable_stirredFor iteration time known 2) fits
  | file asked =>
      have before := memory.announceable_stirredFor iteration time known (asked.details.length + 3)
      have allowed := Waitlist.announceable_grown _ _ asked.pathname before (fits asked rfl)
        ((pathnames_allowing _ asked).imp_right And.right)
      have heard := announceable_stirredFor iteration (time + (asked.details.length + 3)) _ allowed
        (asked.pieces.length + 1)
      exact announceable_perm _ _ heard (.of_eq (pathnames_settle _ _ _))

end Memory

namespace Desk

/-- A desk with an unlimited channel and journal, and nothing on them. -/
def opened (memory : Memory) : Desk := ⟨memory, {}, { path := "filter.log" }⟩

theorem free_opened (memory : Memory) : (opened memory).Free := ⟨⟨rfl, rfl⟩, rfl⟩

end Desk

namespace Exchange

/-! ### Hearing a request -/

theorem field_command (packet : Packet) (command : Command)
    (named : packet.Carries ("command=" ++ command.name)) :
    packet.field "command" = .ok command.name := by
  have spelled : command.name ≠ "" := by cases command <;> decide
  exact (Packet.field_eq_ok_iff packet "command" command.name).mpr ⟨spelled, named⟩

theorem hearCommand_carried (packet : Packet) (command : Command)
    (named : packet.Carries ("command=" ++ command.name)) :
    hearCommand packet =
      { effects := [.note (.heard command)]
        next := .await (if command = .listAvailable then .listEnd else .pathname command) } := by
  have known : Command.ofName? command.name = some command :=
    (Command.ofName?_eq_some_iff command.name command).mpr rfl
  simp only [hearCommand, field_command packet command named, known]

theorem hearPathname_carried (command : Command) (packet : Packet) (pathname : String)
    (named : pathname ≠ "") (placed : packet.Carries (pathnameLine pathname)) :
    hearPathname command packet =
      { effects := [.note (.field pathname)]
        next := .await (.details command pathname false) } := by
  have found : packet.field "pathname" = .ok pathname :=
    (Packet.field_eq_ok_iff packet "pathname" pathname).mpr ⟨named, placed⟩
  simp only [hearPathname, found]

theorem isNoted_mayDelayLine : isNoted mayDelayLine = false := by decide

variable (iteration : Iteration)

/-- One packet is read and reacted to with the entries in their new order. -/
theorem stirring_step (time : Nat) (phase : Phase) (source rest : Source) (desk : Desk)
    (packet : Packet) (effects : List Effect) (next : Next Phase)
    (read : source.next = (.ok (some packet), rest))
    (heard : hear (desk.memory.stirred iteration time) phase packet = ⟨effects, next⟩)
    (free : desk.Free)
    (fits : ∀ payload, .send payload ∈ effects → payload.length ≤ Packet.maxPayload) :
    ∃ after, desk.Moves (effects.flatMap Effect.packets) (effects.flatMap Effect.remarks)
        (Effect.recallAll (desk.memory.stirred iteration time) effects) after ∧
      (stirring iteration).converse (time, phase) source desk =
        (stirring iteration).proceed (next.timed (time + 1)) rest after := by
  have stirred := stirring_hear iteration desk.memory time phase packet
  rw [heard] at stirred
  exact (stirring iteration).converse_step (time, phase) source rest desk packet _ _ read stirred
    free (by simpa using fits)

theorem stirring_noting (time : Nat) (phase : Phase) (source rest : Source) (desk : Desk)
    (packet : Packet) (remarks : List Remark) (next : Next Phase)
    (read : source.next = (.ok (some packet), rest))
    (heard : hear (desk.memory.stirred iteration time) phase packet = ⟨remarks.map .note, next⟩)
    (free : desk.Free) :
    ∃ after, desk.Moves [] remarks (desk.memory.stirred iteration time) after ∧
      (stirring iteration).converse (time, phase) source desk =
        (stirring iteration).proceed (next.timed (time + 1)) rest after := by
  obtain ⟨after, moved, step⟩ := stirring_step iteration time phase source rest desk packet _ next
    read heard free (by simp)
  rw [Effect.packets_notes, Effect.remarks_notes, Effect.recallAll_notes] at moved
  exact ⟨after, moved, step⟩

variable (command : Command) (pathname : String)

theorem hearDetail_allowing (memory : Memory) (mayDelay : Bool) (packet : Packet)
    (carried : packet.Carries mayDelayLine) :
    hearDetail memory command pathname mayDelay packet =
      { next := .await (.details command pathname true) } := by
  have line : packet.line? = .ok (some mayDelayLine) := carried
  simp only [hearDetail, line, ↓reduceIte]

theorem hearDetail_noted (memory : Memory) (mayDelay : Bool) (packet : Packet) (line : String)
    (carried : packet.Carries line) (noted : isNoted line = true) :
    hearDetail memory command pathname mayDelay packet =
      { effects := [.note (.field line)]
        next := .await (.details command pathname mayDelay) } := by
  have found : packet.line? = .ok (some line) := carried
  have other : line ≠ mayDelayLine := by
    rintro rfl
    rw [isNoted_mayDelayLine] at noted
    cases noted
  simp only [hearDetail, found, other, noted, ↓reduceIte]

theorem stirring_details (lines : List String) (packets : List Packet) (mayDelay : Bool)
    (known : ∀ line ∈ lines, isDetail line = true)
    (detailed : List.Forall₂ Packet.Carries packets lines) (time : Nat) (source rest : Source)
    (read : source.Yields packets rest) (desk : Desk) (free : desk.Free) :
    ∃ after, desk.Moves [] ((lines.filter isNoted).map .field)
        (desk.memory.stirredFor iteration time lines.length) after ∧
      (stirring iteration).converse (time, .details command pathname mayDelay) source desk =
        (stirring iteration).converse (time + lines.length,
          .details command pathname (mayDelay || decide (mayDelayLine ∈ lines))) rest after := by
  induction detailed generalizing mayDelay time source desk with
  | nil =>
      cases read
      exact ⟨desk, desk.moves_refl free, by simp⟩
  | @cons packet line packets lines carried _ ih =>
      cases read with
      | @more _ middle _ _ _ head later =>
          have knownLater : ∀ other ∈ lines, isDetail other = true :=
            fun other member => known other (List.mem_cons_of_mem line member)
          have onward : time + 1 + lines.length = time + (line :: lines).length := by
            rw [List.length_cons]
            omega
          by_cases delay : line = mayDelayLine
          · subst delay
            obtain ⟨next, moved, step⟩ := stirring_noting iteration time
              (.details command pathname mayDelay) source middle desk packet [] _ head
              (hearDetail_allowing command pathname _ mayDelay packet carried) free
            obtain ⟨after, further, steps⟩ :=
              ih true knownLater (time + 1) middle later next moved.free
            rw [moved.remembered] at further
            refine ⟨after, ?_, ?_⟩
            · simpa [isNoted_mayDelayLine, Memory.stirredFor] using moved.trans further
            · rw [step, ← onward]
              simpa [Dialogue.proceed, Next.timed] using steps
          · have noted : isNoted line = true := by
              simpa [isDetail, delay] using known line List.mem_cons_self
            obtain ⟨next, moved, step⟩ := stirring_noting iteration time
              (.details command pathname mayDelay) source middle desk packet [.field line] _ head
              (hearDetail_noted command pathname _ mayDelay packet line carried noted) free
            obtain ⟨after, further, steps⟩ :=
              ih mayDelay knownLater (time + 1) middle later next moved.free
            rw [moved.remembered] at further
            refine ⟨after, ?_, ?_⟩
            · simpa [noted, Memory.stirredFor] using moved.trans further
            · rw [step, ← onward]
              simpa [Dialogue.proceed, Next.timed, Ne.symm delay] using steps

-- Allowing a delay never fails, whether the pathname is on the waitlist or not.
theorem stirring_detailsEnd (mayDelay : Bool) (time : Nat) (source rest : Source)
    (read : source.next = (.ok (some .flush), rest)) (desk : Desk) (free : desk.Free) :
    ∃ after, desk.Moves [] []
        (if mayDelay then (desk.memory.stirred iteration time).permit pathname
          else desk.memory.stirred iteration time) after ∧
      (stirring iteration).converse (time, .details command pathname mayDelay) source desk =
        (stirring iteration).converse (time + 1, .content command pathname #[]) rest after := by
  cases mayDelay with
  | false =>
      exact stirring_noting iteration time (.details command pathname false) source rest desk
        .flush [] (.await (.content command pathname #[])) read rfl free
  | true =>
      have heard : hear (desk.memory.stirred iteration time) (.details command pathname true)
          .flush = ⟨[.remember ((desk.memory.stirred iteration time).permit pathname)],
            .await (.content command pathname #[])⟩ := by
        simp only [hear, hearDetail, Packet.line?, ↓reduceIte, Memory.allowDelay_eq_permit]
      exact stirring_step iteration time (.details command pathname true) source rest desk .flush
        _ _ read heard free (by simp)

theorem stirring_content (pieces : List Bytes) (received : Array UInt8) (time : Nat)
    (source rest : Source) (read : source.Yields (pieces.map .data) rest) (desk : Desk) :
    (stirring iteration).converse (time, .content command pathname received) source desk =
      (stirring iteration).converse
        (time + pieces.length, .content command pathname (received ++ pieces.flatten)) rest
        { desk with memory := desk.memory.stirredFor iteration time pieces.length } := by
  induction pieces generalizing received time source desk with
  | nil =>
      cases read
      simp [Memory.stirredFor]
  | cons piece pieces ih =>
      cases read with
      | more head later =>
          rw [Dialogue.converse_packet _ _ _ _ desk _ head]
          have joined := ih (received ++ piece) (time + 1) _ later
            { desk with memory := desk.memory.stirred iteration time }
          have parts : received ++ (piece :: pieces).flatten =
              received ++ piece ++ pieces.flatten := by
            apply Array.toList_inj.mp
            simp
          have onward : time + 1 + pieces.length = time + (piece :: pieces).length := by
            rw [List.length_cons]
            omega
          rw [parts, ← onward]
          exact joined

theorem converse_content (pieces : List Bytes) (received : Array UInt8) (source rest : Source)
    (read : source.Yields (pieces.map .data) rest) (desk : Desk) :
    dialogue.converse (.content command pathname received) source desk =
      dialogue.converse (.content command pathname (received ++ pieces.flatten)) rest desk := by
  have heard := stirring_content .entered command pathname pieces received 0 source rest read desk
  simpa only [stirring_entered, Memory.stirredFor_entered] using heard

/-! ### Replying -/

theorem statusLine_fits (status : Status) :
    (Text.bytes (statusLine status)).length ≤ Packet.maxPayload := by
  cases status <;> decide

theorem sayStatus_packets (status : Status) :
    (sayStatus status).flatMap Effect.packets = Packet.ofStatus status := rfl

theorem sayStatus_fits (status : Status) (payload : Bytes)
    (member : .send payload ∈ sayStatus status) : payload.length ≤ Packet.maxPayload := by
  simp only [sayStatus, Effect.say, List.mem_cons, Effect.send.injEq, reduceCtorEq,
    List.not_mem_nil, or_false] at member
  rw [member]
  exact statusLine_fits status

theorem contentReply_packets (output : Bytes) :
    (contentReply output).flatMap Effect.packets =
      (Packet.cut output).map .data ++ [.flush, .flush] := by
  simp only [contentReply, List.flatMap_append, Effect.packets_sends]
  rfl

theorem contentReply_remarks (output : Bytes) :
    (contentReply output).flatMap Effect.remarks =
      [.sending output.length, .sent (Packet.cut output).length] := by
  simp only [contentReply, List.flatMap_append, Effect.remarks_sends]
  rfl

theorem contentReply_recall (memory : Memory) (output : Bytes) :
    Effect.recallAll memory (contentReply output) = memory := by
  simp only [contentReply, Effect.recallAll_append, Effect.recallAll_sends]
  rfl

theorem fileReply_packets (memory : Memory) (request : Request) (answer : Answer) :
    (fileReply memory request answer).flatMap Effect.packets =
      (Reply.answered answer).packets := by
  cases answer with
  | content output =>
      simp only [fileReply, List.flatMap_append, sayStatus_packets, contentReply_packets,
        Reply.packets, List.append_assoc]
  | aborted | refused | delayed | brokenOff => rfl

theorem fileReply_remarks (memory : Memory) (request : Request) (answer : Answer) :
    (fileReply memory request answer).flatMap Effect.remarks =
      (Reply.answered answer).remarks := by
  cases answer with
  | content output =>
      rw [fileReply, List.flatMap_append, contentReply_remarks]
      rfl
  | aborted | refused | delayed | brokenOff => rfl

theorem fileReply_recall (memory : Memory) (request : Request) (answer : Answer) :
    Effect.recallAll memory (fileReply memory request answer) = memory.after request answer := by
  cases answer with
  | content output => exact contentReply_recall memory output
  | aborted | refused | delayed | brokenOff => rfl

theorem fileReply_fits (memory : Memory) (request : Request) (answer : Answer) (payload : Bytes)
    (member : .send payload ∈ fileReply memory request answer) :
    payload.length ≤ Packet.maxPayload := by
  cases answer with
  | content output =>
      simp only [fileReply, List.mem_append] at member
      rcases member with status | content
      · exact sayStatus_fits .success payload status
      · simp [contentReply] at content
        exact (Packet.mem_cut_length output payload content).2
  | brokenOff => exact sayStatus_fits .success payload (by simpa [fileReply] using member)
  | aborted => exact sayStatus_fits .abort payload (by simpa [fileReply] using member)
  | refused => exact sayStatus_fits .error payload (by simpa [fileReply] using member)
  | delayed output =>
      exact sayStatus_fits .delayed payload (by simpa [fileReply] using member)

/-- Where the exchange stands once a reply has been sent. -/
def resume (failure? : Option Failure) (source : Source) (desk : Desk) : Ending :=
  match failure? with
  | none => converse source desk
  | some failure => ⟨some failure, source, desk⟩

def resumeIn (time : Nat) (failure? : Option Failure) (source : Source) (desk : Desk) : Ending :=
  match failure? with
  | none => (stirring iteration).converse (time, .command) source desk
  | some failure => ⟨some failure, source, desk⟩

theorem resumeIn_entered (time : Nat) (failure? : Option Failure) (source : Source) (desk : Desk) :
    resumeIn .entered time failure? source desk = resume failure? source desk := by
  cases failure? with
  | none => exact stirring_entered time .command source desk
  | some failure => rfl

theorem stirring_conclude (received : Array UInt8) (time : Nat) (source rest : Source)
    (read : source.next = (.ok (some .flush), rest)) (desk : Desk) (free : desk.Free)
    (request : Request) (complete : request = ⟨command, pathname, received.toList⟩)
    (reply : Reply) (decided : (desk.memory.stirred iteration time).replyTo request = reply) :
    ∃ after, desk.Moves reply.packets (.received request.payload.length :: reply.remarks)
        ((desk.memory.stirred iteration time).settle request reply) after ∧
      (stirring iteration).converse (time, .content command pathname received) source desk =
        resumeIn iteration (time + 1) (reply.failure? command) rest after := by
  subst complete
  rw [Memory.replyTo_eq] at decided
  cases found : (desk.memory.stirred iteration time).answer?
      ⟨command, pathname, received.toList⟩ with
  | none =>
      rw [found] at decided
      subst decided
      have heard : hear (desk.memory.stirred iteration time)
          (.content command pathname received) .flush =
            ⟨[.received received.toList.length].map .note, .fail (.unsupported command.name)⟩ := by
        simp only [hear, hearContent, conclude, found, List.map_singleton]
      exact stirring_noting iteration time _ source rest desk .flush _ _ read heard free
  | some answer =>
      rw [found] at decided
      subst decided
      have heard : hear (desk.memory.stirred iteration time)
          (.content command pathname received) .flush =
            ⟨.note (.received received.toList.length)
                :: fileReply (desk.memory.stirred iteration time)
                  ⟨command, pathname, received.toList⟩ answer,
              match (Reply.answered answer).failure? command with
              | none => .await .command
              | some failure => .fail failure⟩ := by
        simp only [hear, hearContent, conclude, found]
        cases answer <;> rfl
      obtain ⟨after, moved, step⟩ := stirring_step iteration time _ source rest desk .flush _ _
        read heard free (fun payload member => fileReply_fits _ _ answer payload (by
          simpa using member))
      refine ⟨after, ?_, ?_⟩
      · rw [Memory.settle_answered, ← fileReply_recall,
          ← fileReply_packets (desk.memory.stirred iteration time),
          ← fileReply_remarks (desk.memory.stirred iteration time)]
        exact moved
      · rw [step]
        cases answer <;> rfl

theorem listReply_packets (memory : Memory) :
    (listReply memory).flatMap Effect.packets =
      (Reply.listed memory.waitlist.announcement).packets := by
  have lines : (memory.waitlist.announcement.announced.map fun pathname =>
        Effect.say (pathnameLine pathname)).flatMap Effect.packets =
      memory.waitlist.announcement.announced.map fun pathname =>
        Packet.say (pathnameLine pathname) := by
    rw [List.flatMap_map, List.map_eq_flatMap]
    rfl
  simp only [listReply, List.flatMap_append, List.flatMap_cons, lines, sayStatus_packets]
  rfl

theorem listReply_remarks (memory : Memory) :
    (listReply memory).flatMap Effect.remarks =
      (Reply.listed memory.waitlist.announcement).remarks := by
  have lines : (memory.waitlist.announcement.announced.map fun pathname =>
      Effect.say (pathnameLine pathname)).flatMap Effect.remarks = [] := by
    rw [List.flatMap_map]
    exact List.flatMap_eq_nil_iff.mpr fun _ _ => rfl
  simp only [listReply, List.flatMap_append, List.flatMap_cons, lines]
  rfl

theorem listReply_recall (memory : Memory) :
    Effect.recallAll memory (listReply memory) = memory.countDown := by
  have lines := Effect.recallAll_sends memory.countDown
    (memory.waitlist.announcement.announced.map fun pathname =>
      Text.bytes (pathnameLine pathname))
  rw [List.map_map] at lines
  simp only [listReply, Effect.recallAll_append]
  exact lines

theorem listReply_announced_fits (memory : Memory)
    (fits : ∀ pathname ∈ memory.waitlist.announcement.announced, Announceable pathname)
    (payload : Bytes) (member : .send payload ∈ listReply memory) :
    payload.length ≤ Packet.maxPayload := by
  simp only [listReply, List.mem_append, List.mem_cons, reduceCtorEq, false_or,
    List.not_mem_nil, or_false] at member
  rcases member with listed | status
  · obtain ⟨pathname, announced, same⟩ := List.mem_map.mp listed
    cases same
    exact fits pathname announced
  · exact sayStatus_fits .success payload status

theorem listReply_fits (memory : Memory) (known : memory.Announceable) (payload : Bytes)
    (member : .send payload ∈ listReply memory) : payload.length ≤ Packet.maxPayload :=
  listReply_announced_fits memory (Waitlist.announced_announceable memory.waitlist known) payload
    member

/-! ### One call, and a whole session -/

variable (iteration : Iteration) (time : Nat)

theorem stirring_list (packets : List Packet) (spelled : Call.list.Spelled packets)
    (source rest : Source) (read : source.Yields packets rest) (desk : Desk) (free : desk.Free)
    (known : desk.memory.Announceable) :
    ∃ after, desk.Moves (desk.memory.turnIn iteration time .list).reply.packets
        (desk.memory.turnIn iteration time .list).remarks
        (desk.memory.turnIn iteration time .list).memory after ∧
      (stirring iteration).converse (time, .command) source desk =
        (stirring iteration).converse (time + 2, .command) rest after := by
  cases spelled with
  | @list packet named =>
      obtain ⟨middle, first, second⟩ :=
        (Source.yields_append_iff source rest [packet] [.flush]).mp read
      cases first with
      | more head done =>
          cases done
          cases second with
          | more flush done =>
              cases done
              obtain ⟨heard, noted, step⟩ := stirring_noting iteration time .command source middle
                desk packet [.heard .listAvailable] _ head
                (hearCommand_carried packet .listAvailable named) free
              have still : (heard.memory.stirred iteration (time + 1)).Announceable := by
                rw [noted.remembered]
                exact Memory.announceable_stirredFor iteration time _ known 2
              obtain ⟨after, replied, reply⟩ := stirring_step iteration (time + 1) .listEnd middle
                rest heard .flush (listReply (heard.memory.stirred iteration (time + 1)))
                (.await .command) flush rfl noted.free (listReply_fits _ still)
              rw [listReply_packets, listReply_remarks, listReply_recall, noted.remembered]
                at replied
              exact ⟨after, noted.trans replied, step.trans reply⟩

-- As far as the details go, nothing has been decided yet.
theorem stirring_opened (call : FileCall) (packets : List Packet) (opened : call.Opened packets)
    (source rest : Source) (read : source.Yields packets rest) (desk : Desk) (free : desk.Free) :
    ∃ after, desk.Moves []
        ([.heard call.command, .field call.pathname]
          ++ (call.details.filter isNoted).map .field)
        (desk.memory.stirredFor iteration time (call.details.length + 2)) after ∧
      (stirring iteration).converse (time, .command) source desk =
        (stirring iteration).converse (time + (call.details.length + 2),
          .details call.command call.pathname call.mayDelay) rest after := by
  cases opened with
  | @question packet placing details named placed detailed =>
      cases read with
      | @more _ second _ _ _ readCommand read =>
      cases read with
      | @more _ third _ _ _ readPathname readDetails =>
      obtain ⟨heard, noted, toPathname⟩ := stirring_noting iteration time .command source second
        desk packet [.heard call.command] _ readCommand
        (hearCommand_carried packet call.command named) free
      simp only [call.forFile, ↓reduceIte] at toPathname
      obtain ⟨named, field, toDetails⟩ := stirring_noting iteration (time + 1)
        (.pathname call.command) second third heard placing [.field call.pathname] _ readPathname
        (hearPathname_carried call.command placing call.pathname call.named placed) noted.free
      obtain ⟨detailed, fields, toEnd⟩ := stirring_details iteration call.command call.pathname
        call.details details false call.known detailed (time + 1 + 1) third rest readDetails named
        field.free
      have onward : time + 1 + 1 + call.details.length = time + (call.details.length + 2) := by
        omega
      rw [Bool.false_or, onward] at toEnd
      rw [field.remembered, noted.remembered] at fields
      refine ⟨detailed, ?_, toPathname.trans (toDetails.trans toEnd)⟩
      simpa [Memory.stirredFor] using noted.trans (field.trans fields)

theorem converse_opened (call : FileCall) (packets : List Packet) (opened : call.Opened packets)
    (source rest : Source) (read : source.Yields packets rest) (desk : Desk) (free : desk.Free) :
    ∃ after, desk.Moves []
        ([.heard call.command, .field call.pathname]
          ++ (call.details.filter isNoted).map .field) desk.memory after ∧
      converse source desk =
        dialogue.converse (.details call.command call.pathname call.mayDelay) rest after := by
  have heard := stirring_opened .entered 0 call packets opened source rest read desk free
  simpa only [Memory.stirredFor_entered, stirring_entered, converse] using heard

-- Up to the flush that ends the details: the delay is allowed before any content is read.
theorem stirring_question (call : FileCall) (packets : List Packet) (opened : call.Opened packets)
    (source rest : Source) (read : source.Yields (packets ++ [.flush]) rest) (desk : Desk)
    (free : desk.Free) :
    ∃ after, desk.Moves []
        ([.heard call.command, .field call.pathname]
          ++ (call.details.filter isNoted).map .field)
        ((desk.memory.stirredFor iteration time (call.details.length + 3)).allowing call) after ∧
      (stirring iteration).converse (time, .command) source desk =
        (stirring iteration).converse (time + (call.details.length + 3),
          .content call.command call.pathname #[]) rest after := by
  obtain ⟨middle, readDetails, readFlush⟩ := (Source.yields_append_iff _ _ _ _).mp read
  cases readFlush with
  | more readFlush done =>
  cases done
  obtain ⟨detailed, fields, toFlush⟩ := stirring_opened iteration time call packets opened source
    middle readDetails desk free
  obtain ⟨after, allowed, toContent⟩ := stirring_detailsEnd iteration call.command call.pathname
    call.mayDelay (time + (call.details.length + 2)) middle rest readFlush detailed fields.free
  rw [fields.remembered, ← Memory.stirredFor_one, ← Memory.stirredFor_add] at allowed
  refine ⟨after, ?_, toFlush.trans toContent⟩
  simpa [Memory.allowing] using fields.trans allowed

theorem converse_question (call : FileCall) (packets : List Packet) (opened : call.Opened packets)
    (source rest : Source) (read : source.Yields (packets ++ [.flush]) rest) (desk : Desk)
    (free : desk.Free) :
    ∃ after, desk.Moves []
        ([.heard call.command, .field call.pathname]
          ++ (call.details.filter isNoted).map .field) (desk.memory.allowing call) after ∧
      converse source desk =
        dialogue.converse (.content call.command call.pathname #[]) rest after := by
  have heard := stirring_question .entered 0 call packets opened source rest read desk free
  simpa only [Memory.stirredFor_entered, stirring_entered, converse] using heard

theorem stirring_file (call : FileCall) (packets : List Packet)
    (spelled : (Call.file call).Spelled packets) (source rest : Source)
    (read : source.Yields packets rest) (desk : Desk) (free : desk.Free) :
    ∃ after, desk.Moves (desk.memory.turnIn iteration time (.file call)).reply.packets
        (desk.memory.turnIn iteration time (.file call)).remarks
        (desk.memory.turnIn iteration time (.file call)).memory after ∧
      (stirring iteration).converse (time, .command) source desk =
        resumeIn iteration (time + (Call.file call).size)
          (desk.memory.turnIn iteration time (.file call)).failure? rest after := by
  cases spelled with
  | @file _ packet placing details named placed detailed =>
      have parts : packet :: placing :: (details ++ .flush :: (call.pieces.map .data ++ [.flush])) =
          packet :: placing :: (details ++ [.flush]) ++ (call.pieces.map .data ++ [.flush]) := by
        simp
      rw [parts] at read
      obtain ⟨first, asked, answered⟩ := (Source.yields_append_iff _ _ _ _).mp read
      obtain ⟨second, content, ended⟩ := (Source.yields_append_iff _ _ _ _).mp answered
      cases ended with
      | more ended done =>
      cases done
      obtain ⟨middle, heard, toContent⟩ := stirring_question iteration time call _
        (.question named placed detailed) source first asked desk free
      have toEnd := stirring_content iteration call.command call.pathname call.pieces #[]
        (time + (call.details.length + 3)) first second content middle
      have reordered := middle.moves_remembering heard.free
        (middle.memory.stirredFor iteration (time + (call.details.length + 3)) call.pieces.length)
      rw [heard.remembered] at toEnd reordered
      have whole : call.request =
          ⟨call.command, call.pathname, ((#[] : Array UInt8) ++ call.pieces.flatten).toList⟩ := by
        rw [Array.toList_appendList]
        rfl
      obtain ⟨after, replied, reply⟩ := stirring_conclude iteration call.command call.pathname _
        (time + (call.details.length + 3) + call.pieces.length) second rest ended _
        reordered.free call.request whole _ rfl
      have onward : time + (call.details.length + 3) + call.pieces.length + 1 =
          time + (Call.file call).size := by
        simp only [Call.size]
        omega
      rw [← Memory.stirredFor_one, ← Memory.stirredFor_add] at replied reply
      rw [onward] at reply
      refine ⟨after, ?_, toContent.trans (toEnd.trans reply)⟩
      simpa [Turn.remarks, Call.remarks, Memory.turnIn] using heard.trans (reordered.trans replied)

theorem converse_file (call : FileCall) (packets : List Packet)
    (spelled : (Call.file call).Spelled packets) (source rest : Source)
    (read : source.Yields packets rest) (desk : Desk) (free : desk.Free) :
    ∃ after, desk.Moves (desk.memory.turn (.file call)).reply.packets
        (desk.memory.turn (.file call)).remarks (desk.memory.turn (.file call)).memory after ∧
      converse source desk = resume (desk.memory.turn (.file call)).failure? rest after := by
  have filed := stirring_file .entered 0 call packets spelled source rest read desk free
  simpa only [Memory.turnIn_entered, stirring_entered, resumeIn_entered, converse] using filed

theorem stirring_call (call : Call) (packets : List Packet) (spelled : call.Spelled packets)
    (source rest : Source) (read : source.Yields packets rest) (desk : Desk) (free : desk.Free)
    (known : desk.memory.Announceable) :
    ∃ after, desk.Moves (desk.memory.turnIn iteration time call).reply.packets
        (desk.memory.turnIn iteration time call).remarks
        (desk.memory.turnIn iteration time call).memory after ∧
      (stirring iteration).converse (time, .command) source desk =
        resumeIn iteration (time + call.size)
          (desk.memory.turnIn iteration time call).failure? rest after := by
  cases call with
  | list => exact stirring_list iteration time packets spelled source rest read desk free known
  | file call => exact stirring_file iteration time call packets spelled source rest read desk free

theorem converse_call (call : Call) (packets : List Packet) (spelled : call.Spelled packets)
    (source rest : Source) (read : source.Yields packets rest) (desk : Desk) (free : desk.Free)
    (known : desk.memory.Announceable) :
    ∃ after, desk.Moves (desk.memory.turn call).reply.packets (desk.memory.turn call).remarks
        (desk.memory.turn call).memory after ∧
      converse source desk = resume (desk.memory.turn call).failure? rest after := by
  have taken := stirring_call .entered 0 call packets spelled source rest read desk free known
  simpa only [Memory.turnIn_entered, stirring_entered, resumeIn_entered, converse] using taken

end Exchange

/-- What a run that started at `desk` and took `turns` has left behind: the replies on the channel,
the records in the journal, the memory of the last turn, and the failure that one of them ended
in. A journal without failure is closed with a remark of its own. -/
structure Ending.Tells (ending : Ending) (desk : Desk) (turns : List Turn) : Prop where
  moves : desk.Moves (turns.flatMap fun turn => turn.reply.packets)
    (turns.flatMap Turn.remarks ++ if ending.failure? = none then [.stopped] else [])
    (turns.foldl (fun _ turn => turn.memory) desk.memory) ending.desk
  failure : ending.failure? = turns.findSome? Turn.failure?

namespace Exchange

theorem stirring_closing (iteration : Iteration) (time : Nat) (source : Source)
    (ended : source.Closed) (desk : Desk) (free : desk.Free) :
    ((stirring iteration).converse (time, .command) source desk).Tells desk [] := by
  obtain ⟨rest, closed⟩ := ended
  obtain ⟨after, performed, moved⟩ := Effect.performAll_free [.note .stopped] desk free (by simp)
  have parted : (stirring iteration).converse (time, .command) source desk =
      ⟨none, rest, after⟩ := by
    rw [(stirring iteration).converse_closed (time, .command) source rest desk closed]
    simp only [Dialogue.part, stirring, hangUp, performed]
  rw [parted]
  exact ⟨moved, rfl⟩

theorem converse_closing (source : Source) (ended : source.Closed) (desk : Desk)
    (free : desk.Free) : (converse source desk).Tells desk [] := by
  rw [converse, ← stirring_entered 0]
  exact stirring_closing .entered 0 source ended desk free

theorem tells_cons (desk after : Desk) (turn : Turn) (turns : List Turn) (ending : Ending)
    (moved : desk.Moves turn.reply.packets turn.remarks turn.memory after)
    (goes : turn.failure? = none) (later : ending.Tells after turns) :
    ending.Tells desk (turn :: turns) where
  moves := by
    have whole := moved.trans later.moves
    rw [moved.remembered] at whole
    simpa only [List.flatMap_cons, List.foldl_cons, List.append_assoc] using whole
  failure := by rw [later.failure, List.findSome?_cons, goes]

theorem tells_last (desk after : Desk) (turn : Turn) (failure : Failure) (source : Source)
    (moved : desk.Moves turn.reply.packets turn.remarks turn.memory after)
    (fails : turn.failure? = some failure) :
    (⟨some failure, source, after⟩ : Ending).Tells desk [turn] where
  moves := by simpa using moved
  failure := by simp [fails]

theorem spelled_announceable (call : Call) (packets : List Packet)
    (spelled : call.Spelled packets) (legal : ∀ packet ∈ packets, packet.Legal) (asked : FileCall)
    (same : call = .file asked) : Announceable asked.pathname := by
  subst same
  cases spelled with
  | @file _ _ placing _ _ placed _ =>
      exact Packet.carries_fits placing _ placed (legal placing (by simp))

/-- Each call takes as many packets as spell it, so it is known when each list query is heard. -/
theorem stirring_brings (iteration : Iteration) (time : Nat) (calls : List Call) (source : Source)
    (brings : source.Brings calls) (desk : Desk) (free : desk.Free)
    (known : desk.memory.Announceable) :
    ((stirring iteration).converse (time, .command) source desk).Tells desk
      (desk.memory.turnsIn iteration time calls) := by
  induction brings generalizing time desk with
  | closed ended => exact stirring_closing iteration time _ ended desk free
  | @call source rest call packets calls spelled read _ ih =>
      have legal := Source.yields_legal source rest packets read
      have kept := Memory.announceable_turnIn iteration time desk.memory call known
        (spelled_announceable call packets spelled legal)
      obtain ⟨after, moved, replied⟩ :=
        stirring_call iteration time call packets spelled source rest read desk free known
      rw [replied, Memory.turnsIn]
      cases ends : (desk.memory.turnIn iteration time call).failure? with
      | none =>
          exact tells_cons desk after _ _ _ moved ends
            (moved.remembered ▸ ih (time + call.size) after moved.free (moved.remembered ▸ kept))
      | some failure => exact tells_last desk after _ failure rest moved ends

theorem converse_brings (calls : List Call) (source : Source) (brings : source.Brings calls)
    (desk : Desk) (free : desk.Free) (known : desk.memory.Announceable) :
    (converse source desk).Tells desk (desk.memory.turns calls) := by
  have told := stirring_brings .entered 0 calls source brings desk free known
  rwa [stirring_entered, Memory.turnsIn_entered] at told

/-- The exact bytes, records and memory of a run in any order of the waitlist. -/
theorem converseIn_refines_turns (iteration : Iteration) (calls : List Call)
    (fits : ∀ call ∈ calls, ∀ packet ∈ call.packets, packet.Legal) (source : Source)
    (clear : source.Faultless)
    (sent : source.bytes = Packet.encodeAll (calls.flatMap Call.packets)) (desk : Desk)
    (free : desk.Free) (reached : desk.memory.Reached) :
    (converseIn iteration source desk).Tells desk (desk.memory.turnsIn iteration 0 calls) :=
  stirring_brings iteration 0 calls source (Source.brings_encodeAll calls fits source clear sent)
    desk free reached.announceable

-- The memory may be what any earlier runs have left, but the wire itself has to be in order.
theorem converse_refines_turns (calls : List Call)
    (fits : ∀ call ∈ calls, ∀ packet ∈ call.packets, packet.Legal) (source : Source)
    (clear : source.Faultless)
    (sent : source.bytes = Packet.encodeAll (calls.flatMap Call.packets)) (desk : Desk)
    (free : desk.Free) (reached : desk.memory.Reached) :
    (converse source desk).Tells desk (desk.memory.turns calls) :=
  converse_brings calls source (Source.brings_encodeAll calls fits source clear sent) desk free
    reached.announceable

/-- A smudge that is delayed, the query that announces it and the request that fetches it. -/
def delayedSession : List Call :=
  [.file {
      command := .smudge
      pathname := "test-delay10.a"
      details := ["ref=main", mayDelayLine]
      pieces := [Text.bytes "a", [], Text.bytes "bc"] },
    .list,
    .file {
      command := .smudge
      pathname := "test-delay10.a"
      details := []
      pieces := [] }]

-- Read in two pieces with an interruption between them.
theorem converse_refines_delayed_session :
    let bytes := Packet.encodeAll (delayedSession.flatMap Call.packets)
    let memory := Memory.fresh [⟨"smudge"⟩] false
    (converse [.bytes (bytes.take 9), .pause, .bytes (bytes.drop 9)] (.opened memory)).Tells
        (.opened memory) (memory.turns delayedSession) ∧
      (memory.turns delayedSession).map Turn.reply =
        [.answered (.delayed (Text.bytes "nop")),
          .listed ⟨["test-delay10.a"], ["test-delay10.a"]⟩,
          .answered (.content (Text.bytes "nop"))] :=
  ⟨converse_refines_turns delayedSession (by decide) _ (by simp [Source.Faultless])
      (by simp [Source.bytes]) _ (Desk.free_opened _) (.fresh [⟨"smudge"⟩] false),
    by decide +kernel⟩

/-! ### More sessions to try a filter on -/

/-- A delayed smudge and the list queries behind it. -/
def countedSession : List Call :=
  [.file {
      command := .smudge
      pathname := "test-delay20.a"
      details := [mayDelayLine]
      pieces := [Text.bytes "ab", Text.bytes "c"] },
    .list, .list]

/-- The list query comes between a clean request that starts the countdown and the smudge. -/
def lateSession : List Call :=
  [.file {
      command := .clean
      pathname := "test-delay10.a"
      details := [mayDelayLine]
      pieces := [Text.bytes "abc"] },
    .list,
    .file {
      command := .smudge
      pathname := "test-delay10.a"
      details := []
      pieces := [Text.bytes "abc"] },
    .list, .list]

def strayClean : FileCall where
  command := .clean
  pathname := "test-delay20.a"
  details := []
  pieces := [Text.bytes "xyz"]

/-- One command is aborted, and a request with each command comes behind it. -/
def abortedSession : List Call :=
  [.file {
      command := .clean
      pathname := Reserved.aborted
      details := []
      pieces := [Text.bytes "abc"] },
    .file {
      command := .smudge
      pathname := "b.a"
      details := []
      pieces := [Text.bytes "ab"] },
    .file strayClean]

/-- A pathname that ends with a newline is delayed and asked for. -/
def endedSession : List Call :=
  [.file {
      command := .smudge
      pathname := "a\n"
      details := [mayDelayLine]
      pieces := [Text.bytes "x"] },
    .list]

/-- Behind a newline the pathname goes on like a record. -/
def brokenSession : List Call :=
  [.file {
      command := .clean
      pathname := "a\nIN: smudge b"
      details := []
      pieces := [Text.bytes "x"] }]

/-- A request that aborts, and one to go before or behind it. -/
def abortingClean : FileCall where
  command := .clean
  pathname := Reserved.aborted
  details := [mayDelayLine]
  pieces := [Text.bytes "abc"]

def postponedSmudge : FileCall where
  command := .smudge
  pathname := "a.a"
  details := [mayDelayLine]
  pieces := [Text.bytes "xyz"]

/-- The content that a clean request for the pathname of `strayClean` would be answered with. -/
def returningSmudge : FileCall where
  command := .smudge
  pathname := "test-delay20.a"
  details := ["ref=main"]
  pieces := [Text.bytes "k", [], Text.bytes "lm"]

/-- The request that brings the stranger into every announcement. -/
def strangeSmudge : FileCall where
  command := .smudge
  pathname := Reserved.invalidDelay
  details := [mayDelayLine]
  pieces := []

end Exchange

end ContentFilter
