import ContentFilter.Proofs.Greeted
import ContentFilter.Proofs.Instants

/-!
The phases of a dialogue against the readers of the channel. A packet is heard by the phase that
waits for it; the same packets can be read by calls that each give a line, a field or content back.
A phase goes on with exactly what such a call reads: `converse_reading` says so of any phase that
takes one packet, `converse_content_reads` of the content behind the details.
-/

namespace ContentFilter

section

variable {Phase : Type}

/-- The reaction to what has been read of a packet, if it could be read. -/
def Reaction.told {Result : Type} (answer : Result → Reaction Phase) :
    Except Violation Result → Reaction Phase
  | .error what => .violation what
  | .ok found => answer found

namespace Dialogue

variable (dialogue : Dialogue Phase)

/-- Goes on with what has been read. -/
def reads {Result : Type} (answer : Result → Reaction Phase)
    (read : Except Failure Result × Source) (desk : Desk) : Ending :=
  match read with
  | (.error failure, rest) => ⟨some failure, rest, desk⟩
  | (.ok found, rest) =>
      react (answer found) rest desk fun phase desk => dialogue.converse phase rest desk

theorem part_eq_react (farewell : Farewell) (source : Source) (desk : Desk)
    (goOn : Phase → Desk → Ending) :
    part farewell source desk = react ⟨farewell.effects, farewell.next⟩ source desk goOn := by
  unfold part react Farewell.next
  cases Effect.performAll farewell.effects desk with
  | halted failure after => rfl
  | on after => cases farewell.failure? <;> rfl

-- A violation does nothing on the desk.
theorem react_told {Result : Type} (answer : Result → Reaction Phase)
    (found : Except Violation Result) (rest : Source) (desk : Desk) :
    (react (.told answer found) rest desk fun phase desk => dialogue.converse phase rest desk) =
      dialogue.reads answer (found.mapError .violation, rest) desk := by
  cases found <;> rfl

theorem converse_reading {Result : Type} (phase : Phase) (source : Source) (desk : Desk)
    (answer : Result → Reaction Phase) (atEnd : Except Violation Result)
    (interpret : Packet → Except Violation Result)
    (hears : ∀ packet, dialogue.hear desk.memory phase packet = .told answer (interpret packet))
    (parts : ⟨(dialogue.hangUp phase).effects, (dialogue.hangUp phase).next⟩ =
      Reaction.told answer atEnd) :
    dialogue.converse phase source desk =
      dialogue.reads answer (source.reading atEnd interpret) desk := by
  unfold Source.reading
  cases next : source.next with
  | mk outcome rest =>
  cases outcome with
  | error failure => exact dialogue.converse_fault phase source rest desk failure next
  | ok found =>
  cases found with
  | none =>
      rw [dialogue.converse_closed phase source rest desk next, part_eq_react, parts]
      exact dialogue.react_told answer atEnd rest desk
  | some packet =>
      rw [dialogue.converse_packet phase source rest desk packet next, hears]
      exact dialogue.react_told answer (interpret packet) rest desk

end Dialogue

end

/-! ### The exchange -/

namespace Exchange

def answerCommand : Option String → Reaction Phase
  | none => { effects := [.note .stopped], next := .finish }
  | some name =>
      match Command.ofName? name with
      | none => { next := .fail (.unsupported name) }
      | some command =>
          { effects := [.note (.heard command)]
            next := .await (if command = .listAvailable then .listEnd else .pathname command) }

def answerPathname (command : Command) : Option String → Reaction Phase
  | none => .violation .endBeforePathname
  | some pathname =>
      { effects := [.note (.field pathname)], next := .await (.details command pathname false) }

/-- The flush behind the details is the moment at which the delay is allowed. -/
def answerDetail (memory : Memory) (command : Command) (pathname : String) (mayDelay : Bool) :
    Option String → Reaction Phase
  | none =>
      { effects := if mayDelay then [.remember (memory.permit pathname)] else []
        next := .await (.content command pathname #[]) }
  | some line =>
      if line = mayDelayLine then { next := .await (.details command pathname true) }
      else if isNoted line then
        { effects := [.note (.field line)], next := .await (.details command pathname mayDelay) }
      else .violation (.unknownDetail line)

variable (source : Source) (desk : Desk) (command : Command) (pathname : String)

theorem converse_command_reads :
    converse source desk = dialogue.reads answerCommand (source.field? "command") desk := by
  refine dialogue.converse_reading .command source desk answerCommand _ _ (fun packet => ?_) rfl
  simp only [dialogue, hear, hearCommand]
  cases packet.field "command" <;> rfl

theorem converse_pathname_reads :
    dialogue.converse (.pathname command) source desk =
      dialogue.reads (answerPathname command) (source.field? "pathname") desk := by
  refine dialogue.converse_reading _ source desk (answerPathname command) _ _ (fun packet => ?_) rfl
  simp only [dialogue, hear, hearPathname]
  cases packet.field "pathname" <;> rfl

theorem converse_details_reads (mayDelay : Bool) :
    dialogue.converse (.details command pathname mayDelay) source desk =
      dialogue.reads (answerDetail desk.memory command pathname mayDelay) source.line desk := by
  refine dialogue.converse_reading _ source desk
    (answerDetail desk.memory command pathname mayDelay) _ _ (fun packet => ?_) rfl
  simp only [dialogue, hear, hearDetail]
  cases packet.line? with
  | error what => rfl
  | ok line? =>
      cases line? with
      | some line => rfl
      | none =>
          cases mayDelay with
          | false => rfl
          | true => simp only [Memory.allowDelay_eq_permit, Reaction.told, answerDetail, if_true]

theorem converse_listEnd_reads :
    dialogue.converse .listEnd source desk =
      dialogue.reads (fun _ => { effects := listReply desk.memory, next := .await .command })
        (source.closing "list_available_blobs end") desk := by
  refine dialogue.converse_reading _ source desk _ _ _ (fun packet => ?_) rfl
  cases packet <;> rfl

/-- The content of a request is read as a whole, by `Source.content` where nothing has been received
yet, and then the request is answered. -/
theorem converse_content_reads (received : Array UInt8) :
    dialogue.converse (.content command pathname received) source desk =
      dialogue.reads (fun payload => conclude desk.memory ⟨command, pathname, payload⟩)
        (source.contentOnto received) desk := by
  fun_induction Source.contentOnto received source with
  | case1 received source failure rest read => exact dialogue.converse_fault _ _ _ _ _ read
  | case2 received source rest read => exact dialogue.converse_closed _ _ _ _ read
  | case3 received source rest read => exact dialogue.converse_packet _ _ _ _ _ read
  | case4 received source rest payload read shorter ih =>
      rw [← ih]
      exact dialogue.converse_packet _ _ _ _ _ read

end Exchange

/-! ### The greeting -/

namespace Greeting

/-- One line and no other is accepted. -/
def answerLine (what line : String) (next : Phase) (found : Option String) : Reaction Phase :=
  if found = some line then { next := .await next }
  else .violation (.badLine what (found.getD ""))

variable (required offered : List Capability) (source : Source) (desk : Desk)

theorem expect_eq_told (what line : String) (next : Phase) (packet : Packet) :
    expect what line next packet = .told (answerLine what line next) packet.line? := by
  unfold expect
  cases packet.line? <;> rfl

theorem converse_identity_reads :
    (dialogue required offered).converse .identity source desk =
      (dialogue required offered).reads (answerLine "initialize" clientIdentity .version)
        source.line desk :=
  (dialogue required offered).converse_reading _ source desk _ _ _ (expect_eq_told _ _ _) rfl

theorem converse_version_reads :
    (dialogue required offered).converse .version source desk =
      (dialogue required offered).reads (answerLine "version" versionLine .versionEnd)
        source.line desk :=
  (dialogue required offered).converse_reading _ source desk _ _ _ (expect_eq_told _ _ _) rfl

theorem converse_versionEnd_reads :
    (dialogue required offered).converse .versionEnd source desk =
      (dialogue required offered).reads
        (fun _ => { effects := hello, next := .await (.capabilities []) })
        (source.closing "version end") desk := by
  refine (dialogue required offered).converse_reading _ source desk _ _ _ (fun packet => ?_) rfl
  cases packet <;> rfl

end Greeting

end ContentFilter
