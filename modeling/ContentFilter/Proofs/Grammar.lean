import ContentFilter.Proofs.Conversation
import Mathlib.Data.List.Forall2
import Mathlib.Data.List.Induction

/-!
The requests of a session as a language of packets. `Begun` tells which packets lead to a phase
when a request is under way, `AllSpelled` which packets are complete requests. The phases are an
automaton for this language: `reach?_eq_some_iff` says that the phase is all that has to be kept of
the packets read so far, and that nothing else leads to it. `Call.spelled_unambiguous` says that no
two calls share a spelling, not even one that goes on behind the other. `hear_hearing` says once
what a packet does in a phase.
-/

namespace ContentFilter

theorem Command.name_inj (first second : Command) (same : first.name = second.name) :
    first = second := by
  have read := (ofName?_eq_some_iff _ first).mpr rfl
  rw [same, (ofName?_eq_some_iff _ second).mpr rfl] at read
  exact (Option.some.inj read).symm

namespace Packet

theorem line?_eq_none_iff (packet : Packet) : packet.line? = .ok none ↔ packet = .flush := by
  cases packet with
  | flush => simp [line?]
  | data payload => cases read : text payload <;> simp [line?, read, Except.map]

theorem say_carries (line : String) (unended : ∀ front, line ≠ front ++ "\n") :
    (say line).Carries line := by
  have last : (Text.bytes line).getLast? ≠ some Text.newline := by
    intro ended
    obtain ⟨front, same⟩ := (Text.getLast?_bytes_iff line).mp ended
    exact unended front same
  apply (carries_iff _ line).mpr
  rw [withoutNewline, if_neg last]

theorem carries_unique (packet : Packet) (first second : String) (one : packet.Carries first)
    (other : packet.Carries second) : first = second := by
  unfold Carries at one other
  rw [one] at other
  exact Option.some.inj (Except.ok.inj other)

theorem key_unique (packet : Packet) (key first second : String)
    (one : packet.Carries (key ++ first)) (other : packet.Carries (key ++ second)) :
    first = second := by
  have same := congrArg String.toList (packet.carries_unique _ _ one other)
  rw [String.toList_append, String.toList_append] at same
  exact String.toList_inj.mp (List.append_cancel_left same)

theorem lines_unique (packets : List Packet) (first second : List String)
    (one : List.Forall₂ Carries packets first) (other : List.Forall₂ Carries packets second) :
    first = second :=
  Relator.RightUnique.forall₂ (fun packet _ _ => packet.carries_unique _ _) one other

theorem lines_unflushed (packets : List Packet) (lines : List String)
    (each : List.Forall₂ Carries packets lines) : Packet.flush ∉ packets := by
  induction each with
  | nil => simp
  | cons carried _ ih =>
      rw [List.mem_cons, not_or]
      constructor
      · rintro rfl
        cases carried
      · exact ih

-- The first flush is where the packets in front of it end.
theorem flush_splits (first second behind rest : List Packet) (one : Packet.flush ∉ first)
    (other : Packet.flush ∉ second) (same : first ++ .flush :: behind = second ++ .flush :: rest) :
    first = second ∧ behind = rest := by
  induction first generalizing second with
  | nil =>
      cases second with
      | nil => exact ⟨rfl, (List.cons.inj same).2⟩
      | cons packet second =>
          have flush := (List.cons.inj same).1
          exact absurd (flush ▸ List.mem_cons_self) other
  | cons packet first ih =>
      cases second with
      | nil =>
          have flush := (List.cons.inj same).1
          exact absurd (flush ▸ List.mem_cons_self) one
      | cons next second =>
          rcases List.cons.inj same with ⟨rfl, further⟩
          rw [List.mem_cons, not_or] at one other
          rcases ih second one.2 other.2 further with ⟨rfl, left⟩
          exact ⟨rfl, left⟩

end Packet

namespace Call

theorem spelled_opened (call : FileCall) (packets : List Packet) (opened : call.Opened packets) :
    (Call.file call).Spelled (packets ++ .flush :: (call.pieces.map .data ++ [.flush])) := by
  cases opened with
  | question named placed detailed => exact .file named placed detailed

/-- `packets` spell the calls, one behind the other. -/
inductive AllSpelled : List Call → List Packet → Prop
  | none : AllSpelled [] []
  | call {call : Call} {calls : List Call} {packets rest : List Packet}
      (spelled : call.Spelled packets) (later : AllSpelled calls rest) :
      AllSpelled (call :: calls) (packets ++ rest)

theorem allSpelled_append (calls : List Call) (call : Call) (packets more : List Packet)
    (before : AllSpelled calls packets) (spelled : call.Spelled more) :
    AllSpelled (calls ++ [call]) (packets ++ more) := by
  induction before with
  | none => simpa using AllSpelled.call spelled .none
  | call first _ ih =>
      rw [List.append_assoc]
      exact .call first ih

theorem pieces_unambiguous (first second : List Bytes) (more : List Packet)
    (same : first.map .data ++ .flush :: more = second.map .data ++ [Packet.flush]) :
    first = second ∧ more = [] := by
  rcases Packet.flush_splits _ _ _ _ (by simp) (by simp) same with ⟨pieces, behind⟩
  exact ⟨List.map_injective_iff.mpr (fun _ _ => Packet.data.inj) pieces, behind⟩

/-- Packets spell one call at most, and no call goes on where another has ended. -/
theorem spelled_unambiguous (call other : Call) (front more : List Packet)
    (spelled : call.Spelled front) (again : other.Spelled (front ++ more)) :
    other = call ∧ more = [] := by
  generalize joined : front ++ more = packets at again
  cases spelled with
  | list named =>
      cases again with
      | list =>
          simp only [List.cons_append, List.nil_append, List.cons.injEq, true_and] at joined
          exact ⟨rfl, joined.2⟩
      | @file other command pathname details called =>
          rcases List.cons.inj joined with ⟨same, _⟩
          subst same
          have list := Command.name_inj _ _ (Packet.key_unique _ _ _ _ called named)
          exact absurd list other.forFile
  | @file call command pathname details named placed detailed =>
      cases again with
      | list called =>
          rcases List.cons.inj joined with ⟨same, _⟩
          subst same
          have list := Command.name_inj _ _ (Packet.key_unique _ _ _ _ named called)
          exact absurd list call.forFile
      | @file other _ _ others called put listed =>
          simp only [List.cons_append, List.cons.injEq, List.append_assoc] at joined
          rcases joined with ⟨rfl, rfl, behind⟩
          rcases Packet.flush_splits _ _ _ _ (Packet.lines_unflushed _ _ detailed)
            (Packet.lines_unflushed _ _ listed) behind with ⟨rfl, content⟩
          rcases pieces_unambiguous call.pieces other.pieces more content with ⟨pieces, ended⟩
          have order := Command.name_inj _ _ (Packet.key_unique _ _ _ _ named called)
          have place := Packet.key_unique _ _ _ _ placed put
          have details := Packet.lines_unique _ _ _ detailed listed
          cases call
          cases other
          simp_all

end Call

namespace Exchange

/-! ### The automaton -/

namespace Phase

/-- The phase behind a packet that may stand here. A complete request leads back to the first
phase. -/
def follow? : Phase → Packet → Option Phase
  | .command, packet =>
      match packet.field "command" with
      | .error _ => none
      | .ok name => (Command.ofName? name).map fun order =>
          if order = .listAvailable then .listEnd else .pathname order
  | .listEnd, packet => if packet = .flush then some .command else none
  | .pathname order, packet =>
      match packet.field "pathname" with
      | .error _ => none
      | .ok name => some (.details order name false)
  | .details order name mayDelay, packet =>
      match packet.line? with
      | .error _ => none
      | .ok none => some (.content order name #[])
      | .ok (some line) =>
          if isDetail line then
            some (.details order name (mayDelay || decide (line = mayDelayLine)))
          else none
  | .content order name received, .data payload => some (.content order name (received ++ payload))
  | .content _ _ _, .flush => some .command

/-- What is wrong with a packet, or with the end of the arrivals, in a phase. An unknown command is
no violation, and neither is an end between two requests. -/
def objection? : Phase → Option Packet → Option Violation
  | .command, none => none
  | .command, some packet =>
      match packet.field "command" with
      | .error what => some what
      | .ok _ => none
  | .listEnd, none => some (.endBefore "list_available_blobs end")
  | .listEnd, some .flush => none
  | .listEnd, some (.data payload) => some (.notFlush "list_available_blobs end" payload)
  | .pathname _, none => some .endBeforePathname
  | .pathname _, some packet =>
      match packet.field "pathname" with
      | .error what => some what
      | .ok _ => none
  | .details _ _ _, none => some .endInLine
  | .details _ _ _, some packet =>
      match packet.line? with
      | .error what => some what
      | .ok none => none
      | .ok (some line) => if isDetail line then none else some (.unknownDetail line)
  | .content _ _ _, none => some .endInContent
  | .content _ _ _, some _ => none

def reach? (phase : Phase) (packets : List Packet) : Option Phase :=
  packets.foldlM follow? phase

theorem reach?_append (phase : Phase) (first second : List Packet) :
    phase.reach? (first ++ second) = (phase.reach? first).bind (·.reach? second) :=
  List.foldlM_append

theorem reach?_cons (phase : Phase) (packet : Packet) (rest : List Packet) :
    phase.reach? (packet :: rest) = (phase.follow? packet).bind (·.reach? rest) :=
  List.foldlM_cons

end Phase

theorem follow?_objected (phase : Phase) (packet : Packet) (what : Violation)
    (objects : phase.objection? (some packet) = some what) : phase.follow? packet = none := by
  cases phase with
  | command =>
      simp only [Phase.objection?] at objects
      split at objects <;> cases objects
      simp only [Phase.follow?, *]
  | listEnd =>
      cases packet with
      | flush => cases objects
      | data payload => rfl
  | pathname command =>
      simp only [Phase.objection?] at objects
      split at objects <;> cases objects
      simp only [Phase.follow?, *]
  | details command pathname mayDelay =>
      simp only [Phase.objection?] at objects
      split at objects
      · simp only [Phase.follow?, *]
      · cases objects
      · rename_i line found
        split at objects <;> cases objects
        simp_all [Phase.follow?]
  | content command pathname received => cases objects

/-! ### The language -/

/-- `packets` are the beginning of a request, and `phase` is what it waits for. -/
inductive Begun : Phase → List Packet → Prop
  | nothing : Begun .command []
  | list {packet : Packet} (named : packet.Carries ("command=" ++ Command.listAvailable.name)) :
      Begun .listEnd [packet]
  | file {command : Command} {packet : Packet} (forFile : command ≠ .listAvailable)
      (named : packet.Carries ("command=" ++ command.name)) : Begun (.pathname command) [packet]
  | details (call : FileCall) {packets : List Packet} (opened : call.Opened packets) :
      Begun (.details call.command call.pathname call.mayDelay) packets
  | content (call : FileCall) {packets : List Packet} (opened : call.Opened packets) :
      Begun (.content call.command call.pathname call.payload.toArray)
        (packets ++ .flush :: call.pieces.map .data)

theorem begun_listEnd (packets : List Packet) (begun : Begun .listEnd packets) :
    Call.list.Spelled (packets ++ [.flush]) := by
  cases begun with
  | list named => exact .list named

theorem begun_details (command : Command) (pathname : String) (mayDelay : Bool)
    (packets : List Packet) (begun : Begun (.details command pathname mayDelay) packets) :
    ∃ call : FileCall, call.Opened packets ∧ call.command = command ∧ call.pathname = pathname ∧
      call.mayDelay = mayDelay := by
  generalize same : Phase.details command pathname mayDelay = phase at begun
  cases begun with
  | details call opened =>
      obtain ⟨rfl, rfl, rfl⟩ := Phase.details.inj same
      exact ⟨call, opened, rfl, rfl, rfl⟩
  | nothing | list | file | content => cases same

-- The flush that is still to come completes the request.
theorem begun_content (command : Command) (pathname : String) (received : Array UInt8)
    (packets : List Packet) (begun : Begun (.content command pathname received) packets) :
    ∃ call : FileCall, (Call.file call).Spelled (packets ++ [.flush]) ∧
      call.request = ⟨command, pathname, received.toList⟩ := by
  generalize same : Phase.content command pathname received = phase at begun
  cases begun with
  | @content call packets opened =>
      obtain ⟨rfl, rfl, rfl⟩ := Phase.content.inj same
      exact ⟨call, by simpa using Call.spelled_opened call packets opened, rfl⟩
  | nothing | list | file | details => cases same

theorem follow?_command (packet : Packet) (command : Command)
    (named : packet.Carries ("command=" ++ command.name)) :
    Phase.command.follow? packet =
      some (if command = .listAvailable then .listEnd else .pathname command) := by
  have known : Command.ofName? command.name = some command :=
    (Command.ofName?_eq_some_iff command.name command).mpr rfl
  simp only [Phase.follow?, field_command packet command named, known, Option.map_some]

theorem reach?_details (command : Command) (pathname : String) (mayDelay : Bool)
    (packets : List Packet) (lines : List String)
    (detailed : List.Forall₂ Packet.Carries packets lines)
    (known : ∀ line ∈ lines, isDetail line = true) :
    (Phase.details command pathname mayDelay).reach? packets =
      some (.details command pathname (mayDelay || decide (mayDelayLine ∈ lines))) := by
  induction detailed generalizing mayDelay with
  | nil => simp [Phase.reach?]
  | @cons packet line packets lines carried _ ih =>
      have found : packet.line? = .ok (some line) := carried
      have here := known line List.mem_cons_self
      rw [Phase.reach?_cons]
      simp only [Phase.follow?, found, here, ↓reduceIte, Option.bind_some]
      rw [ih _ fun other member => known other (List.mem_cons_of_mem line member)]
      by_cases same : line = mayDelayLine
      · simp [same]
      · simp [same, Ne.symm same]

theorem reach?_content (command : Command) (pathname : String) (received : Array UInt8)
    (pieces : List Bytes) :
    (Phase.content command pathname received).reach? (pieces.map .data) =
      some (.content command pathname (received ++ pieces.flatten)) := by
  induction pieces generalizing received with
  | nil => simp [Phase.reach?]
  | cons piece pieces ih =>
      rw [List.map_cons, Phase.reach?_cons]
      simp only [Phase.follow?, Option.bind_some, ih]
      congr 2
      apply Array.toList_inj.mp
      simp

theorem reach?_opened (call : FileCall) (packets : List Packet) (opened : call.Opened packets) :
    Phase.command.reach? packets =
      some (.details call.command call.pathname call.mayDelay) := by
  cases opened with
  | @question command placing details named placed detailed =>
      have found : placing.field "pathname" = .ok call.pathname :=
        (Packet.field_eq_ok_iff placing "pathname" call.pathname).mpr ⟨call.named, placed⟩
      have asked := reach?_details call.command call.pathname false details call.details detailed
        call.known
      rw [Phase.reach?_cons, follow?_command command call.command named, if_neg call.forFile,
        Option.bind_some, Phase.reach?_cons]
      simp only [Phase.follow?, found, Option.bind_some, asked]
      rfl

theorem reach?_begun (phase : Phase) (packets : List Packet) (begun : Begun phase packets) :
    Phase.command.reach? packets = some phase := by
  cases begun with
  | nothing => rfl
  | list named =>
      rw [Phase.reach?_cons, follow?_command _ .listAvailable named]
      rfl
  | file forFile named =>
      rw [Phase.reach?_cons, follow?_command _ _ named, if_neg forFile]
      rfl
  | details call opened => exact reach?_opened call _ opened
  | @content call packets opened =>
      rw [Phase.reach?_append, reach?_opened call packets opened, Option.bind_some,
        Phase.reach?_cons]
      have received := reach?_content call.command call.pathname #[] call.pieces
      simpa [Phase.follow?, Packet.line?, FileCall.payload] using received

theorem reach?_spelled (call : Call) (packets : List Packet) (spelled : call.Spelled packets) :
    Phase.command.reach? packets = some .command := by
  cases spelled with
  | @list command named =>
      have begun := reach?_begun _ _ (.list named)
      rw [← List.singleton_append, Phase.reach?_append, begun]
      rfl
  | @file call command placing details named placed detailed =>
      have begun := reach?_begun _ _ (.content call (.question named placed detailed))
      have parts : command :: placing ::
            (details ++ .flush :: (call.pieces.map Packet.data ++ [.flush])) =
          (command :: placing :: details ++ .flush :: call.pieces.map .data) ++ [.flush] := by
        simp
      rw [parts, Phase.reach?_append, begun]
      rfl

theorem reach?_allSpelled (calls : List Call) (packets : List Packet)
    (spelled : Call.AllSpelled calls packets) :
    Phase.command.reach? packets = some .command := by
  induction spelled with
  | none => rfl
  | call first _ ih =>
      rw [Phase.reach?_append, reach?_spelled _ _ first]
      exact ih

/-- A packet that may stand here goes on with the request or completes it. -/
theorem begun_follow (phase next : Phase) (packets : List Packet) (packet : Packet)
    (begun : Begun phase packets) (follows : phase.follow? packet = some next) :
    next ≠ .command ∧ Begun next (packets ++ [packet]) ∨
      next = .command ∧ ∃ call : Call, call.Spelled (packets ++ [packet]) := by
  cases begun with
  | nothing =>
      simp only [Phase.follow?] at follows
      split at follows
      · cases follows
      · rename_i name found
        obtain ⟨command, known, rfl⟩ := Option.map_eq_some_iff.mp follows
        obtain rfl := (Command.ofName?_eq_some_iff name command).mp known
        have named := ((Packet.field_eq_ok_iff packet "command" command.name).mp found).2
        refine .inl ?_
        by_cases list : command = .listAvailable
        · subst list
          exact ⟨by simp, .list named⟩
        · rw [if_neg list]
          exact ⟨by simp, .file list named⟩
  | list named =>
      simp only [Phase.follow?, Option.ite_none_right_eq_some, Option.some.injEq] at follows
      obtain ⟨rfl, rfl⟩ := follows
      exact .inr ⟨rfl, .list, .list named⟩
  | @file command first forFile named =>
      simp only [Phase.follow?] at follows
      split at follows
      · cases follows
      · rename_i pathname found
        cases follows
        obtain ⟨nonempty, placed⟩ := (Packet.field_eq_ok_iff packet "pathname" pathname).mp found
        exact .inl ⟨by simp, .details ⟨command, pathname, [], [], forFile, nonempty, by simp⟩
          (.question named placed .nil)⟩
  | @details call packets opened =>
      simp only [Phase.follow?] at follows
      split at follows
      · cases follows
      · rename_i flushed
        cases follows
        obtain rfl := (Packet.line?_eq_none_iff packet).mp flushed
        exact .inl ⟨by simp, .content call.silent (call.opened_silent packets opened)⟩
      · rename_i line carried
        rw [Option.ite_none_right_eq_some] at follows
        obtain ⟨known, same⟩ := follows
        cases same
        refine .inl ⟨by simp, ?_⟩
        rw [← call.mayDelay_further line known]
        exact .details (call.further line known)
          (call.opened_further packets opened line known packet carried)
  | @content call packets opened =>
      cases packet with
      | data payload =>
          cases follows
          have more := Begun.content (call.longer payload)
            (call.opened_longer packets opened payload)
          rw [call.payload_longer payload] at more
          refine .inl ⟨by simp, ?_⟩
          simpa [FileCall.longer] using more
      | flush =>
          cases follows
          have spelled := Call.spelled_opened call packets opened
          refine .inr ⟨rfl, .file call, ?_⟩
          simpa using spelled

/-- The phase tells what the packets so far can have been. -/
theorem reach?_eq_some_iff (packets : List Packet) (phase : Phase) :
    Phase.command.reach? packets = some phase ↔
      ∃ calls before begun, packets = before ++ begun ∧ Call.AllSpelled calls before ∧
        Begun phase begun := by
  constructor
  · intro reached
    induction packets using List.reverseRecOn generalizing phase with
    | nil =>
        cases reached
        exact ⟨[], [], [], rfl, .none, .nothing⟩
    | append_singleton packets packet ih =>
        rw [Phase.reach?_append, Option.bind_eq_some_iff] at reached
        obtain ⟨last, earlier, follows⟩ := reached
        obtain ⟨calls, before, begun, rfl, spelled, inside⟩ := ih last earlier
        rw [Phase.reach?_cons, Option.bind_eq_some_iff] at follows
        obtain ⟨next, follows, done⟩ := follows
        cases done
        rcases begun_follow last phase begun packet inside follows with
          ⟨_, more⟩ | ⟨rfl, call, complete⟩
        · exact ⟨calls, before, begun ++ [packet], by simp, spelled, more⟩
        · exact ⟨calls ++ [call], before ++ (begun ++ [packet]), [], by simp,
            Call.allSpelled_append calls call before _ spelled complete, .nothing⟩
  · rintro ⟨calls, before, begun, rfl, spelled, inside⟩
    rw [Phase.reach?_append, reach?_allSpelled calls before spelled, Option.bind_some,
      reach?_begun phase begun inside]

/-! ### What a packet does -/

/-- The cases of `hear`. Only the last packet of a request is answered, and only the flush behind
its details can allow a delay. -/
inductive Hearing (memory : Memory) : Phase → Packet → Reaction Phase → Prop
  | noted {phase next : Phase} {packet : Packet} (remarks : List Remark)
      (follows : phase.follow? packet = some next) (inside : next ≠ .command)
      (idle : ∀ command pathname, phase = .details command pathname true → packet ≠ .flush) :
      Hearing memory phase packet { effects := remarks.map .note, next := .await next }
  | allowed (command : Command) (pathname : String) :
      Hearing memory (.details command pathname true) .flush
        { effects := [.remember (memory.permit pathname)]
          next := .await (.content command pathname #[]) }
  | listed :
      Hearing memory .listEnd .flush { effects := listReply memory, next := .await .command }
  | concluded (command : Command) (pathname : String) (received : Array UInt8) :
      Hearing memory (.content command pathname received) .flush
        (conclude memory ⟨command, pathname, received.toList⟩)
  | unknown {packet : Packet} {name : String} (found : packet.field "command" = .ok name)
      (unknown : Command.ofName? name = none) :
      Hearing memory .command packet { next := .fail (.unsupported name) }
  | objected {phase : Phase} {packet : Packet} {what : Violation}
      (objects : phase.objection? (some packet) = some what) :
      Hearing memory phase packet { next := .fail (.violation what) }

theorem hear_hearing (memory : Memory) (phase : Phase) (packet : Packet) :
    Hearing memory phase packet (hear memory phase packet) := by
  cases phase with
  | command =>
      simp only [hear, hearCommand]
      cases found : packet.field "command" with
      | error what => exact .objected (by simp [Phase.objection?, found])
      | ok name =>
          dsimp only
          cases known : Command.ofName? name with
          | none => exact .unknown found known
          | some command =>
              refine .noted [.heard command] (by simp [Phase.follow?, found, known]) ?_ (by simp)
              split <;> simp
  | listEnd =>
      cases packet with
      | data payload => exact .objected rfl
      | flush => exact .listed
  | pathname command =>
      simp only [hear, hearPathname]
      cases found : packet.field "pathname" with
      | error what => exact .objected (by simp [Phase.objection?, found])
      | ok pathname =>
          exact .noted [.field pathname] (by simp [Phase.follow?, found]) (by simp) (by simp)
  | details command pathname mayDelay =>
      simp only [hear, hearDetail]
      cases found : packet.line? with
      | error what => exact .objected (by simp [Phase.objection?, found])
      | ok carried =>
          cases carried with
          | none =>
              obtain rfl := (Packet.line?_eq_none_iff packet).mp found
              cases mayDelay with
              | false => exact .noted [] (by simp [Phase.follow?, found]) (by simp) (by simp)
              | true =>
                  simp only [↓reduceIte, Memory.allowDelay_eq_permit]
                  exact .allowed command pathname
          | some line =>
              have filled : packet ≠ .flush := by
                rintro rfl
                cases found
              dsimp only
              by_cases delay : line = mayDelayLine
              · subst delay
                exact .noted [] (by simp [Phase.follow?, found, isDetail]) (by simp)
                  fun _ _ _ => filled
              · rw [if_neg delay]
                cases noted : isNoted line with
                | true =>
                    exact .noted [.field line]
                      (by simp [Phase.follow?, found, isDetail, noted, delay]) (by simp)
                      fun _ _ _ => filled
                | false =>
                    exact .objected (by simp [Phase.objection?, found, isDetail, noted, delay])
  | content command pathname received =>
      cases packet with
      | data payload => exact .noted [] rfl (by simp) (by simp)
      | flush => exact .concluded command pathname received

end Exchange

end ContentFilter
