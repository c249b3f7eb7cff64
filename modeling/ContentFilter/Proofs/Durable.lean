import ContentFilter.Proofs.Completed
import ContentFilter.Proofs.Forwarding
import ContentFilter.Proofs.Lines
import ContentFilter.Proofs.Truncation

/-!
When a record is in the file. Between two requests nothing of the journal waits, whatever line
buffer stands in front of the file (`LineBuffer.Follows`): every way in which a request can be
answered writes its record to the end, and its last write ends with a newline. `Pens` says at every
instant of a run which record is being written and how far it has come, `step_stands` carries it
from one instant to the next, and `attend_durable` says of a whole session what is in the file.
-/

namespace ContentFilter

namespace Effect

/-- What the effects write into the journal. -/
def penned (effects : List Effect) : String :=
  String.join ((effects.flatMap remarks).map Remark.text)

theorem penned_append (first second : List Effect) :
    penned (first ++ second) = penned first ++ penned second := by
  simp only [penned, List.flatMap_append, List.map_append, String.join_append]

theorem penned_note (remark : Remark) : penned [.note remark] = remark.text := by
  have single : ([remark].map Remark.text).foldl (· ++ ·) "" = "" ++ remark.text := rfl
  exact single.trans String.empty_append

theorem penned_cons (effect : Effect) (effects : List Effect) :
    penned (effect :: effects) = penned [effect] ++ penned effects :=
  penned_append [effect] effects

/-- The calls by which an effect is noted. -/
def acts (effect : Effect) : List Journal.Act := effect.remarks.flatMap Remark.acts

theorem acts_note (remark : Remark) : (note remark).acts = remark.acts :=
  List.append_nil remark.acts

theorem text_acts (effect : Effect) : Journal.Act.join effect.acts = penned [effect] := by
  cases effect with
  | note remark => rw [penned_note, acts_note, remark.text_acts]
  | send | flush | remember => rfl

theorem perform_follows (effect : Effect) (desk : Desk) (free : desk.journal.file.room = none) :
    (effect.perform desk).state.journal.file.room = none ∧
      desk.journal.buffer.Follows effect.acts (effect.perform desk).state.journal.buffer := by
  cases effect with
  | send | flush =>
      rw [perform, Progress.state_map]
      exact ⟨free, .nothing⟩
  | remember memory => exact ⟨free, .nothing⟩
  | note remark =>
      obtain ⟨journal, went, room, _⟩ := (Journal.adds_note remark desk.journal free).on
      rw [perform, Progress.state_map, acts_note, went]
      exact ⟨room, Journal.note_follows remark desk.journal journal free went⟩

end Effect

/-! ### The calls of a run -/

namespace Instant

variable {Phase : Type}

/-- The calls on the line buffer that the next step makes. -/
def acts (now : Instant Phase) : List Journal.Act :=
  match now.activity with
  | .reacting (effect :: _) _ => effect.acts
  | .reacting [] _ | .reading _ | .ended _ => []

end Instant

namespace Dialogue

variable {Phase : Type} {dialogue : Dialogue Phase}

theorem step_follows (now later : Instant Phase) (step : dialogue.Step now later)
    (free : now.desk.journal.file.room = none) :
    later.desk.journal.file.room = none ∧
      now.desk.journal.buffer.Follows now.acts later.desk.journal.buffer := by
  cases step with
  | fault | closed | packet | settled => exact ⟨free, .nothing⟩
  | @performed effect effects next heard source desk after went
  | @halted effect effects next heard source desk after failure went =>
      have follows := effect.perform_follows desk free
      rwa [went] at follows

/-- The journal of a run is the line buffer behind the calls of the run. -/
theorem traces_follows (start now : Instant Phase) (past : List (Instant Phase))
    (traces : dialogue.Traces start past now) (free : start.desk.journal.file.room = none) :
    now.desk.journal.file.room = none ∧
      start.desk.journal.buffer.Follows (past.flatMap Instant.acts) now.desk.journal.buffer := by
  induction traces with
  | here => exact ⟨free, .nothing⟩
  | @onward past middle later before step ih =>
      have follows := step_follows middle later step ih.1
      rw [List.flatMap_append, List.flatMap_singleton]
      exact ⟨follows.1, ih.2.trans follows.2⟩

end Dialogue

/-! ### One packet -/

theorem FileCall.entry_further (call : FileCall) (line : String)
    (known : Exchange.isDetail line = true) :
    (call.further line known).entry =
      call.entry ++ if Exchange.isNoted line then " " ++ line else "" := by
  simp only [entry, further, List.filter_append, List.map_append, String.join_append]
  cases noted : Exchange.isNoted line <;> simp [noted, String.append_assoc]

namespace Exchange

theorem hearDetail_penned (memory : Memory) (command : Command) (pathname : String)
    (mayDelay : Bool) (packet : Packet) (line : String) (carried : packet.Carries line) :
    Effect.penned (hearDetail memory command pathname mayDelay packet).effects =
      if isNoted line then " " ++ line else "" := by
  have found : packet.line? = .ok (some line) := carried
  simp only [hearDetail, found]
  by_cases delay : line = mayDelayLine
  · subst delay
    rfl
  · rw [if_neg delay]
    cases noted : isNoted line with
    | true =>
        rw [if_pos rfl, if_pos rfl, Effect.penned_note]
        exact String.empty_append
    | false => rfl

theorem hearDetail_flush_penned (memory : Memory) (command : Command) (pathname : String)
    (mayDelay : Bool) :
    Effect.penned (hearDetail memory command pathname mayDelay .flush).effects = "" := by
  have found : Packet.flush.line? = .ok none := rfl
  simp only [hearDetail, found]
  split
  · split <;> rfl
  · rfl

/-- Inside a request each packet adds its own part to the record. -/
theorem unfinished_follow (phase next : Phase) (packets : List Packet) (packet : Packet)
    (current : String) (unfinished : Unfinished phase packets current) (memory : Memory)
    (follows : phase.follow? packet = some next) (inside : next ≠ .command) :
    Unfinished next (packets ++ [packet])
      (current ++ Effect.penned (hear memory phase packet).effects) := by
  cases unfinished with
  | nothing =>
      simp only [Phase.follow?] at follows
      split at follows
      · cases follows
      · rename_i name found
        obtain ⟨command, known, rfl⟩ := Option.map_eq_some_iff.mp follows
        obtain rfl := (Command.ofName?_eq_some_iff name command).mp known
        have named := ((Packet.field_eq_ok_iff packet "command" command.name).mp found).2
        have begins : "" ++ Effect.penned (hear memory .command packet).effects =
            "IN: " ++ command.name := by
          rw [hear, hearCommand_carried packet command named, String.empty_append,
            Effect.penned_note]
          exact String.empty_append
        rw [begins]
        by_cases list : command = .listAvailable
        · subst list
          exact .list named
        · rw [if_neg list]
          exact .file list named
  | list named =>
      simp only [Phase.follow?, Option.ite_none_right_eq_some, Option.some.injEq] at follows
      exact absurd follows.2.symm inside
  | @file command first forFile named =>
      simp only [Phase.follow?] at follows
      split at follows
      · cases follows
      · rename_i pathname found
        cases follows
        obtain ⟨nonempty, placed⟩ := (Packet.field_eq_ok_iff packet "pathname" pathname).mp found
        let call : FileCall := ⟨command, pathname, [], [], forFile, nonempty, by simp⟩
        have noted : "IN: " ++ command.name ++
            Effect.penned (hear memory (.pathname command) packet).effects = call.entry := by
          simp only [hear, hearPathname, found, Effect.penned_note]
          simp [call, FileCall.entry, Remark.text, Remark.texts, Remark.fieldText,
            String.append_assoc]
        rw [noted]
        exact .details call (.question named placed .nil)
  | @details call packets opened =>
      simp only [Phase.follow?] at follows
      split at follows
      · cases follows
      · rename_i flushed
        cases follows
        obtain rfl := (Packet.line?_eq_none_iff packet).mp flushed
        rw [hear, hearDetail_flush_penned, String.append_empty]
        exact .content call.silent (call.opened_silent packets opened)
      · rename_i line carried
        rw [Option.ite_none_right_eq_some] at follows
        obtain ⟨known, same⟩ := follows
        cases same
        rw [hear, hearDetail_penned _ _ _ _ _ line carried, ← call.entry_further line known,
          ← call.mayDelay_further line known]
        exact .details (call.further line known)
          (call.opened_further packets opened line known packet carried)
  | @content call packets opened =>
      cases packet with
      | data payload =>
          cases follows
          have more := Unfinished.content (call.longer payload)
            (call.opened_longer packets opened payload)
          rw [call.payload_longer payload] at more
          have silent : Effect.penned (hear memory (.content call.command call.pathname
              call.payload.toArray) (.data payload)).effects = "" := rfl
          rw [silent, String.append_empty]
          simpa [FileCall.longer, FileCall.entry] using more
      | flush =>
          cases follows
          exact absurd rfl inside

/-- The answer completes the record of its request. -/
theorem conclude_penned (before : Memory) (call : FileCall) :
    call.entry ++ Effect.penned (conclude (before.allowing call) call.request).effects =
      (before.turn (.file call)).record := by
  have decided := (before.allowing call).replyTo_eq call.request
  have noted : (conclude (before.allowing call) call.request).effects.flatMap Effect.remarks =
      .received call.payload.length :: (before.turn (.file call)).reply.remarks := by
    simp only [Memory.turn, decided]
    unfold conclude
    cases found : (before.allowing call).answer? call.request with
    | none => rfl
    | some answer =>
        exact congrArg (List.cons _) (fileReply_remarks (before.allowing call) call.request answer)
  have parts : (before.turn (.file call)).remarks =
      call.noted ++ .received call.payload.length :: (before.turn (.file call)).reply.remarks :=
    List.append_assoc call.noted [_] _
  rw [Turn.record, parts, Effect.penned, noted, List.map_append, String.join_append,
    call.noted_text]

theorem listReply_penned (memory : Memory) :
    "IN: list_available_blobs" ++ Effect.penned (listReply memory) =
      (memory.turn .list).record := by
  have parts : (memory.turn .list).remarks =
      .heard .listAvailable :: (Reply.listed memory.waitlist.announcement).remarks := rfl
  rw [Turn.record, parts, Effect.penned, listReply_remarks, List.map_cons, String.join_cons]
  rfl

/-- What is written behind the last record may come to this: the part of a request that is not
complete, the record of a complete one, or the line that closes the session. -/
inductive Entry (before : Memory) (begun : List Packet) : String → Prop
  | cut {phase : Phase} {packets : List Packet} {text : String} (begins : packets <+: begun)
      (unfinished : Unfinished phase packets text) : Entry before begun text
  | turn (call : Call) (spelled : call.Spelled begun) : Entry before begun (before.turn call).record
  | stop (nothing : begun = []) : Entry before begun "STOP\n"

/-- What is known when the effects of a reaction have been carried out and another packet is asked
for: it goes on with the request, or the request has been answered. -/
inductive Resumes (before : Memory) (begun : List Packet) : Phase → Memory → String → Prop
  | inside {phase : Phase} {memory : Memory} {text : String}
      (held : Held before phase begun memory) (unfinished : Unfinished phase begun text) :
      Resumes before begun phase memory text
  | answered (call : Call) (spelled : call.Spelled begun)
      (goes : (before.turn call).failure? = none) :
      Resumes before begun .command (before.turn call).memory (before.turn call).record

/-- How much of an entry stands in the journal, since `before` was remembered. -/
inductive Pens (before : Memory) (begun : List Packet) : Activity Phase → Memory → String → Prop
  | asking {phase : Phase} {memory : Memory} {current : String}
      (held : Held before phase begun memory) (unfinished : Unfinished phase begun current) :
      Pens before begun (.reading phase) memory current
  | reacting {effects : List Effect} {next : Next Phase} {memory : Memory} {current text : String}
      (entry : Entry before begun text) (whole : current ++ Effect.penned effects = text)
      (onward : ∀ phase, next = .await phase →
        Resumes before begun phase (Effect.recallAll memory effects) text) :
      Pens before begun (.reacting effects next) memory current
  | ended {failure? : Option Failure} {memory : Memory} {current rest text : String}
      (entry : Entry before begun text) (whole : current ++ rest = text) :
      Pens before begun (.ended failure?) memory current

theorem held_content (before memory : Memory) (call : FileCall) (packets : List Packet)
    (opened : call.Opened packets)
    (held : Held before (.content call.command call.pathname call.payload.toArray)
      (packets ++ .flush :: call.pieces.map .data) memory) : memory = before.allowing call := by
  have spelled := Call.spelled_opened call packets opened
  generalize phase : Phase.content call.command call.pathname call.payload.toArray = now at held
  generalize heard : packets ++ .flush :: call.pieces.map .data = since at held
  cases held with
  | question _ early => exact absurd phase.symm (early _ _ _)
  | @content other front opened' =>
      -- The packets and the flush behind them spell one call only.
      have again := Call.spelled_opened other front opened'
      have same : packets ++ .flush :: (call.pieces.map .data ++ [.flush]) =
          front ++ .flush :: (other.pieces.map .data ++ [.flush]) := by
        simpa using congrArg (· ++ [Packet.flush]) heard
      rw [← same, ← List.append_nil (packets ++ _)] at again
      rw [Call.file.inj ((Call.file call).spelled_unambiguous _ _ _ spelled again).1]

theorem pens_packet (before memory : Memory) (phase : Phase) (packets : List Packet)
    (packet : Packet) (current : String) (held : Held before phase packets memory)
    (unfinished : Unfinished phase packets current) :
    Pens before (packets ++ [packet])
      (.reacting (hear memory phase packet).effects (hear memory phase packet).next) memory
      current := by
  have further := fun next => unfinished_follow phase next packets packet current unfinished memory
  have hearing := hear_hearing memory phase packet
  generalize hear memory phase packet = reaction at hearing further
  have stuck : Entry before (packets ++ [packet]) current :=
    .cut (List.prefix_append packets [packet]) unfinished
  cases hearing with
  | noted remarks follows inside idle =>
      have more := further _ follows inside
      apply Pens.reacting (.cut List.prefix_rfl more) rfl
      rintro _ ⟨⟩
      rw [Effect.recallAll_notes]
      exact .inside (held_noted before memory phase _ packets packet held follows inside idle) more
  | allowed command pathname =>
      have more := further _ rfl (by simp)
      apply Pens.reacting (.cut List.prefix_rfl more) rfl
      rintro _ ⟨⟩
      cases held with
      | question begun =>
          exact .inside (held_silent before command pathname true packets begun) more
  | listed =>
      cases held with
      | question begun =>
          have spelled := begun_listEnd packets begun
          cases unfinished with
          | list named =>
              apply Pens.reacting (.turn .list spelled) (listReply_penned before)
              rintro _ ⟨⟩
              rw [listReply_recall]
              exact .answered .list spelled rfl
  | concluded command pathname received =>
      cases unfinished with
      | @content call front opened =>
          obtain rfl := held_content before memory call front opened held
          have spelled := Call.spelled_opened call front opened
          obtain ⟨remembered, _, onward⟩ := conclude_turn before call
          apply Pens.reacting (.turn (.file call) (by simpa using spelled))
            (conclude_penned before call)
          intro phase awaits
          have next := onward.symm.trans awaits
          cases goes : (before.turn (.file call)).failure? with
          | some failure =>
              rw [goes] at next
              cases next
          | none =>
              rw [goes] at next
              cases next
              have after : Effect.recallAll (before.allowing call)
                  (conclude (before.allowing call) call.request).effects =
                    (before.turn (.file call)).memory := remembered
              exact after ▸ .answered (.file call) (by simpa using spelled) goes
  | unknown | objected => exact .reacting stuck String.append_empty (by simp)

/-! ### A run -/

/-- The journal holds `text` since the run began: the records of the requests that have been
answered, and what there is of the next entry. -/
def Stands (start : Memory) (now : Instant Phase) (text : String) : Prop :=
  ∃ turns before begun memory current, Run start turns memory ∧
    Call.AllSpelled (turns.map Turn.call) before ∧ now.heard = before ++ begun ∧
    text = String.join (turns.map Turn.record) ++ current ∧
    Pens memory begun now.activity now.desk.memory current

theorem pens_closed (before memory : Memory) (phase : Phase) (begun : List Packet)
    (current : String) (unfinished : Unfinished phase begun current) :
    Pens before begun (.reacting (hangUp phase).effects (hangUp phase).next) memory current := by
  have cut : Entry before begun current := .cut List.prefix_rfl unfinished
  cases unfinished with
  | nothing => exact .reacting (.stop rfl) rfl (by simp [hangUp, Farewell.next])
  | list | file | details | content =>
      exact .reacting cut String.append_empty (by simp [hangUp, Farewell.next])

theorem step_stands (start : Memory) (now later : Instant Phase) (text : String)
    (step : dialogue.Step now later) (stands : Stands start now text) :
    Stands start later (text ++ Journal.Act.join now.acts) := by
  obtain ⟨turns, before, begun, memory, current, run, spelled, heard, rfl, pens⟩ := stands
  cases step with
  | fault read =>
      cases pens with
      | asking held unfinished =>
          exact ⟨turns, before, begun, memory, current, run, spelled, heard, String.append_empty,
            .ended (.cut List.prefix_rfl unfinished) String.append_empty⟩
  | @closed phase =>
      cases pens with
      | asking held unfinished =>
          exact ⟨turns, before, begun, memory, current, run, spelled, heard, String.append_empty,
            pens_closed memory _ phase begun current unfinished⟩
  | @packet phase earlier source rest desk packet read =>
      cases pens with
      | asking held unfinished =>
          refine ⟨turns, before, begun ++ [packet], memory, current, run, spelled, ?_,
            String.append_empty, pens_packet memory _ phase begun packet current held unfinished⟩
          exact (congrArg (· ++ [packet]) heard).trans (List.append_assoc before begun [packet])
  | @performed effect effects next earlier source desk after went =>
      cases pens with
      | reacting entry whole onward =>
          have remembered := effect.perform_memory desk
          rw [went] at remembered
          rw [Effect.penned_cons effect effects, ← String.append_assoc] at whole
          refine ⟨turns, before, begun, memory, current ++ Effect.penned [effect], run, spelled,
            heard, ?_, .reacting entry whole ?_⟩
          · rw [Instant.acts, effect.text_acts, String.append_assoc]
          · intro phase awaits
            have resumes := onward phase awaits
            rwa [Effect.recallAll, List.foldl_cons, ← remembered] at resumes
  | @halted effect effects next earlier source desk after failure went =>
      cases pens with
      | reacting entry whole onward =>
          rw [Effect.penned_cons effect effects, ← String.append_assoc] at whole
          refine ⟨turns, before, begun, memory, current ++ Effect.penned [effect], run, spelled,
            heard, ?_, .ended entry whole⟩
          rw [Instant.acts, effect.text_acts, String.append_assoc]
  | @settled next earlier source desk =>
      cases pens with
      | @reacting _ _ _ _ text entry whole onward =>
          obtain rfl : current = text := String.append_empty.symm.trans whole
          cases next with
          | finish | fail =>
              exact ⟨turns, before, begun, memory, current, run, spelled, heard,
                String.append_empty, .ended entry String.append_empty⟩
          | await phase =>
              have resumes : Resumes memory begun phase desk.memory current := onward phase rfl
              generalize left : desk.memory = remembered at resumes
              cases resumes with
              | inside held unfinished =>
                  subst left
                  exact ⟨turns, before, begun, memory, current, run, spelled, heard,
                    String.append_empty, .asking held unfinished⟩
              -- The record is complete, and the next one begins with nothing.
              | answered call complete goes =>
                  refine ⟨turns ++ [memory.turn call], before ++ begun, [], desk.memory, "",
                    left ▸ run.snoc call goes, ?_, ?_, ?_, .asking (.question .nothing ?_) .nothing⟩
                  · rw [List.map_append, List.map_singleton, memory.turn_call call]
                    exact Call.allSpelled_append _ call before begun spelled complete
                  · rw [List.append_nil]
                    exact heard
                  · rw [List.map_append, String.join_append]
                    simp [Instant.acts, Journal.Act.join]
                  · simp

/-- The run has come to this many complete records and to the beginning of an entry. -/
theorem traces_stands (start : Desk) (source : Source) (past : List (Instant Phase))
    (now : Instant Phase)
    (traces : dialogue.Traces (.start .command source start) past now) :
    Stands start.memory now (Journal.Act.join (past.flatMap Instant.acts)) := by
  induction traces with
  | here =>
      exact ⟨[], [], [], start.memory, "", .none _, .none, rfl, rfl,
        .asking (.question .nothing (by simp)) .nothing⟩
  | @onward past middle later before step ih =>
      rw [List.flatMap_append, List.flatMap_singleton, Journal.Act.join_append]
      exact step_stands _ middle later _ step ih

/-- Between the calls that a step makes the entry goes on from one to the next. -/
theorem pens_part (before : Memory) (begun : List Packet) (now : Instant Phase)
    (current : String) (pens : Pens before begun now.activity now.desk.memory current)
    (part : List Journal.Act) (begins : part <+: now.acts) :
    ∃ rest text, Entry before begun text ∧ current ++ Journal.Act.join part ++ rest = text := by
  have idle (none : now.acts = []) : current ++ Journal.Act.join part = current := by
    rw [none, List.prefix_nil] at begins
    rw [begins]
    exact String.append_empty
  obtain ⟨activity, heard, source, desk⟩ := now
  cases pens with
  | asking held unfinished =>
      refine ⟨"", current, .cut List.prefix_rfl unfinished, ?_⟩
      rw [idle rfl, String.append_empty]
  | ended entry whole => exact ⟨_, _, entry, (idle rfl).symm ▸ whole⟩
  | @reacting effects next _ _ text entry whole onward =>
      cases effects with
      | nil => exact ⟨_, _, entry, (idle rfl).symm ▸ whole⟩
      | cons effect effects =>
          obtain ⟨more, acts⟩ := begins
          refine ⟨Journal.Act.join more ++ Effect.penned effects, text, entry, ?_⟩
          have parts := congrArg Journal.Act.join acts
          rw [Journal.Act.join_append, Instant.acts, effect.text_acts] at parts
          rw [← whole, Effect.penned_cons effect effects, ← parts]
          simp only [String.append_assoc]

theorem unfinished_line (line : String) :
    Journal.unfinished (Text.bytes (line ++ "\n")) = [] := by
  have broken : Text.newline ∈ Text.bytes "\n" := by decide
  rw [Text.bytes_append, Journal.unfinished_append_lines _ _ broken]
  rfl

theorem run_unfinished (start memory : Memory) (turns : List Turn) (run : Run start turns memory) :
    Journal.unfinished (Text.bytes (String.join (turns.map Turn.record))) = [] := by
  induction run with
  | none memory => rfl
  | @next memory _ past call goes _ ih =>
      have record := (Turn.record_quotes memory call goes).1
      rw [List.map_cons, String.join_cons, Text.bytes_append,
        Journal.unfinished_append_of_finished _ _ (record ▸ unfinished_line _)]
      exact ih

end Exchange

/-! ### The greeting -/

namespace Instant

variable {Phase : Type}

/-- None of the effects to come is noted. -/
def Mute (now : Instant Phase) : Prop :=
  ∀ effects next, now.activity = .reacting effects next → ∀ effect ∈ effects, effect.acts = []

theorem acts_of_mute (now : Instant Phase) (mute : now.Mute) : now.acts = [] := by
  obtain ⟨activity, heard, source, desk⟩ := now
  cases activity with
  | reading | ended => rfl
  | reacting effects next =>
      cases effects with
      | nil => rfl
      | cons effect effects => exact mute _ next rfl effect List.mem_cons_self

end Instant

namespace Greeting

theorem confirm_mute (heard : List Capability) (memory : Memory) (offered rest : List Capability) :
    ∀ effect ∈ (confirm heard memory offered rest).effects, effect.acts = [] := by
  induction rest with
  | nil => exact List.forall_mem_cons.mpr ⟨rfl, List.forall_mem_singleton.mpr rfl⟩
  | cons capability rest ih =>
      unfold confirm
      split
      · exact List.forall_mem_cons.mpr ⟨rfl, ih⟩
      · exact List.forall_mem_nil _

theorem hear_mute (required offered : List Capability) (memory : Memory) (phase : Phase)
    (packet : Packet) : ∀ effect ∈ (hear required offered memory phase packet).effects,
      effect.acts = [] := by
  unfold hear
  cases phase with
  | identity | version =>
      simp only [expect]
      split
      · exact List.forall_mem_nil _
      · split <;> exact List.forall_mem_nil _
  | versionEnd =>
      dsimp only
      split
      · exact List.forall_mem_nil _
      · simp [hello, Effect.acts, Effect.remarks, Effect.say]
  | capabilities heard =>
      dsimp only
      split
      · exact List.forall_mem_nil _
      · unfold conclude
        split
        · exact List.forall_mem_nil _
        · exact confirm_mute heard memory offered offered
      · split
        · split <;> exact List.forall_mem_nil _
        · exact List.forall_mem_nil _

variable {required offered : List Capability}

theorem step_mute (now later : Instant Phase) (step : (dialogue required offered).Step now later)
    (mute : now.Mute) : later.Mute := by
  rintro effects next reacts
  cases step with
  | fault | halted => cases reacts
  | closed =>
      cases reacts
      exact List.forall_mem_nil _
  | packet =>
      cases reacts
      exact hear_mute required offered _ _ _
  | performed =>
      cases reacts
      exact (List.forall_mem_cons.mp (mute _ _ rfl)).2
  | @settled next' => cases next' <;> cases reacts

theorem traces_mute (start now : Instant Phase) (past : List (Instant Phase))
    (traces : (dialogue required offered).Traces start past now) (mute : start.Mute) :
    past.flatMap Instant.acts = [] ∧ now.Mute := by
  induction traces with
  | here => exact ⟨rfl, mute⟩
  | @onward past middle later before step ih =>
      rw [List.flatMap_append, ih.1, List.flatMap_singleton, middle.acts_of_mute ih.2]
      exact ⟨rfl, step_mute middle later step ih.2⟩

end Greeting

/-! ### A session -/

namespace Service

theorem noting_follows (remark : Remark) (source : Source) (desk : Desk)
    (free : desk.journal.file.room = none) :
    ∃ after, noting remark source desk = ⟨none, source, after⟩ ∧
      after.journal.file.room = none ∧
      desk.journal.buffer.Follows remark.acts after.journal.buffer := by
  obtain ⟨reached, went, room, _⟩ := (Journal.adds_note remark desk.journal free).on
  refine ⟨{ desk with journal := reached }, ?_, room,
    Journal.note_follows remark desk.journal reached free went⟩
  rw [noting, Effect.perform, went]
  rfl

variable (setup : Setup) (source : Source) (sink : Sink) (journal : Journal)

theorem greets_follows (now : Instant Greeting.Phase) (free : journal.file.room = none)
    (greets : Greets setup source sink journal now) :
    now.desk.journal.file.room = none ∧ now.acts = [] ∧
      journal.buffer.Follows Remark.started.acts now.desk.journal.buffer := by
  obtain ⟨desk, opened, steps⟩ := greets
  obtain ⟨after, noted, room, started⟩ :=
    noting_follows .started source ⟨setup.memory, sink, journal⟩ free
  obtain rfl : desk = after := congrArg Ending.desk (opened.symm.trans noted)
  obtain ⟨past, traces⟩ := (Dialogue.steps_iff_traces _ _).mp steps
  obtain ⟨silent, mute⟩ := Greeting.traces_mute _ now past traces (by rintro _ _ ⟨⟩)
  obtain ⟨onward, follows⟩ := Dialogue.traces_follows _ now past traces room
  rw [silent] at follows
  have whole := started.trans follows
  rw [List.append_nil] at whole
  exact ⟨onward, now.acts_of_mute mute, whole⟩

theorem greeted_follows (free : journal.file.room = none)
    (goes : (greeted setup source sink journal).failure? = none) :
    (greeted setup source sink journal).desk.journal.file.room = none ∧
      journal.buffer.Follows (Remark.started.acts ++ Remark.greeted.acts)
        (greeted setup source sink journal).desk.journal.buffer := by
  obtain ⟨desk, opened, _⟩ := noting_follows .started source ⟨setup.memory, sink, journal⟩ free
  obtain ⟨last, steps, ended⟩ := Dialogue.steps_converse
    (Greeting.dialogue requiredCapabilities setup.offered) .identity [] source desk
  have here := greets_follows setup source sink journal last free ⟨desk, opened, steps⟩
  have left : (greet requiredCapabilities setup.offered source desk).desk = last.desk :=
    last.desk_of_ending? _ ended
  have whole : greeted setup source sink journal =
      (greet requiredCapabilities setup.offered source desk).andThen (noting .greeted) := by
    rw [greeted, opened]
    rfl
  rw [whole] at goes ⊢
  unfold Ending.andThen at goes ⊢
  cases failed : (greet requiredCapabilities setup.offered source desk).failure? with
  | some failure =>
      simp only [failed] at goes
      cases goes
  | none =>
      dsimp only
      rw [left]
      obtain ⟨after, noted, room, follows⟩ := noting_follows .greeted
        (greet requiredCapabilities setup.offered source desk).source last.desk here.1
      rw [noted]
      exact ⟨room, here.2.2.trans follows⟩

/-- Whenever a session is about to read a command, the file holds what was in it from the start, the
two lines of the opening and the record of each request so far, and nothing waits in front of it. At
any other moment, also between two writes of one remark, nothing is missing but the end of the entry
that is being written. This goes for any line buffer, and the journal is one. -/
theorem attend_durable (initial : Bytes) (starts : journal.buffer = ⟨initial, []⟩)
    (free : journal.file.room = none) :
    let opened := greeted setup source sink journal
    (∀ now, Greets setup source sink journal now → now.acts = [] ∧
      LineBuffer.Follows ⟨initial, []⟩ Remark.started.acts now.desk.journal.buffer ∧
      ∀ buffer, LineBuffer.Follows ⟨initial, []⟩ Remark.started.acts buffer →
        buffer = ⟨initial ++ Text.bytes "START\n", []⟩) ∧
    (opened.failure? = none → ∀ past now,
      Exchange.dialogue.Traces (.start .command opened.source opened.desk) past now →
      let acts := Remark.started.acts ++ Remark.greeted.acts ++ past.flatMap Instant.acts
      LineBuffer.Follows ⟨initial, []⟩ acts now.desk.journal.buffer ∧
      ∃ turns before begun memory, Run opened.desk.memory turns memory ∧
        Call.AllSpelled (turns.map Turn.call) before ∧ now.heard = before ++ begun ∧
        let complete :=
          "START\ninit handshake complete\n" ++ String.join (turns.map Turn.record)
        (now.activity = .reading .command → begun = [] ∧
          ∀ buffer, LineBuffer.Follows ⟨initial, []⟩ acts buffer →
            buffer = ⟨initial ++ Text.bytes complete, []⟩) ∧
        ∀ part, part <+: now.acts → ∃ current rest entry,
          Exchange.Entry memory begun entry ∧ current ++ rest = entry ∧
          ∀ buffer, LineBuffer.Follows ⟨initial, []⟩ (acts ++ part) buffer →
            buffer.Holds initial complete current) := by
  intro opened
  constructor
  · intro now greets
    obtain ⟨_, silent, follows⟩ := greets_follows setup source sink journal now free greets
    refine ⟨silent, starts ▸ follows, ?_⟩
    intro buffer follows
    have holds := LineBuffer.follows_holds initial _ buffer follows "START\n" "" (by decide)
      (by decide)
    exact holds.settled
  · intro goes past now traces acts
    obtain ⟨room, ready⟩ := greeted_follows setup source sink journal free goes
    have further := (Dialogue.traces_follows _ now past traces room).2
    obtain ⟨turns, before, begun, memory, current, run, spelled, heard, text, pens⟩ :=
      Exchange.traces_stands opened.desk opened.source past now traces
    refine ⟨starts ▸ ready.trans further, turns, before, begun, memory, run, spelled, heard, ?_⟩
    intro complete
    have opening : Journal.Act.join (Remark.started.acts ++ Remark.greeted.acts) =
        "START\ninit handshake complete\n" := by
      decide
    have lines : Journal.unfinished (Text.bytes complete) = [] := by
      rw [Text.bytes_append, Journal.unfinished_append_of_finished _ _ (by decide)]
      exact Exchange.run_unfinished _ _ turns run
    have holds (part : List Journal.Act) (buffer : LineBuffer)
        (follows : LineBuffer.Follows ⟨initial, []⟩ (acts ++ part) buffer) :
        buffer.Holds initial complete (current ++ Journal.Act.join part) := by
      apply LineBuffer.follows_holds initial _ buffer follows _ _ _ lines
      rw [Journal.Act.written_eq_join, Journal.Act.join_append, Journal.Act.join_append, opening,
        text]
      simp only [complete, String.append_assoc]
    constructor
    · intro reading
      rw [reading] at pens
      cases pens with
      | asking held unfinished =>
          cases unfinished
          refine ⟨rfl, fun buffer follows => (holds [] buffer ?_).settled⟩
          rwa [List.append_nil]
    · intro part begins
      obtain ⟨rest, entry, goesOn, whole⟩ :=
        Exchange.pens_part memory begun now current pens part begins
      exact ⟨_, rest, entry, goesOn, whole, holds part⟩

-- A newline in the pathname sends the first half of a record on early.
theorem attend_durable_broken :
    let setup : Setup := { offered := [⟨"clean"⟩] }
    let source : Source := [.bytes Greeting.driverGreeting, .pause,
      .bytes (Packet.encodeAll (Exchange.brokenSession.flatMap Call.packets))]
    let journal : Journal :=
      { path := "filter.log", file := { accepted := (Text.bytes "earlier").toArray } }
    let opened := greeted setup source {} journal
    journal.buffer = ⟨Text.bytes "earlier", []⟩ ∧ journal.file.room = none ∧ ∃ past now,
      Exchange.dialogue.Traces (.start .command opened.source opened.desk) past now ∧
      now.activity = .reading .command ∧ now.heard.length = 5 ∧
      ∀ buffer, LineBuffer.Follows ⟨Text.bytes "earlier", []⟩
          (Remark.started.acts ++ Remark.greeted.acts ++ past.flatMap Instant.acts) buffer →
        buffer.waiting = [] ∧ buffer.file = Text.bytes "earlierSTART\ninit handshake complete\n" ++
          Text.bytes "IN: clean a\nIN: smudge b 1 [OK] -- OUT: 1 . [OK]\n" := by
  intro setup source journal opened
  refine ⟨rfl, rfl, ?_⟩
  have goes : opened.failure? = none := by decide +kernel
  have walks : (Exchange.dialogue.walk? 20 (.start .command opened.source opened.desk)).map
      (fun now => (now.activity.phase?, now.heard.length, now.desk.journal.buffer.file)) =
        some (some .command, 5, Text.bytes "earlierSTART\ninit handshake complete\n" ++
          Text.bytes "IN: clean a\nIN: smudge b 1 [OK] -- OUT: 1 . [OK]\n") := by
    decide +kernel
  obtain ⟨now, walked, seen⟩ := Option.map_eq_some_iff.mp walks
  obtain ⟨phase, seen⟩ := Prod.mk.inj seen
  obtain ⟨heard, written⟩ := Prod.mk.inj seen
  have reading := (Activity.phase?_eq_some_iff _ _).mp phase
  obtain ⟨past, traces⟩ :=
    (Dialogue.steps_iff_traces _ _).mp (Dialogue.steps_walk? 20 _ now walked)
  obtain ⟨own, turns, before, begun, memory, _, _, _, ready, _⟩ :=
    (attend_durable setup source {} journal _ rfl rfl).2 goes past now traces
  have settled := (ready reading).2
  refine ⟨past, now, traces, reading, heard, fun buffer follows => ?_⟩
  rw [settled buffer follows, ← settled _ own]
  exact ⟨congrArg LineBuffer.waiting (settled _ own), written⟩

end Service

end ContentFilter
