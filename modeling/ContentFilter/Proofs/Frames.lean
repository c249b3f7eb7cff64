import ContentFilter.Proofs.Commuting
import ContentFilter.Proofs.Completed

/-!
What a request leaves alone. `FileCall.Frames` and `Memory.Polled` say it of the memory before and
behind one request, `Results` tells which memories there can be behind it, however far it has come
to be answered. `Tends` follows a run from the first packet of a request to the end of its answer,
and `step_within` says that a run gets no further without hearing more.
-/

namespace ContentFilter

/-! ### What is left alone -/

/-- What a request for one file leaves of the memory. Only the stage of its own ticket and the abort
of its own command can be others than before, or its pathname is new. -/
structure FileCall.Frames (call : FileCall) (before after : Memory) : Prop where
  capabilities : after.capabilities = before.capabilities
  delaysAll : after.delaysAll = before.delaysAll
  others : ∀ pathname, pathname ≠ call.pathname →
    after.waitlist.find? pathname = before.waitlist.find? pathname
  remaining : ∀ pathname ticket, before.waitlist.find? pathname = some ticket →
    ∃ later, after.waitlist.find? pathname = some later ∧ later.remaining = ticket.remaining
  aborted : ∀ command, command ≠ call.command → after.aborted command = before.aborted command
  sticks : ∀ command, before.aborted command = true → after.aborted command = true

/-- What a list query leaves of the memory. It counts down the tickets that have been asked for and
are not at zero, and it does nothing else. -/
structure Memory.Polled (before after : Memory) : Prop where
  capabilities : after.capabilities = before.capabilities
  delaysAll : after.delaysAll = before.delaysAll
  pathnames : after.waitlist.pathnames = before.waitlist.pathnames
  stages : ∀ pathname, (after.waitlist.find? pathname).map Ticket.stage =
    (before.waitlist.find? pathname).map Ticket.stage
  remaining : ∀ pathname ticket, before.waitlist.find? pathname = some ticket →
    ∃ later, after.waitlist.find? pathname = some later ∧
      if ticket.isAsked ∧ 0 < ticket.remaining then later.remaining + 1 = ticket.remaining
      else later.remaining = ticket.remaining
  aborted : after.aborted = before.aborted

def Call.Frames : Call → Memory → Memory → Prop
  | .list => Memory.Polled
  | .file call => call.Frames

namespace FileCall

theorem Frames.trans {call : FileCall} {first second third : Memory}
    (here : call.Frames first second) (there : call.Frames second third) :
    call.Frames first third where
  capabilities := there.capabilities.trans here.capabilities
  delaysAll := there.delaysAll.trans here.delaysAll
  others := fun pathname other => (there.others pathname other).trans (here.others pathname other)
  remaining := by
    intro pathname ticket found
    rcases here.remaining pathname ticket found with ⟨middle, met, same⟩
    rcases there.remaining pathname middle met with ⟨last, left, still⟩
    exact ⟨last, left, still.trans same⟩
  aborted := fun command other => (there.aborted command other).trans (here.aborted command other)
  sticks := fun command before => there.sticks command (here.sticks command before)

-- A ticket is advanced or not, and its countdown goes with it.
theorem getD_remaining (change : Ticket → Option Ticket) (ticket : Ticket)
    (keeps : ∀ later, change ticket = some later → later.remaining = ticket.remaining) :
    ((change ticket).getD ticket).remaining = ticket.remaining := by
  cases changed : change ticket with
  | none => rfl
  | some later => exact keeps later changed

theorem frames_allowing (call : FileCall) (memory : Memory) :
    call.Frames memory (memory.allowing call) := by
  rcases memory.allowing_waitlist call with ⟨waitlist, same⟩
  constructor
  case capabilities => rw [same]
  case delaysAll => rw [same]
  case aborted =>
    intro command _
    rw [same]
  case sticks =>
    intro command before
    rwa [same]
  case others =>
    intro pathname other
    rw [Memory.find?_allowing, decide_eq_false other.symm]
    rfl
  case remaining =>
    intro pathname ticket found
    rw [Memory.find?_allowing, found]
    unfold Ticket.permitted
    split
    · refine ⟨_, rfl, getD_remaining Ticket.ask? ticket ?_⟩
      intro later asked
      rcases (Ticket.ask?_eq_some_iff ticket later).mp asked with ⟨count, rfl, rfl⟩
      rfl
    · exact ⟨ticket, rfl, rfl⟩

theorem frames_settle (call : FileCall) (memory : Memory) (reply : Reply) :
    call.Frames memory (memory.settle call.request reply) := by
  constructor
  case capabilities =>
    cases reply with
    | answered answer => cases answer <;> rfl
    | listed | unsupported => rfl
  case delaysAll =>
    cases reply with
    | answered answer => cases answer <;> rfl
    | listed | unsupported => rfl
  case aborted =>
    intro command other
    rw [Bool.eq_iff_iff, Memory.aborted_settle_iff]
    constructor
    · rintro (before | ⟨_, own⟩)
      · exact before
      · exact absurd own.symm other
    · exact .inl
  case sticks =>
    intro command before
    exact (memory.aborted_settle_iff call.request reply command).mpr (.inl before)
  case others =>
    intro pathname other
    rw [Memory.find?_settle, request_pathname, if_neg other]
  case remaining =>
    intro pathname ticket found
    rw [Memory.find?_settle, found]
    split
    · unfold Ticket.settled
      split
      · rename_i output
        refine ⟨_, rfl, getD_remaining (Ticket.fill? output) ticket ?_⟩
        intro later filled
        rcases (Ticket.fill?_eq_some_iff output ticket later).mp filled with ⟨count, rfl, rfl⟩
        rfl
      · exact ⟨ticket, rfl, rfl⟩
    · exact ⟨ticket, rfl, rfl⟩

end FileCall

theorem Memory.polled_countDown (memory : Memory) : memory.Polled memory.countDown := by
  constructor
  case capabilities => rfl
  case delaysAll => rfl
  case aborted => rfl
  case pathnames => exact memory.waitlist.pathnames_countDown
  case stages =>
    intro pathname
    rw [countDown, Waitlist.find?_countDown, Option.map_map]
    congr 1
    funext ticket
    exact ticket.countDown_stage
  case remaining =>
    intro pathname ticket found
    rw [countDown, Waitlist.find?_countDown, found]
    refine ⟨_, rfl, ?_⟩
    unfold Ticket.countDown
    by_cases asked : ticket.isAsked = true
    · by_cases more : 0 < ticket.remaining
      · simp only [asked, more, and_self, ↓reduceIte]
        omega
      · simp only [asked, more, and_false, ↓reduceIte]
        omega
    · simp [asked]

/-! ### One request in a run -/

namespace Exchange

/-- The memory that there can be behind a complete request: it has been answered, or the run has
ended before what the answer leaves was remembered. -/
inductive Results (before : Memory) : Call → Memory → Prop
  | counted : Results before .list before.countDown
  | allowed (call : FileCall) : Results before (.file call) (before.allowing call)
  | settled (call : FileCall) (reply : Reply) :
      Results before (.file call) ((before.allowing call).settle call.request reply)

theorem results_frames (before after : Memory) (call : Call)
    (results : Results before call after) : call.Frames before after := by
  cases results with
  | counted => exact before.polled_countDown
  | allowed call => exact call.frames_allowing before
  | settled call reply => exact (call.frames_allowing before).trans (call.frames_settle _ reply)

theorem conclude_remembered (memory after : Memory) (request : Request)
    (member : .remember after ∈ (conclude memory request).effects) :
    ∃ reply, after = memory.settle request reply := by
  unfold conclude at member
  split at member
  · simp at member
  · rename_i answer _
    rcases List.mem_cons.mp member with noted | remembered
    · cases noted
    · refine ⟨.answered answer, ?_⟩
      rw [Memory.settle_answered]
      exact fileReply_remembered memory after request answer remembered

theorem conclude_awaits (memory : Memory) (request : Request) (phase : Phase)
    (awaits : (conclude memory request).next = .await phase) : phase = .command := by
  unfold conclude at awaits
  split at awaits
  · cases awaits
  · dsimp only at awaits
    split at awaits <;> cases awaits
    rfl

/-- How far a run has come with the first request that it has heard since `before`. -/
inductive Tends (before : Memory) : List Packet → Activity Phase → Memory → Prop
  | asking {packets : List Packet} {phase : Phase} {memory : Memory}
      (held : Held before phase packets memory) : Tends before packets (.reading phase) memory
  | hearing {packets : List Packet} {effects : List Effect} {next : Next Phase} {memory : Memory}
      (incomplete : ∀ call : Call, ¬call.Spelled packets)
      (onward : ∀ phase, next = .await phase →
        Held before phase packets (Effect.recallAll memory effects)) :
      Tends before packets (.reacting effects next) memory
  | answering {packets : List Packet} {effects : List Effect} {next : Next Phase}
      {memory : Memory} (call : Call) (spelled : call.Spelled packets)
      (each : ∀ after, .remember after ∈ effects → Results before call after)
      (now : Results before call memory ∨ ∃ after rest, effects = .remember after :: rest)
      (onward : ∀ phase, next = .await phase → phase = .command) :
      Tends before packets (.reacting effects next) memory
  | answered {packets : List Packet} {memory : Memory} (call : Call)
      (spelled : call.Spelled packets) (results : Results before call memory) :
      Tends before packets (.reading .command) memory
  | ended {packets : List Packet} {failure? : Option Failure} {memory : Memory}
      (results : ∀ call : Call, call.Spelled packets → Results before call memory) :
      Tends before packets (.ended failure?) memory

theorem results_unique (before memory : Memory) (packets : List Packet) (call other : Call)
    (spelled : call.Spelled packets) (again : other.Spelled packets)
    (results : Results before call memory) : Results before other memory := by
  rw [← List.append_nil packets] at again
  rw [(call.spelled_unambiguous other packets [] spelled again).1]
  exact results

theorem tends_packet (before memory : Memory) (phase : Phase) (packets : List Packet)
    (packet : Packet) (held : Held before phase packets memory) :
    Tends before (packets ++ [packet])
      (.reacting (hear memory phase packet).effects (hear memory phase packet).next) memory := by
  have hearing := hear_hearing memory phase packet
  generalize hear memory phase packet = reaction at hearing
  cases hearing with
  | noted remarks follows inside idle =>
      have further := held_noted before memory phase _ packets packet held follows inside idle
      apply Tends.hearing
      · exact held_incomplete before memory _ _ further
      · rintro _ ⟨⟩
        rwa [Effect.recallAll_notes]
  | allowed command pathname =>
      cases held with
      | question begun =>
          have further := held_silent before command pathname true packets begun
          apply Tends.hearing
          · exact held_incomplete before _ _ _ further
          · rintro _ ⟨⟩
            exact further
  | listed =>
      cases held with
      | question begun =>
          apply Tends.answering .list (begun_listEnd packets begun)
          · intro after member
            rw [listReply_remembered before after member]
            exact .counted
          · exact .inr ⟨_, _, rfl⟩
          · rintro _ ⟨⟩
            rfl
  | concluded command pathname received =>
      cases held with
      | question begun early => exact absurd rfl (early command pathname received)
      | @content call packets opened =>
          have spelled := Call.spelled_opened call packets opened
          apply Tends.answering (.file call) (by simpa using spelled)
          · intro after member
            rcases conclude_remembered _ after _ member with ⟨reply, same⟩
            rw [same]
            exact .settled call reply
          · exact .inl (.allowed call)
          · exact conclude_awaits _ _
  | unknown found unknown =>
      apply Tends.hearing
      · apply stuck_incomplete before memory _ packets packet held
        simp [Phase.follow?, found, unknown]
      · rintro _ ⟨⟩
  | objected objects =>
      apply Tends.hearing
      · exact stuck_incomplete before memory _ packets packet held (follow?_objected _ _ _ objects)
      · rintro _ ⟨⟩

-- What is to be remembered comes first, and remembering never fails.
theorem results_perform (before : Memory) (call : Call) (effect : Effect) (effects : List Effect)
    (desk : Desk) (each : ∀ after, .remember after ∈ effect :: effects → Results before call after)
    (now : Results before call desk.memory ∨
      ∃ after rest, effect :: effects = .remember after :: rest) :
    Results before call (effect.perform desk).state.memory := by
  rw [Effect.perform_memory]
  rcases now with results | ⟨after, rest, same⟩
  · cases effect with
    | remember after => exact each after List.mem_cons_self
    | send | flush | note => exact results
  · rcases List.cons.inj same with ⟨rfl, _⟩
    exact each after List.mem_cons_self

/-- What has been heard behind `past` goes on behind a complete request. -/
def Beyond (past heard : List Packet) : Prop :=
  ∃ (call : Call) (front more : List Packet), call.Spelled front ∧ more ≠ [] ∧
    heard = past ++ (front ++ more)

theorem beyond_grows (past heard longer : List Packet) (beyond : Beyond past heard)
    (begins : heard <+: longer) : Beyond past longer := by
  rcases beyond with ⟨call, front, more, spelled, further, same⟩
  rcases begins with ⟨rest, whole⟩
  refine ⟨call, front, more ++ rest, spelled, List.append_ne_nil_of_left_ne_nil further rest, ?_⟩
  rw [← whole, same, List.append_assoc, List.append_assoc]

/-- The run has not come further than to the end of the answer. -/
def Within (past : List Packet) (before : Memory) (now : Instant Phase) : Prop :=
  ∃ packets, now.heard = past ++ packets ∧ Tends before packets now.activity now.desk.memory

theorem step_within (past : List Packet) (before : Memory) (now later : Instant Phase)
    (step : dialogue.Step now later) (inside : Within past before now) :
    Within past before later ∨ Beyond past later.heard := by
  rcases inside with ⟨packets, heard, tends⟩
  cases step with
  | fault read =>
      refine .inl ⟨packets, heard, .ended ?_⟩
      intro call spelled
      cases tends with
      | asking held => exact absurd spelled (held_incomplete _ _ _ _ held call)
      | answered other complete results =>
          exact results_unique before _ packets other call complete spelled results
  | @closed phase =>
      refine .inl ⟨packets, heard, ?_⟩
      cases tends with
      | asking held =>
          apply Tends.hearing (held_incomplete before _ _ packets held)
          cases phase <;> simp [dialogue, hangUp, Farewell.next]
      | answered call spelled results =>
          apply Tends.answering call spelled _ (.inl results)
          · simp [dialogue, hangUp, Farewell.next]
          · simp [dialogue, hangUp]
  | @packet phase earlier source rest desk packet read =>
      have longer : earlier ++ [packet] = past ++ (packets ++ [packet]) := by
        rw [← List.append_assoc]
        exact congrArg (· ++ [packet]) heard
      cases tends with
      | asking held => exact .inl ⟨_, longer, tends_packet before _ phase packets packet held⟩
      | answered call spelled results =>
          exact .inr ⟨call, packets, [packet], spelled, List.cons_ne_nil packet [], longer⟩
  | @performed effect effects next earlier source desk after went =>
      have remembered := effect.perform_memory desk
      rw [went] at remembered
      refine .inl ⟨packets, heard, ?_⟩
      cases tends with
      | hearing incomplete onward =>
          apply Tends.hearing incomplete
          intro phase awaits
          have held := onward phase awaits
          rwa [Effect.recallAll, List.foldl_cons, ← remembered] at held
      | answering call spelled each now onward =>
          have results := results_perform before call effect effects desk each now
          rw [went] at results
          apply Tends.answering call spelled _ (.inl results) onward
          exact fun after member => each after (List.mem_cons_of_mem effect member)
  | @halted effect effects next earlier source desk after failure went =>
      refine .inl ⟨packets, heard, .ended ?_⟩
      intro call spelled
      cases tends with
      | hearing incomplete => exact absurd spelled (incomplete call)
      | answering other complete each now =>
          have results := results_perform before other effect effects desk each now
          rw [went] at results
          exact results_unique before _ packets other call complete spelled results
  | @settled next =>
      refine .inl ⟨packets, heard, ?_⟩
      cases tends with
      | hearing incomplete onward =>
          cases next with
          | await phase => exact .asking (onward phase rfl)
          | finish | fail => exact .ended fun call spelled => absurd spelled (incomplete call)
      | answering call spelled _ now onward =>
          have results : Results before call _ := now.resolve_right (by simp)
          cases next with
          | await phase =>
              rcases onward phase rfl with rfl
              exact .answered call spelled results
          | finish | fail =>
              exact .ended fun other again =>
                results_unique before _ packets call other spelled again results

theorem steps_within (now later : Instant Phase) (ready : now.activity = .reading .command)
    (steps : dialogue.Steps now later) :
    Within now.heard now.desk.memory later ∨ Beyond now.heard later.heard := by
  have start : Within now.heard now.desk.memory now := by
    refine ⟨[], (List.append_nil _).symm, ?_⟩
    rw [ready]
    exact .asking (.question .nothing (by simp))
  apply steps.keep
    (fun later => Within now.heard now.desk.memory later ∨ Beyond now.heard later.heard)
    (.inl start)
  intro first second step reached
  rcases reached with inside | beyond
  · exact step_within _ _ first second step inside
  · exact .inr (beyond_grows _ _ _ beyond (Dialogue.step_heard first second step))

/-- The run goes from one instant to the other with one complete request. Then it asks for the next
command or is over, whether the request has been answered or not. -/
structure Handles (call : Call) (now later : Instant Phase) : Prop where
  ready : now.activity = .reading .command
  steps : dialogue.Steps now later
  asked : ∃ packets, call.Spelled packets ∧ later.heard = now.heard ++ packets
  done : later.activity = .reading .command ∨ ∃ failure?, later.activity = .ended failure?

theorem handles_results (call : Call) (now later : Instant Phase)
    (handles : Handles call now later) : Results now.desk.memory call later.desk.memory := by
  rcases handles.asked with ⟨request, spelled, same⟩
  rcases steps_within now later handles.ready handles.steps with
    ⟨packets, heard, tends⟩ | ⟨other, front, more, complete, further, heard⟩
  · rw [heard, List.append_cancel_left_eq] at same
    subst same
    rcases handles.done with ready | ⟨failure?, stopped⟩
    · rw [ready] at tends
      cases tends with
      | asking held => exact absurd spelled (held_incomplete _ _ _ _ held call)
      | answered other complete results =>
          exact results_unique _ _ packets other call complete spelled results
    · rw [stopped] at tends
      cases tends with
      | ended results => exact results call spelled
  · rw [heard, List.append_cancel_left_eq] at same
    rw [← same] at spelled
    exact absurd (other.spelled_unambiguous call front more complete spelled).2 further

-- Once the last packet has been read there are only effects left, until one of them fails.
theorem handles_of_heard (call : Call) (now middle : Instant Phase)
    (ready : now.activity = .reading .command) (steps : dialogue.Steps now middle)
    (packets : List Packet) (spelled : call.Spelled packets)
    (heard : middle.heard = now.heard ++ packets) :
    ∃ later, dialogue.Steps middle later ∧ Handles call now later := by
  rcases steps_within now middle ready steps with
    ⟨others, same, tends⟩ | ⟨other, front, more, complete, further, same⟩
  · rw [heard, List.append_cancel_left_eq] at same
    subst same
    rcases middle with ⟨activity, earlier, source, desk⟩
    cases tends with
    | asking held => exact absurd spelled (held_incomplete _ _ _ _ held call)
    | hearing incomplete => exact absurd spelled (incomplete call)
    | answered | ended => exact ⟨_, .refl, ready, steps, ⟨packets, spelled, heard⟩, by simp⟩
    | @answering effects next _ other _ _ _ onward =>
        have performed := Dialogue.steps_performAll dialogue effects next earlier source desk
        cases went : Effect.performAll effects desk with
        | halted failure after =>
            rw [went] at performed
            exact ⟨_, performed, ready, steps.trans performed, ⟨packets, spelled, heard⟩, by simp⟩
        | on after =>
            rw [went] at performed
            have settled := performed.tail Dialogue.Step.settled
            refine ⟨_, settled, ready, steps.trans settled, ⟨packets, spelled, heard⟩, ?_⟩
            cases next with
            | await phase => exact .inl (congrArg Activity.reading (onward phase rfl))
            | finish => exact .inr ⟨none, rfl⟩
            | fail failure => exact .inr ⟨some failure, rfl⟩
  · rw [heard, List.append_cancel_left_eq] at same
    rw [same] at spelled
    exact absurd (other.spelled_unambiguous call front more complete spelled).2 further

/-- Whatever the memory is and whatever the channel and the journal refuse, a complete request
leaves everything alone that is not its own. Once all of it has been heard, the run comes to where
it has been handled. -/
theorem handled_frames (call : Call) (now : Instant Phase) :
    (∀ later, Handles call now later → call.Frames now.desk.memory later.desk.memory) ∧
    ∀ middle packets, now.activity = .reading .command → dialogue.Steps now middle →
      call.Spelled packets → middle.heard = now.heard ++ packets →
        ∃ later, dialogue.Steps middle later ∧ Handles call now later := by
  constructor
  · intro later handles
    exact results_frames _ _ call (handles_results call now later handles)
  · intro middle packets ready steps spelled heard
    exact handles_of_heard call now middle ready steps packets spelled heard

-- The command is not supported, and the pathname is on the list all the same.
theorem handled_frames_unsupported :
    let now : Instant Phase :=
      .start .command (.sending [.file postponedSmudge]) (.opened (.fresh [] true))
    ∃ later, Handles (.file postponedSmudge) now later ∧
      later.ending?.map Ending.failure? = some (some (.unsupported "smudge")) ∧
      later.desk.memory.waitlist.find? "a.a" = some ⟨1, .asked⟩ ∧
      (Call.file postponedSmudge).Frames now.desk.memory later.desk.memory := by
  intro now
  have walks : (dialogue.walk? 16 now).map (fun later => (later.heard,
      later.ending?.map Ending.failure?, later.desk.memory.waitlist.find? "a.a")) =
        some ((Call.file postponedSmudge).packets, some (some (.unsupported "smudge")),
          some ⟨1, .asked⟩) := by
    decide +kernel
  rcases Option.map_eq_some_iff.mp walks with ⟨later, walked, seen⟩
  rcases Prod.mk.inj seen with ⟨heard, found⟩
  rcases Prod.mk.inj found with ⟨failed, entered⟩
  rcases Option.map_eq_some_iff.mp failed with ⟨ending, ended, same⟩
  have stopped := (later.ending?_eq_some_iff ending).mp ended
  have handles : Handles (.file postponedSmudge) now later := {
    ready := rfl
    steps := Dialogue.steps_walk? 16 now later walked
    asked := ⟨_, Call.spelled_packets _, heard⟩
    done := .inr ⟨_, stopped.1⟩ }
  exact ⟨later, handles, failed, entered, (handled_frames _ now).1 later handles⟩

end Exchange

end ContentFilter
