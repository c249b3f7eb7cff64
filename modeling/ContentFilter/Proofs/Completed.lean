import ContentFilter.Proofs.Grammar
import ContentFilter.Proofs.Instants
import ContentFilter.Proofs.History

/-!
What a run has done when it ends well. Nothing is assumed of the channel and of the journal: where
one of them refuses anything the run fails, so up to there everything has been carried out.
`converse_completed` says that such a run has been sent complete requests and has answered each of
them with its turn.
-/

namespace ContentFilter

namespace Sink

theorem write_on (sink after : Sink) (raw : Bytes) (went : sink.write raw = .on after) :
    after.outlet.contents = sink.outlet.contents ++ raw := by
  have whole := sink.outlet.write_contents raw
  unfold write at went
  split at went
  · rename_i outlet wrote
    cases went
    rwa [wrote, List.append_nil] at whole
  · cases went

theorem push_on (sink after : Sink) (went : sink.push = .on after) :
    after.outlet = sink.outlet := by
  unfold push at went
  split at went
  · split at went <;> cases went
    rfl
  · cases went
    rfl

end Sink

namespace Effect

-- An effect that is carried out at all is carried out wholly.
theorem perform_on (effect : Effect) (desk after : Desk) (went : effect.perform desk = .on after) :
    after.memory = effect.recallOne desk.memory ∧
      after.sink.outlet.contents =
        desk.sink.outlet.contents ++ Packet.encodeAll effect.packets := by
  have remembered := effect.perform_memory desk
  rw [went] at remembered
  refine ⟨remembered, ?_⟩
  cases effect with
  | send payload =>
      simp only [perform, Sink.send] at went
      split at went
      · cases went
      · cases wrote : desk.sink.write (Packet.data payload).encode with
        | halted failure sink => simp [wrote, Progress.map] at went
        | on sink =>
            rw [wrote] at went
            cases went
            simpa [packets, Packet.encodeAll] using Sink.write_on desk.sink sink _ wrote
  | flush =>
      simp only [perform, Sink.flush] at went
      cases wrote : desk.sink.write Packet.flush.encode with
      | halted failure sink => simp [wrote, Progress.map] at went
      | on sink =>
          cases pushed : sink.push with
          | halted failure sink => simp [wrote, pushed, Progress.map] at went
          | on last =>
              simp only [wrote, Progress.on_andThen, pushed, Progress.map] at went
              cases went
              dsimp only
              rw [Sink.push_on sink last pushed]
              simpa [packets, Packet.encodeAll] using Sink.write_on desk.sink sink _ wrote
  | note remark =>
      simp only [perform] at went
      cases noted : desk.journal.note remark with
      | halted failure journal => simp [noted, Progress.map] at went
      | on journal =>
          rw [noted] at went
          cases went
          simp [packets, Packet.encodeAll]
  | remember memory =>
      cases went
      simp [packets, Packet.encodeAll]

end Effect

/-! ### Runs of turns -/

section

variable {start now : Memory} {past : List Turn}

theorem Run.snoc (run : Run start past now) (call : Call)
    (goes : (now.turn call).failure? = .none) :
    Run start (past ++ [now.turn call]) (now.turn call).memory := by
  induction run with
  | none memory => exact .next call goes (.none _)
  | next first went _ ih => exact .next first went (ih goes)

theorem Run.turns (run : Run start past now) : start.turns (past.map Turn.call) = past := by
  induction run with
  | none memory => rfl
  | @next memory now past call goes _ ih =>
      have same := memory.turn_call call
      rw [List.map_cons, same, Memory.turns_cons memory call _ goes, ih]

theorem Run.goes (run : Run start past now) : ∀ turn ∈ past, turn.failure? = .none := by
  induction run with
  | none memory => simp
  | next call went _ ih => exact List.forall_mem_cons.mpr ⟨went, ih⟩

end

namespace Exchange

/-! ### From packet to packet -/

/-- The memory while `packets` are the beginning of a request that was begun with `before`. -/
inductive Held (before : Memory) : Phase → List Packet → Memory → Prop
  | question {phase : Phase} {packets : List Packet} (begun : Begun phase packets)
      (early : ∀ command pathname received, phase ≠ .content command pathname received) :
      Held before phase packets before
  | content (call : FileCall) {packets : List Packet} (opened : call.Opened packets) :
      Held before (.content call.command call.pathname call.payload.toArray)
        (packets ++ .flush :: call.pieces.map .data) (before.allowing call)

theorem held_begun (before memory : Memory) (phase : Phase) (packets : List Packet)
    (held : Held before phase packets memory) : Begun phase packets := by
  cases held with
  | question begun => exact begun
  | content call opened => exact .content call opened

theorem held_incomplete (before memory : Memory) (phase : Phase) (packets : List Packet)
    (held : Held before phase packets memory) (call : Call) : ¬call.Spelled packets := by
  intro spelled
  have begun := held_begun before memory phase packets held
  have reached := reach?_begun phase packets begun
  rw [reach?_spelled call packets spelled] at reached
  cases reached
  cases begun
  cases spelled

theorem stuck_incomplete (before memory : Memory) (phase : Phase) (packets : List Packet)
    (packet : Packet) (held : Held before phase packets memory)
    (stuck : phase.follow? packet = none) (call : Call) : ¬call.Spelled (packets ++ [packet]) := by
  intro spelled
  have begun := held_begun before memory phase packets held
  have reached := reach?_spelled call _ spelled
  rw [Phase.reach?_append, reach?_begun phase packets begun, Option.bind_some, Phase.reach?_cons,
    stuck] at reached
  cases reached

theorem held_silent (before : Memory) (command : Command) (pathname : String) (mayDelay : Bool)
    (packets : List Packet) (begun : Begun (.details command pathname mayDelay) packets) :
    Held before (.content command pathname #[]) (packets ++ [.flush])
      (if mayDelay then before.permit pathname else before) := by
  obtain ⟨call, opened, rfl, rfl, rfl⟩ := begun_details _ _ _ _ begun
  exact .content call.silent (call.opened_silent packets opened)

theorem follow?_content (phase : Phase) (packet : Packet) (command : Command) (pathname : String)
    (received : Array UInt8)
    (follows : phase.follow? packet = some (.content command pathname received)) :
    packet = .flush ∧ received = #[] ∧ (∃ mayDelay, phase = .details command pathname mayDelay) ∨
      ∃ earlier, phase = .content command pathname earlier := by
  cases phase with
  | command =>
      simp only [Phase.follow?] at follows
      split at follows
      · cases follows
      · obtain ⟨order, _, same⟩ := Option.map_eq_some_iff.mp follows
        split at same <;> cases same
  | listEnd => simp [Phase.follow?] at follows
  | pathname =>
      simp only [Phase.follow?] at follows
      split at follows <;> cases follows
  | details order name mayDelay =>
      simp only [Phase.follow?] at follows
      split at follows
      · cases follows
      · rename_i ended
        cases follows
        exact .inl ⟨(Packet.line?_eq_none_iff packet).mp ended, rfl, mayDelay, rfl⟩
      · rw [Option.ite_none_right_eq_some] at follows
        cases follows.2
  | content order name earlier =>
      cases packet with
      | flush => cases follows
      | data payload =>
          cases follows
          exact .inr ⟨earlier, rfl⟩

-- From the details to the content, or from one piece of content to the next.
theorem held_noted (before memory : Memory) (phase next : Phase) (packets : List Packet)
    (packet : Packet) (held : Held before phase packets memory)
    (follows : phase.follow? packet = some next) (inside : next ≠ .command)
    (idle : ∀ command pathname, phase = .details command pathname true → packet ≠ .flush) :
    Held before next (packets ++ [packet]) memory := by
  cases held with
  | question begun early =>
      have more : Begun next (packets ++ [packet]) := by
        rcases begun_follow phase next packets packet begun follows with ⟨_, more⟩ | ⟨ended, _⟩
        · exact more
        · exact absurd ended inside
      cases next with
      | command | listEnd | pathname | details => exact .question more (by simp)
      | content command pathname received =>
          rcases follow?_content phase packet command pathname received follows with
            ⟨rfl, rfl, mayDelay, rfl⟩ | ⟨earlier, same⟩
          · cases mayDelay with
            | true => exact absurd rfl (idle command pathname rfl)
            | false => exact held_silent before command pathname false packets begun
          · exact absurd same (early command pathname earlier)
  | @content call packets opened =>
      cases packet with
      | flush =>
          cases follows
          exact absurd rfl inside
      | data payload =>
          cases follows
          have more : Held before
              (.content call.command call.pathname (call.longer payload).payload.toArray)
              (packets ++ .flush :: (call.longer payload).pieces.map .data)
              (before.allowing call) :=
            .content (call.longer payload) (call.opened_longer packets opened payload)
          rw [call.payload_longer payload] at more
          simpa [FileCall.longer] using more

theorem conclude_turn (before : Memory) (call : FileCall) :
    let reaction := conclude (before.allowing call) call.request
    let turn := before.turn (.file call)
    Effect.recallAll (before.allowing call) reaction.effects = turn.memory ∧
      reaction.effects.flatMap Effect.packets = turn.reply.packets ∧
      reaction.next = match turn.failure? with
        | none => .await .command
        | some failure => .fail failure := by
  have decided := (before.allowing call).replyTo_eq call.request
  unfold conclude
  cases found : (before.allowing call).answer? call.request with
  | none =>
      rw [found] at decided
      simp only [Memory.turn, Turn.failure?, decided]
      exact ⟨rfl, rfl, rfl⟩
  | some answer =>
      simp only [found] at decided ⊢
      have remembered := fileReply_recall (before.allowing call) call.request answer
      have sent := fileReply_packets (before.allowing call) call.request answer
      rw [← Memory.settle_answered] at remembered
      simp only [Memory.turn, Turn.failure?, decided]
      refine ⟨remembered, sent, ?_⟩
      cases answer <;> rfl

theorem held_packet (before memory : Memory) (phase next : Phase) (packets : List Packet)
    (packet : Packet) (held : Held before phase packets memory)
    (awaits : (hear memory phase packet).next = .await next) :
    Held before next (packets ++ [packet])
        (Effect.recallAll memory (hear memory phase packet).effects) ∧
      (hear memory phase packet).effects.flatMap Effect.packets = [] ∨
    next = .command ∧ ∃ call : Call, call.Spelled (packets ++ [packet]) ∧
      (before.turn call).failure? = none ∧
      Effect.recallAll memory (hear memory phase packet).effects = (before.turn call).memory ∧
      (hear memory phase packet).effects.flatMap Effect.packets =
        (before.turn call).reply.packets := by
  have hearing := hear_hearing memory phase packet
  generalize hear memory phase packet = reaction at hearing awaits
  cases hearing with
  | @noted _ _ _ remarks follows inside idle =>
      cases awaits
      refine .inl ⟨?_, by simp [Effect.packets]⟩
      rw [Effect.recallAll_notes]
      exact held_noted before memory phase next packets packet held follows inside idle
  | allowed command pathname =>
      cases awaits
      cases held with
      | question begun =>
          exact .inl ⟨held_silent before command pathname true packets begun, rfl⟩
  | listed =>
      cases awaits
      cases held with
      | question begun =>
          exact .inr ⟨rfl, .list, begun_listEnd packets begun, rfl, listReply_recall _,
            listReply_packets _⟩
  | concluded command pathname received =>
      cases held with
      | question begun early => exact absurd rfl (early command pathname received)
      | @content call packets opened =>
          have spelled := Call.spelled_opened call packets opened
          obtain ⟨remembered, sent, onward⟩ := conclude_turn before call
          have whole : (⟨call.command, call.pathname, call.payload⟩ : Request) = call.request := rfl
          rw [whole, onward] at awaits
          cases goes : (before.turn (.file call)).failure? with
          | some failure =>
              rw [goes] at awaits
              cases awaits
          | none =>
              rw [goes] at awaits
              cases awaits
              exact .inr ⟨rfl, .file call, by simpa using spelled, goes, remembered, sent⟩
  | unknown | objected => cases awaits

/-! ### From the start to the end -/

/-- Since `start` complete calls have been heard and answered, and perhaps the beginning of another
one. -/
def Answered (start : Desk) (phase : Phase) (heard : List Packet) (memory : Memory)
    (sent : Bytes) : Prop :=
  ∃ past before begun now, Run start.memory past now ∧
    Call.AllSpelled (past.map Turn.call) before ∧ heard = before ++ begun ∧
    Held now phase begun memory ∧
    sent = start.sink.outlet.contents ++
      Packet.encodeAll (past.flatMap fun turn => turn.reply.packets)

theorem answered_start (start : Desk) :
    Answered start .command [] start.memory start.sink.outlet.contents :=
  ⟨[], [], [], start.memory, .none _, .none, rfl, .question .nothing (by simp),
    by simp [Packet.encodeAll]⟩

theorem answered_packet (start : Desk) (phase next : Phase) (heard : List Packet)
    (memory : Memory) (sent : Bytes) (packet : Packet)
    (answered : Answered start phase heard memory sent)
    (awaits : (hear memory phase packet).next = .await next) :
    Answered start next (heard ++ [packet])
      (Effect.recallAll memory (hear memory phase packet).effects)
      (sent ++ Packet.encodeAll ((hear memory phase packet).effects.flatMap Effect.packets)) := by
  obtain ⟨past, before, begun, now, run, spelled, rfl, held, rfl⟩ := answered
  rcases held_packet now memory phase next begun packet held awaits with
    ⟨further, silent⟩ | ⟨rfl, call, complete, goes, remembered, replied⟩
  · refine ⟨past, before, begun ++ [packet], now, run, spelled, by simp, further, ?_⟩
    simp [silent, Packet.encodeAll]
  · have same := now.turn_call call
    refine ⟨past ++ [now.turn call], before ++ (begun ++ [packet]), [], (now.turn call).memory,
      run.snoc call goes, ?_, by simp, ?_, ?_⟩
    · rw [List.map_append, List.map_singleton, same]
      exact Call.allSpelled_append _ call before _ spelled complete
    · rw [remembered]
      exact .question .nothing (by simp)
    · rw [replied, List.flatMap_append, Packet.encodeAll_append, List.append_assoc]
      simp

theorem hear_goesOn (memory : Memory) (phase : Phase) (packet : Packet) :
    (hear memory phase packet).next ≠ .finish := by
  have hearing := hear_hearing memory phase packet
  generalize hear memory phase packet = reaction at hearing
  cases hearing with
  | concluded command pathname received =>
      unfold conclude
      split
      · simp
      · dsimp only
        split <;> simp
  | noted | allowed | listed | unknown | objected => simp

/-- What holds once the effects of a reaction have been carried out and `next` comes. -/
def Reacted (source : Source) (start : Desk) (next : Next Phase) (heard : List Packet)
    (rest : Source) (memory : Memory) (sent : Bytes) : Prop :=
  match next with
  | .await phase => source.Yields heard rest ∧ Answered start phase heard memory sent
  | .finish =>
      (∃ left, source.Yields heard left ∧ left.Closed) ∧
        Answered start .command heard memory sent
  | .fail _ => True

/-- The effects that are still to come are counted in. -/
def Sound (source : Source) (start : Desk) (now : Instant Phase) : Prop :=
  match now.activity with
  | .reading phase =>
      Reacted source start (.await phase) now.heard now.source now.desk.memory
        now.desk.sink.outlet.contents
  | .reacting effects next =>
      Reacted source start next now.heard now.source (Effect.recallAll now.desk.memory effects)
        (now.desk.sink.outlet.contents ++ Packet.encodeAll (effects.flatMap Effect.packets))
  | .ended none =>
      Reacted source start .finish now.heard now.source now.desk.memory
        now.desk.sink.outlet.contents
  | .ended (some _) => True

theorem step_sound (source : Source) (start : Desk) (now later : Instant Phase)
    (step : dialogue.Step now later) (sound : Sound source start now) :
    Sound source start later := by
  cases step with
  | fault read => trivial
  | @closed phase heard _ rest desk read =>
      obtain ⟨yields, answered⟩ := sound
      cases phase with
      | command =>
          refine ⟨⟨_, yields, rest, read⟩, ?_⟩
          simpa [dialogue, hangUp, Effect.recallAll, Effect.recallOne, Effect.packets,
            Packet.encodeAll] using answered
      | listEnd | pathname | details | content => trivial
  | @packet phase heard middle rest desk packet read =>
      obtain ⟨yields, answered⟩ := sound
      have more : source.Yields (heard ++ [packet]) rest :=
        (Source.yields_append_iff _ _ _ _).mpr ⟨middle, yields, .more read (.done rest)⟩
      have step := answered_packet start phase
      unfold Sound
      cases next : (hear desk.memory phase packet).next with
      | fail failure => simp only [dialogue, next, Reacted]
      | await phase' =>
          simp only [dialogue, next, Reacted]
          exact ⟨more, step phase' heard desk.memory _ packet answered next⟩
      | finish => exact absurd next (hear_goesOn desk.memory phase packet)
  | @performed effect effects next heard rest desk after went =>
      obtain ⟨remembered, sent⟩ := effect.perform_on desk after went
      unfold Sound at sound ⊢
      dsimp only at sound ⊢
      rw [remembered, sent, List.append_assoc, ← Packet.encodeAll_append]
      exact sound
  | halted went => trivial
  | @settled next heard rest desk =>
      have sent : desk.sink.outlet.contents ++
          Packet.encodeAll (([] : List Effect).flatMap Effect.packets) =
            desk.sink.outlet.contents := by
        simp [Packet.encodeAll]
      unfold Sound at sound
      dsimp only at sound
      rw [sent] at sound
      cases next with
      | await | finish => exact sound
      | fail => trivial

theorem brings_of_yields (calls : List Call) (packets : List Packet)
    (spelled : Call.AllSpelled calls packets) (source rest : Source)
    (yields : source.Yields packets rest) (closed : rest.Closed) : source.Brings calls := by
  induction spelled generalizing source with
  | none =>
      cases yields
      exact .closed closed
  | @call call calls packets others spelled _ ih =>
      obtain ⟨middle, read, later⟩ := (Source.yields_append_iff _ _ _ _).mp yields
      exact .call spelled read (ih middle later)

/-- A run that ends well has been brought complete calls, and each of them has been answered. -/
theorem converse_completed (source : Source) (desk : Desk)
    (well : (converse source desk).failure? = none) :
    ∃ calls, source.Brings calls ∧ (desk.memory.turns calls).map Turn.call = calls ∧
      Run desk.memory (desk.memory.turns calls) (converse source desk).desk.memory ∧
      (converse source desk).desk.sink.outlet.contents =
        desk.sink.outlet.contents ++
          Packet.encodeAll ((desk.memory.turns calls).flatMap fun turn => turn.reply.packets) := by
  obtain ⟨last, steps, ended⟩ := dialogue.steps_converse .command [] source desk
  have sound := steps.keep (Sound source desk) ⟨.done source, answered_start desk⟩
    (step_sound source desk)
  obtain ⟨activity, heard, rest, after⟩ := last
  cases activity with
  | reading | reacting => cases ended
  | ended failure? =>
      have same : ⟨failure?, rest, after⟩ = converse source desk := Option.some.inj ended
      rw [← same] at well ⊢
      dsimp only at well
      subst well
      obtain ⟨⟨left, yields, closed⟩, past, before, begun, now, run, spelled, rfl, held, sent⟩ :=
        sound
      have turns := run.turns
      cases held with
      | question begun =>
          cases begun
          rw [List.append_nil] at yields
          refine ⟨past.map Turn.call, ?_, ?_, ?_, ?_⟩
          · exact brings_of_yields _ before spelled source left yields closed
          · rw [turns]
          · rw [turns]
            exact run
          · rw [turns]
            exact sent

end Exchange

end ContentFilter
