import ContentFilter.Proofs.Course
import ContentFilter.Proofs.Lifetime
import ContentFilter.Proofs.Promises
import ContentFilter.Proofs.Refusals

/-!
What the driver makes of an announcement. A line that comes in loses one newline at its end; a line
that is announced goes out as it is, so a pathname that itself ends with a newline is read back
without it. `ReadsBack` tells all cases. `announced_reads_back` says that every pathname that a run
announces is read back so.
-/

namespace ContentFilter

/-! ### Lines that go out as they are -/

namespace Packet

theorem say_ended (line : String) : say (line ++ "\n") = ofLine line :=
  congrArg Packet.data (Text.bytes_append line "\n")

end Packet

namespace Exchange

/-- A driver that asks for a pathname and finds the announcement of `pathname` gets this answer,
and nothing behind the announcement is touched. -/
def Reads (pathname : String) (answer : Except Failure (Option String)) : Prop :=
  ∀ (source : Source) (tail : Bytes), source.Faultless →
    source.bytes = (Packet.say (pathnameLine pathname)).encode ++ tail →
      ∃ rest, source.field? "pathname" = (answer, rest) ∧ rest.bytes = tail

/-- One newline at the end is not read back, and nothing else is lost. -/
structure ReadsBack (pathname : String) : Prop where
  same : (∀ name, pathname ≠ name ++ "\n") → Reads pathname (.ok (some pathname))
  shorter : ∀ name, name ≠ "" → pathname = name ++ "\n" → Reads pathname (.ok (some name))
  empty : pathname = "\n" →
    Reads pathname (.error (.violation (.badLine "pathname" "pathname=")))

theorem pathnameLine_ended (name : String) :
    Packet.say (pathnameLine (name ++ "\n")) = .ofLine (pathnameLine name) := by
  rw [← Packet.say_ended]
  simp only [pathnameLine, String.append_assoc]

theorem pathnameLine_unended (pathname : String) (named : pathname ≠ "")
    (unended : ∀ name, pathname ≠ name ++ "\n") (front : String) :
    pathnameLine pathname ≠ front ++ "\n" := by
  have written : Text.bytes pathname ≠ [] := by
    intro empty
    apply named
    have same := Text.ofBytes?_bytes pathname
    rw [empty] at same
    cases same
    rfl
  intro same
  have ended := (Text.getLast?_bytes_iff _).mpr ⟨front, same⟩
  rw [pathnameLine, Text.bytes_append, List.getLast?_append_of_ne_nil _ written] at ended
  obtain ⟨name, whole⟩ := (Text.getLast?_bytes_iff pathname).mp ended
  exact unended name whole

theorem reads_field (pathname : String) (fits : Announceable pathname) :
    Reads pathname
      ((((Packet.say (pathnameLine pathname)).field "pathname").map some).mapError .violation) := by
  intro source tail clear sent
  obtain ⟨rest, read, _, left⟩ := source.next_written clear (.say (pathnameLine pathname)) _ tail
    (Packet.written_encode _ fits) sent
  refine ⟨rest, ?_, left⟩
  simp only [Source.field?, Source.reading, read]

theorem readsBack (pathname : String) (named : pathname ≠ "") (fits : Announceable pathname) :
    ReadsBack pathname := by
  have reads := reads_field pathname fits
  constructor
  case same =>
    intro unended
    have carried := Packet.say_carries _ (pathnameLine_unended pathname named unended)
    have found : (Packet.say (pathnameLine pathname)).field "pathname" = .ok pathname :=
      (Packet.field_eq_ok_iff _ "pathname" pathname).mpr ⟨named, carried⟩
    rwa [found] at reads
  case shorter =>
    rintro name nonempty rfl
    have carried := Packet.carries_ofLine (pathnameLine name)
    have found : (Packet.ofLine (pathnameLine name)).field "pathname" = .ok name :=
      (Packet.field_eq_ok_iff _ "pathname" name).mpr ⟨nonempty, carried⟩
    rwa [pathnameLine_ended, found] at reads
  case empty =>
    rintro rfl
    exact reads

theorem reads_unique (pathname : String) (first second : Except Failure (Option String))
    (one : Reads pathname first) (other : Reads pathname second) : first = second := by
  obtain ⟨_, read, _⟩ := one [.bytes (Packet.say (pathnameLine pathname)).encode] []
    (by simp [Source.Faultless]) (by simp [Source.bytes])
  obtain ⟨_, again, _⟩ := other [.bytes (Packet.say (pathnameLine pathname)).encode] []
    (by simp [Source.Faultless]) (by simp [Source.bytes])
  exact congrArg Prod.fst (read.symm.trans again)

/-- Only a newline at the end can be what tells two pathnames apart that are read back alike. -/
theorem readsBack_alike (first second name : String) (one : ReadsBack first)
    (other : ReadsBack second) (read : Reads first (.ok (some name)))
    (again : Reads second (.ok (some name))) :
    first = second ∨ first = second ++ "\n" ∨ second = first ++ "\n" := by
  have cases (pathname : String) (back : ReadsBack pathname)
      (read : Reads pathname (.ok (some name))) : pathname = name ∨ pathname = name ++ "\n" := by
    by_cases ended : ∃ front, pathname = front ++ "\n"
    · obtain ⟨front, same⟩ := ended
      by_cases empty : front = ""
      · subst empty
        cases reads_unique pathname _ _ read (back.empty same)
      · cases reads_unique pathname _ _ read (back.shorter front empty same)
        exact .inr same
    · have unended : ∀ front, pathname ≠ front ++ "\n" := not_exists.mp ended
      cases reads_unique pathname _ _ read (back.same unended)
      exact .inl rfl
  rcases cases first one read with rfl | rfl
  · rcases cases second other again with rfl | rfl
    · exact .inl rfl
    · exact .inr (.inr rfl)
  · rcases cases second other again with rfl | rfl
    · exact .inr (.inl rfl)
    · exact .inl rfl

end Exchange

/-! ### Which pathnames are announced -/

theorem Exchange.Standing.leads_lawful (capabilities : List Capability) (delaysAll : Bool)
    (source : Source) (sink : Sink) (journal : Journal) (standing : Standing)
    (leads : (opening capabilities delaysAll source sink journal).Leads standing) :
    standing.Lawful capabilities delaysAll := by
  have start := placed_start source ⟨Memory.fresh capabilities delaysAll, sink, journal⟩
  induction leads with
  | refl => exact lawful_opening capabilities delaysAll source sink journal
  | tail before follows ih =>
      exact follows_lawful capabilities delaysAll _ _ follows (leads_placed _ _ before start) ih

theorem Waitlist.named_seeded : ∀ pathname ∈ seeded.pathnames, pathname ≠ "" := by decide

namespace Memory

theorem Reached.named {memory : Memory} (reached : memory.Reached) :
    memory.Lists (· ≠ "") := by
  obtain ⟨capabilities, delaysAll, past, reachable⟩ :=
    Exchange.Standing.reachable_of_reached memory reached
  obtain ⟨source, sink, journal, leads⟩ := reachable [] {} { path := "filter.log" }
  have lawful := Exchange.Standing.leads_lawful capabilities delaysAll source sink journal _ leads
  intro pathname member
  rcases lawful.entered pathname member with seeded | ⟨_, packets, _, allows⟩
  · exact Waitlist.named_seeded pathname seeded
  · obtain ⟨_, _, call, _, _, _, rfl, _⟩ := allows
    exact call.named

end Memory

namespace Exchange

/-- All that is sent are replies, and every pathname that became ready is announced in one. -/
theorem takes_announces (memory : Memory) (source : Source) (course : Course)
    (takes : Takes memory source course) (known : memory.Announceable)
    (named : memory.Lists (· ≠ "")) :
    course.sent = course.turns.flatMap (fun turn => turn.reply.packets) ∧
    ∀ turn ∈ course.turns, ∀ pathname ∈ turn.ready,
      .say (pathnameLine pathname) ∈ turn.reply.packets ∧ ReadsBack pathname := by
  induction takes with
  | closed | unfinished => exact ⟨rfl, by simp⟩
  | @answered memory source rest call packets course spelled read legal goes _ ih =>
      have kept := Memory.announceable_turn memory call known
        (spelled_announceable call packets spelled (source.yields_legal rest packets read))
      obtain ⟨sent, later⟩ := ih kept (memory.lists_turn _ call named fun asked _ => asked.named)
      refine ⟨by simp only [Course.behind, sent, List.flatMap_cons], ?_⟩
      simp only [Course.behind, List.forall_mem_cons]
      refine ⟨?_, later⟩
      intro pathname ready
      have announced := Turn.ready_sent memory call pathname ready
      exact ⟨announced, readsBack pathname (named pathname (memory.ready_known call pathname ready))
        (legal _ announced)⟩
  | @failed memory source rest call =>
      refine ⟨by simp, ?_⟩
      simp [memory.file_ready call]
  | @refused memory source rest packets before behind pathname spelled read first fits large =>
      have announced : pathname ∈ memory.waitlist.announcement.announced := by simp [first]
      exact absurd (Waitlist.announced_announceable memory.waitlist known pathname announced) large

/-- Every pathname that becomes ready in a run is announced in the reply to that list query, and
what has gone out, whatever the channel and the journal refuse, is the beginning of the replies. A
driver that reads the announcement gets the pathname without a newline at its end, so it can tell
any two apart that do not differ in just that. -/
theorem announced_reads_back (source : Source) (desk : Desk) (reached : desk.memory.Reached) :
    ∃ course, Takes desk.memory source course ∧
      (converse source desk).desk.sink.outlet.contents <+: desk.sink.outlet.contents ++
        Packet.encodeAll (course.turns.flatMap fun turn => turn.reply.packets) ∧
      (∀ turn ∈ course.turns, ∀ pathname ∈ turn.ready,
        .say (pathnameLine pathname) ∈ turn.reply.packets ∧ ReadsBack pathname) ∧
      ∀ first ∈ course.turns.flatMap Turn.ready, ∀ second ∈ course.turns.flatMap Turn.ready,
        ∀ name, Reads first (.ok (some name)) → Reads second (.ok (some name)) →
          first = second ∨ first = second ++ "\n" ∨ second = first ++ "\n" := by
  obtain ⟨course, takes, follows⟩ :=
    converse_takes source desk.unhindered desk.free_unhindered
  obtain ⟨sent, announces⟩ := takes_announces _ source course takes reached.announceable
    reached.named
  have begins := dialogue.converse_begins .command source desk
  have whole := follows.sent
  rw [sent] at whole
  refine ⟨course, takes, ?_, announces, ?_⟩
  · exact whole ▸ begins
  · have back (pathname : String) (ready : pathname ∈ course.turns.flatMap Turn.ready) :
        ReadsBack pathname := by
      obtain ⟨turn, member, here⟩ := List.mem_flatMap.mp ready
      exact (announces turn member pathname here).2
    intro first one second other name read again
    exact readsBack_alike first second name (back first one) (back second other) read again

-- The channel closes inside the announcement.
theorem announced_reads_back_delayed :
    let desk : Desk := ⟨Memory.fresh [⟨"smudge"⟩] false,
      { outlet := { room := some 30, refusal := "closed" } }, { path := "filter.log" }⟩
    (converse (.sending delayedSession) desk).failure? = some (.channel "closed") ∧
    ∃ course, Takes desk.memory (.sending delayedSession) course ∧
      Text.bytes "0012status=delayed0000001bpath" <+:
        Packet.encodeAll (course.turns.flatMap fun turn => turn.reply.packets) ∧
      ∀ turn ∈ course.turns, ∀ pathname ∈ turn.ready,
        .say (pathnameLine pathname) ∈ turn.reply.packets ∧ ReadsBack pathname := by
  intro desk
  obtain ⟨course, takes, begins, announces, _⟩ :=
    announced_reads_back (.sending delayedSession) desk (.fresh [⟨"smudge"⟩] false)
  refine ⟨by decide +kernel, course, takes, ?_, announces⟩
  have sent : (converse (.sending delayedSession) desk).desk.sink.outlet.contents =
      Text.bytes "0012status=delayed0000001bpath" := by
    decide +kernel
  rwa [sent] at begins

-- The driver is told of another pathname than it has sent.
theorem announced_shorter :
    let memory := Memory.fresh [⟨"smudge"⟩] true
    (Packet.ofLine (pathnameLine "a\n")).field "pathname" = .ok "a\n" ∧
    (memory.turns endedSession).map Turn.ready = [[], ["a\n"]] ∧
    (converse (.sending endedSession) (.opened memory)).desk.sink.outlet.contents =
      Text.bytes "0012status=delayed0000" ++ Text.bytes "000fpathname=a\n"
        ++ Text.bytes "00000012status=success0000" ∧
    Source.field? "pathname" [.bytes (Text.bytes "000fpathname=a\n")] = (.ok (some "a"), []) := by
  decide +kernel

end Exchange

end ContentFilter
