import ContentFilter.Proofs.Records

/-!
A line buffer in front of a file, of which no more is known than what it is for: nothing that is
written is lost or overtaken, a write with a newline forwards everything up to its last newline, and
a flush forwards the rest. When it forwards anything else is left open. `follows_holds` says that
it can hold back nothing but what is behind the last newline, however the writes were cut, and
`note_follows` that a journal that is never refused is such a buffer.
-/

namespace ContentFilter

namespace Journal

/-- One call that is made on the line buffer. -/
inductive Act where
  | write (text : String)
  | flush
  deriving DecidableEq, Repr

namespace Act

def text : Act → String
  | .write text => text
  | .flush => ""

def bytes (act : Act) : Bytes := Text.bytes act.text

/-- What has been written by these calls. -/
def written (acts : List Act) : Bytes := acts.flatMap bytes

theorem written_append (first second : List Act) :
    written (first ++ second) = written first ++ written second := List.flatMap_append

theorem written_snoc (acts : List Act) (act : Act) :
    written (acts ++ [act]) = written acts ++ act.bytes := by
  rw [written_append]
  exact congrArg (written acts ++ ·) (List.append_nil act.bytes)

def join (acts : List Act) : String := String.join (acts.map text)

theorem join_append (first second : List Act) :
    join (first ++ second) = join first ++ join second := by
  rw [join, List.map_append, String.join_append]
  rfl

theorem written_eq_join (acts : List Act) : written acts = Text.bytes (join acts) := by
  rw [join, Text.bytes_join, List.flatMap_map]
  rfl

end Act

/-! ### What is behind the last newline -/

theorem unfinished_unbroken (raw : Bytes) : Text.newline ∉ unfinished raw := by
  intro member
  rw [unfinished, List.mem_reverse] at member
  have other := List.all_eq_true.mp List.all_takeWhile Text.newline member
  exact bne_iff_ne.mp other rfl

theorem unfinished_append_lines (first second : Bytes) (broken : Text.newline ∈ second) :
    unfinished (first ++ second) = unfinished second := by
  have stops : (second.reverse.takeWhile (· != Text.newline)).length ≠ second.reverse.length := by
    intro whole
    have same := (List.takeWhile_prefix (· != Text.newline)).eq_of_length whole
    have clear := unfinished_unbroken second
    rw [unfinished, same, List.reverse_reverse] at clear
    exact clear broken
  rw [unfinished, List.reverse_append, List.takeWhile_append, if_neg stops, unfinished]

theorem unfinished_append_unbroken (first second : Bytes) (unbroken : Text.newline ∉ second) :
    unfinished (first ++ second) = unfinished first ++ second := by
  have clear : ∀ letter ∈ second.reverse, (letter != Text.newline) = true := by
    intro letter member
    rw [List.mem_reverse] at member
    exact bne_iff_ne.mpr fun same => unbroken (same ▸ member)
  rw [unfinished, List.reverse_append, List.takeWhile_append_of_pos clear, List.reverse_append,
    List.reverse_reverse, unfinished]

theorem unfinished_suffix (raw : Bytes) : unfinished raw <:+ raw :=
  ⟨finished raw, finished_append_unfinished raw⟩

/-- Behind lines that are finished there is nothing unfinished but what was written since. -/
theorem unfinished_append_of_finished (first second : Bytes) (lines : unfinished first = []) :
    unfinished (first ++ second) = unfinished second := by
  by_cases broken : Text.newline ∈ second
  · exact unfinished_append_lines first second broken
  · have alone := unfinished_append_unbroken [] second broken
    rw [unfinished_append_unbroken first second broken, lines]
    exact alone.symm

end Journal

/-- The calls by which a remark is noted. -/
def Remark.acts (remark : Remark) : List Journal.Act :=
  remark.texts.map .write ++ if remark = .stopped then [.flush] else []

theorem Remark.text_acts (remark : Remark) :
    Journal.Act.join remark.acts = remark.text := by
  have texts : (remark.texts.map .write).map Journal.Act.text = remark.texts := by
    rw [List.map_map]
    exact List.map_id remark.texts
  rw [acts, Journal.Act.join_append, Journal.Act.join, texts]
  split <;> exact String.append_empty

/-- A file and what waits in front of it. -/
structure LineBuffer where
  file : Bytes
  waiting : Bytes
  deriving DecidableEq, Repr

namespace LineBuffer

open Journal (Act)

/-- All that is known of a call. -/
structure Takes (before : LineBuffer) (act : Act) (after : LineBuffer) : Prop where
  onward : before.file <+: after.file
  whole : after.file ++ after.waiting = before.file ++ before.waiting ++ act.bytes
  lines : Text.newline ∈ act.bytes →
    before.file ++ before.waiting ++ Journal.finished act.bytes <+: after.file
  flushed : act = .flush → after.waiting = []

inductive Follows (start : LineBuffer) : List Act → LineBuffer → Prop
  | nothing : Follows start [] start
  | further {acts : List Act} {act : Act} {before after : LineBuffer}
      (earlier : Follows start acts before) (takes : before.Takes act after) :
      Follows start (acts ++ [act]) after

/-- All of `complete` is in the file behind what was there from the start; of `current` at most
what is behind its last newline is still held back. -/
structure Holds (buffer : LineBuffer) (initial : Bytes) (complete current : String) : Prop where
  kept : initial ++ Text.bytes complete <+: buffer.file
  whole : buffer.file ++ buffer.waiting = initial ++ Text.bytes complete ++ Text.bytes current
  missing : buffer.waiting <:+ Journal.unfinished (Text.bytes current)

theorem Follows.trans {start middle after : LineBuffer} {first second : List Act}
    (here : Follows start first middle) (there : Follows middle second after) :
    Follows start (first ++ second) after := by
  induction there with
  | nothing => rwa [List.append_nil]
  | further _ takes ih =>
      rw [← List.append_assoc]
      exact ih.further takes

theorem takes_waiting (before after : LineBuffer) (act : Act) (takes : before.Takes act after)
    (earlier : Bytes) (waits : before.waiting <:+ Journal.unfinished earlier) :
    after.waiting <:+ Journal.unfinished (earlier ++ act.bytes) := by
  by_cases broken : Text.newline ∈ act.bytes
  -- The last newline of the write is the last one of all.
  · obtain ⟨more, forwarded⟩ := takes.lines broken
    have whole := takes.whole
    rw [← forwarded, List.append_assoc, List.append_assoc] at whole
    have parts := Journal.finished_append_unfinished act.bytes
    have behind := List.append_cancel_left ((List.append_cancel_left whole).trans parts.symm)
    rw [Journal.unfinished_append_lines _ _ broken]
    exact ⟨more, behind⟩
  · obtain ⟨more, forwarded⟩ := takes.onward
    have whole := takes.whole
    rw [← forwarded, List.append_assoc, List.append_assoc] at whole
    have behind := List.append_cancel_left whole
    obtain ⟨front, held⟩ := waits
    rw [Journal.unfinished_append_unbroken _ _ broken, ← held, List.append_assoc, ← behind]
    exact (List.suffix_append more _).trans (List.suffix_append front _)

theorem follows_waiting (initial : Bytes) (acts : List Act) (after : LineBuffer)
    (follows : Follows ⟨initial, []⟩ acts after) :
    after.file ++ after.waiting = initial ++ Act.written acts ∧
      after.waiting <:+ Journal.unfinished (Act.written acts) := by
  induction follows with
  | nothing => exact ⟨rfl, List.suffix_rfl⟩
  | further _ takes ih =>
      rw [Act.written_snoc]
      refine ⟨?_, takes_waiting _ _ _ takes _ ih.2⟩
      rw [takes.whole, ih.1, List.append_assoc]

theorem follows_holds (initial : Bytes) (acts : List Act) (after : LineBuffer)
    (follows : Follows ⟨initial, []⟩ acts after) (complete current : String)
    (written : Act.written acts = Text.bytes (complete ++ current))
    (lines : Journal.unfinished (Text.bytes complete) = []) :
    after.Holds initial complete current := by
  obtain ⟨whole, waits⟩ := follows_waiting initial acts after follows
  rw [written, Text.bytes_append] at whole waits
  rw [Journal.unfinished_append_of_finished _ _ lines] at waits
  obtain ⟨landed, split⟩ := waits.trans (Journal.unfinished_suffix _)
  refine ⟨⟨landed, ?_⟩, by rw [whole, List.append_assoc], waits⟩
  rw [← split] at whole
  simp only [← List.append_assoc] at whole ⊢
  exact (List.append_cancel_right whole).symm

theorem Holds.settled {buffer : LineBuffer} {initial : Bytes} {complete : String}
    (holds : buffer.Holds initial complete "") :
    buffer = ⟨initial ++ Text.bytes complete, []⟩ := by
  obtain ⟨file, waiting⟩ := buffer
  have nothing : waiting = [] := List.suffix_nil.mp holds.missing
  have whole := holds.whole
  subst nothing
  rw [mk.injEq]
  exact ⟨by simpa [Text.bytes] using whole, rfl⟩

theorem Follows.single {before after : LineBuffer} {act : Act} (takes : before.Takes act after) :
    Follows before [act] after :=
  Follows.nothing.further takes

end LineBuffer

/-! ### The buffer of a journal -/

theorem Outlet.write_onward (outlet : Outlet) (raw : Bytes) :
    outlet.contents <+: (outlet.write raw).2.contents := by
  unfold write
  cases outlet.room <;> simp [contents]

namespace Journal

def buffer (journal : Journal) : LineBuffer := ⟨journal.file.contents, journal.pending⟩

theorem Adds.on {before : Journal} {raw : Bytes} {progress : Progress Journal}
    (added : Adds before raw progress) :
    ∃ after, progress = .on after ∧ after.file.room = none ∧ after.text = before.text ++ raw := by
  cases progress with
  | on after => exact ⟨after, rfl, added.1, added.2.2⟩
  | halted => exact added.elim

/-- The file has kept what was in it. -/
def Onward (before : Journal) (progress : Progress Journal) : Prop :=
  before.file.contents <+: progress.state.file.contents

theorem onward_andThen (before : Journal) (progress : Progress Journal)
    (step : Journal → Progress Journal) (here : Onward before progress)
    (there : ∀ reached, Onward reached (step reached)) :
    Onward before (progress.andThen step) := by
  cases progress with
  | on reached => exact here.trans (there reached)
  | halted failure reached => exact here

theorem onward_drain (journal : Journal) : Onward journal journal.drain := by
  have kept := journal.file.write_onward journal.pending
  unfold drain
  split <;> rename_i wrote <;> rwa [wrote] at kept

theorem onward_direct (raw : Bytes) (journal : Journal) : Onward journal (direct raw journal) := by
  have kept := journal.file.write_onward raw
  unfold direct
  split <;> rename_i wrote <;> rwa [wrote] at kept

theorem onward_hold (raw : Bytes) (journal : Journal) : Onward journal (hold raw journal) := by
  apply onward_andThen
  · unfold makeRoom
    split
    · exact List.prefix_rfl
    · exact onward_drain journal
  · intro reached
    unfold queue
    split
    · exact onward_direct raw reached
    · exact List.prefix_rfl

theorem onward_write (raw : Bytes) (journal : Journal) : Onward journal (journal.write raw) := by
  unfold write
  split
  · apply onward_andThen _ _ _ _ (onward_hold raw)
    unfold retry
    split
    · exact onward_drain journal
    · exact List.prefix_rfl
  · apply onward_andThen _ _ _ _ (onward_hold _)
    unfold sendLines
    split
    · exact onward_direct _ journal
    · exact onward_andThen _ _ _ (onward_hold _ journal) onward_drain

theorem sendLines_pending (lines : Bytes) (journal reached : Journal)
    (sent : sendLines lines journal = .on reached) : reached.pending = [] := by
  unfold sendLines at sent
  split at sent
  · rename_i clear
    unfold direct at sent
    split at sent <;> cases sent
    exact clear
  · cases held : hold lines journal with
    | halted failure middle => simp [held] at sent
    | on middle =>
        rw [held, Progress.on_andThen, drain] at sent
        split at sent <;> cases sent
        rfl

theorem finished_ne_nil (raw : Bytes) (broken : Text.newline ∈ raw) : finished raw ≠ [] := by
  intro none
  have whole := finished_append_unfinished raw
  rw [none, List.nil_append] at whole
  exact unfinished_unbroken raw (whole.symm ▸ broken)

theorem write_lines (raw : Bytes) (journal after : Journal) (free : journal.file.room = none)
    (went : journal.write raw = .on after) (broken : Text.newline ∈ raw) :
    journal.text ++ finished raw <+: after.file.contents := by
  obtain ⟨reached, sent, _, whole⟩ := (adds_sendLines (finished raw) journal free).on
  rw [write, if_neg (finished_ne_nil raw broken), sent, Progress.on_andThen] at went
  rw [text, sendLines_pending _ journal reached sent, List.append_nil] at whole
  have kept := onward_hold (unfinished raw) reached
  rwa [Onward, went, whole] at kept

theorem write_takes (line : String) (journal after : Journal) (free : journal.file.room = none)
    (went : journal.write (Text.bytes line) = .on after) :
    journal.buffer.Takes (.write line) after.buffer := by
  have kept := onward_write (Text.bytes line) journal
  have added := adds_write (Text.bytes line) journal free
  rw [went] at kept added
  exact ⟨kept, added.2.2, write_lines _ journal after free went, fun same => by cases same⟩

theorem drain_takes (journal after : Journal) (free : journal.file.room = none)
    (went : journal.drain = .on after) : journal.buffer.Takes .flush after.buffer := by
  have kept := onward_drain journal
  have added := adds_drain journal free
  obtain ⟨file, drained, _, _⟩ := drain_free journal free
  rw [went] at kept added drained
  cases drained
  exact ⟨kept, added.2.2, fun broken => absurd broken List.not_mem_nil, fun _ => rfl⟩

theorem writeAll_follows (texts : List String) (journal after : Journal)
    (free : journal.file.room = none) (went : writeAll texts journal = .on after) :
    journal.buffer.Follows (texts.map .write) after.buffer := by
  induction texts generalizing journal with
  | nil =>
      cases went
      exact .nothing
  | cons line rest ih =>
      obtain ⟨reached, first, room, _⟩ := (adds_write (Text.bytes line) journal free).on
      rw [writeAll, first] at went
      have takes := write_takes line journal reached free first
      exact (LineBuffer.Follows.single takes).trans (ih reached room went)

theorem note_follows (remark : Remark) (journal after : Journal)
    (free : journal.file.room = none) (went : journal.note remark = .on after) :
    journal.buffer.Follows remark.acts after.buffer := by
  unfold note at went
  dsimp only at went
  unfold Remark.acts
  split at went
  · rename_i last
    obtain ⟨reached, written, room, _⟩ := (adds_writeAll remark.texts journal free).on
    rw [written] at went
    rw [if_pos last]
    have follows := writeAll_follows remark.texts journal reached free written
    exact follows.trans (.single (drain_takes reached after room went))
  · rename_i more
    rw [if_neg more, List.append_nil]
    exact writeAll_follows remark.texts journal after free went

end Journal

end ContentFilter
