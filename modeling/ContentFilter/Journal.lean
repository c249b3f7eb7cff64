import ContentFilter.Journal.Remark
import ContentFilter.Progress
import ContentFilter.Wire.Outlet

/-!
A journal is appended to and line buffered: a write that holds a newline sends everything up to
its last newline on to the file, and the unfinished line waits. A line too long to wait is sent on
early, so a reader of the file may see a record grow, but never misses a finished one.
-/

namespace ContentFilter

structure Journal where
  /-- The path as it appears in messages. -/
  path : String
  file : Outlet := {}
  pending : Bytes := []
  deriving DecidableEq, Repr

namespace Journal

/-- How many bytes may wait. -/
def patience : Nat := 1024

def endsLine (raw : Bytes) : Bool := raw.getLast? == some Text.newline

/-- Everything up to the last newline. -/
def finished (raw : Bytes) : Bytes := (raw.reverse.dropWhile (· != Text.newline)).reverse

/-- Everything behind the last newline. -/
def unfinished (raw : Bytes) : Bytes := (raw.reverse.takeWhile (· != Text.newline)).reverse

theorem finished_append_unfinished (raw : Bytes) : finished raw ++ unfinished raw = raw := by
  simp only [finished, unfinished, ← List.reverse_append, List.takeWhile_append_dropWhile,
    List.reverse_reverse]

/-- Sends what waits to the file. Bytes that are refused go on waiting. -/
def drain (journal : Journal) : Progress Journal :=
  match journal.file.write journal.pending with
  | ([], file) => .on { journal with file, pending := [] }
  | (rest, file) =>
      .halted (.journal journal.path file.refusal) { journal with file, pending := rest }

/-- Writes to the file past what waits. -/
def direct (raw : Bytes) (journal : Journal) : Progress Journal :=
  match journal.file.write raw with
  | ([], file) => .on { journal with file }
  | (_ :: _, file) => .halted (.journal journal.path file.refusal) { journal with file }

/-- Sends on what waits if `size` more bytes would be too many. -/
def makeRoom (size : Nat) (journal : Journal) : Progress Journal :=
  if journal.pending.length + size ≤ patience then .on journal else journal.drain

/-- Adds `raw` to what waits, unless it is too long to wait at all. -/
def queue (raw : Bytes) (journal : Journal) : Progress Journal :=
  if patience ≤ raw.length then direct raw journal
  else .on { journal with pending := journal.pending ++ raw }

/-- Lets `raw` wait behind what waits already. -/
def hold (raw : Bytes) (journal : Journal) : Progress Journal :=
  (journal.makeRoom raw.length).andThen (queue raw)

/-- Tries again to send a finished line that was refused before. -/
def retry (journal : Journal) : Progress Journal :=
  if endsLine journal.pending then journal.drain else .on journal

/-- Sends finished lines on, behind what waits. -/
def sendLines (lines : Bytes) (journal : Journal) : Progress Journal :=
  if journal.pending = [] then direct lines journal else (hold lines journal).andThen drain

def write (raw : Bytes) (journal : Journal) : Progress Journal :=
  if finished raw = [] then journal.retry.andThen (hold raw)
  else (sendLines (finished raw) journal).andThen (hold (unfinished raw))

def writeAll : List String → Journal → Progress Journal
  | [], journal => .on journal
  | text :: rest, journal => (journal.write (Text.bytes text)).andThen (writeAll rest)

/-- Notes a remark. The last one of a session leaves nothing waiting. -/
def note (remark : Remark) (journal : Journal) : Progress Journal :=
  let noted := journal.writeAll remark.texts
  if remark = .stopped then noted.andThen drain else noted

/-- The file once the journal has been closed, which sends on what waits and reports nothing. -/
def close (journal : Journal) : Outlet := journal.drain.state.file

/-! ### A journal that is never refused

Whatever is written stands behind what stood there, partly in the file and partly waiting. So
`adds_write` says, however the writes are cut and wherever the newlines are.
-/

/-- The file with what still waits. -/
def text (journal : Journal) : Bytes := journal.file.contents ++ journal.pending

/-- `raw` was written behind everything in `before`, and more can be written. -/
def Adds (before : Journal) (raw : Bytes) : Progress Journal → Prop
  | .on after =>
      after.file.room = none ∧ after.path = before.path ∧ after.text = before.text ++ raw
  | .halted _ _ => False

theorem adds_andThen (before : Journal) (first second : Bytes) (progress : Progress Journal)
    (step : Journal → Progress Journal) (added : Adds before first progress)
    (more : ∀ reached, progress = .on reached → reached.file.room = none →
      Adds reached second (step reached)) :
    Adds before (first ++ second) (progress.andThen step) := by
  cases progress with
  | halted => exact added.elim
  | on reached =>
      obtain ⟨free, path, text⟩ := added
      have next := more reached rfl free
      simp only [Progress.on_andThen]
      cases after : step reached with
      | halted => simp [after, Adds] at next
      | on after =>
          simp only [after, Adds] at next ⊢
          exact ⟨next.1, next.2.1.trans path, by rw [next.2.2, text, List.append_assoc]⟩

theorem adds_direct (raw : Bytes) (journal : Journal) (free : journal.file.room = none)
    (clear : journal.pending = []) : Adds journal raw (direct raw journal) := by
  simp [direct, Outlet.write, free, Adds, text, Outlet.contents, clear]

theorem drain_free (journal : Journal) (free : journal.file.room = none) :
    ∃ file, journal.drain = .on { journal with file, pending := [] } ∧ file.room = none ∧
      file.contents = journal.text := by
  simp [drain, Outlet.write, free, text, Outlet.contents]

theorem adds_drain (journal : Journal) (free : journal.file.room = none) :
    Adds journal [] journal.drain := by
  obtain ⟨file, drained, room, contents⟩ := drain_free journal free
  rw [drained]
  exact ⟨room, rfl, by simp [text, contents]⟩

theorem adds_makeRoom (size : Nat) (journal : Journal) (free : journal.file.room = none) :
    Adds journal [] (journal.makeRoom size) := by
  unfold makeRoom
  split
  · exact ⟨free, rfl, by simp⟩
  · exact adds_drain journal free

theorem makeRoom_pending (size : Nat) (journal reached : Journal)
    (free : journal.file.room = none) (made : journal.makeRoom size = .on reached)
    (large : patience ≤ size) : reached.pending = [] := by
  unfold makeRoom at made
  split at made
  · cases made
    apply List.eq_nil_of_length_eq_zero
    omega
  · obtain ⟨file, drained, _, _⟩ := drain_free journal free
    rw [drained] at made
    cases made
    rfl

theorem adds_hold (raw : Bytes) (journal : Journal) (free : journal.file.room = none) :
    Adds journal raw (hold raw journal) := by
  have added := adds_andThen journal [] raw (journal.makeRoom raw.length) (queue raw)
    (adds_makeRoom _ journal free)
  rw [List.nil_append] at added
  apply added
  intro reached made room
  unfold queue
  split
  -- A write too long to wait overtakes nothing: room was made for it first.
  · rename_i large
    exact adds_direct raw reached room (makeRoom_pending _ journal reached free made large)
  · exact ⟨room, rfl, by simp [text]⟩

theorem adds_retry (journal : Journal) (free : journal.file.room = none) :
    Adds journal [] journal.retry := by
  unfold retry
  split
  · exact adds_drain journal free
  · exact ⟨free, rfl, by simp⟩

theorem adds_sendLines (lines : Bytes) (journal : Journal) (free : journal.file.room = none) :
    Adds journal lines (sendLines lines journal) := by
  unfold sendLines
  split
  · rename_i clear
    exact adds_direct lines journal free clear
  · have added := adds_andThen journal lines [] (hold lines journal) drain
      (adds_hold lines journal free) (fun reached _ room => adds_drain reached room)
    rwa [List.append_nil] at added

theorem adds_write (raw : Bytes) (journal : Journal) (free : journal.file.room = none) :
    Adds journal raw (write raw journal) := by
  unfold write
  split
  · have added := adds_andThen journal [] raw journal.retry (hold raw)
      (adds_retry journal free) (fun reached _ room => adds_hold raw reached room)
    rwa [List.nil_append] at added
  · have added := adds_andThen journal (finished raw) (unfinished raw) _ (hold (unfinished raw))
      (adds_sendLines _ journal free) (fun reached _ room => adds_hold _ reached room)
    rwa [finished_append_unfinished] at added

end Journal

end ContentFilter
