import ContentFilter.Invocation

/-!
The program. Input and output are real here: packets are read from the standard input one at a
time, effects are performed on a desk whose outlets accept everything, and what they accepted is
carried on to the standard output and to the journal's file before the next effect.
-/

namespace ContentFilter.Program

/-- The reason an operation failed, with the number that the system gave it. -/
def reasonOf : IO.Error → String
  | .alreadyExists _ code details | .otherError code details | .resourceBusy code details
  | .resourceVanished code details | .unsupportedOperation code details
  | .hardwareFault code details | .unsatisfiedConstraints code details
  | .illegalOperation code details | .protocolError code details | .timeExpired code details
  | .interrupted _ code details | .noFileOrDirectory _ code details
  | .invalidArgument _ code details | .permissionDenied _ code details
  | .resourceExhausted _ code details | .inappropriateType _ code details
  | .noSuchThing _ code details => s!"{details} (os error {code})"
  | .unexpectedEof => "unexpected end of file"
  | .userError reason => reason

def toByteArray (raw : Bytes) : ByteArray := ⟨raw.toArray⟩

/-- The ends of the outside world that a session uses. -/
structure World where
  input : IO.FS.Stream
  output : IO.FS.Stream
  file : IO.FS.Handle

/-- What a session does in the world; the desk outlives a failure. -/
abbrev Act := ExceptT Failure (StateT Desk IO)

/-- Runs an operation and names its failure. -/
def attempt {Result : Type} (name : String → Failure) (operation : IO Result) : Act Result := do
  match ← EIO.toBaseIO operation with
  | .ok result => return result
  | .error problem => throw (name (reasonOf problem))

/-- Reads `want` bytes, or fewer if the input ends. -/
partial def gather (world : World) (got : ByteArray) (want : Nat) : IO ByteArray := do
  if got.size ≥ want then return got
  let more ← world.input.read (want - got.size).toUSize
  if more.isEmpty then return got
  gather world (got ++ more) want

/-- The arrivals that hold the next packet and nothing else. -/
def arrivals (world : World) : Act Source := do
  let header := (← attempt .channel (gather world .empty Packet.headerSize)).data.toList
  match Packet.readHeader header with
  | .ok (.payload size) =>
      let payload ← attempt .channel (gather world .empty size)
      return [.bytes (header ++ payload.data.toList)]
  | _ => return [.bytes header]

/-- Carries on what the outlets of the desk have accepted, and empties them. -/
def carryOn (world : World) : Act Unit := do
  -- Emptied first, so that nothing is written twice after a failure.
  let desk ← get
  set { desk with sink := {}, journal := { desk.journal with file := {} } }
  let sent := desk.sink.outlet.contents
  if !sent.isEmpty then
    attempt .channel (world.output.write (toByteArray sent))
  if !desk.sink.marks.isEmpty then
    attempt .channel world.output.flush
  let noted := desk.journal.file.contents
  if !noted.isEmpty then
    attempt (.journal desk.journal.path) do
      world.file.write (toByteArray noted)
      world.file.flush

def perform (world : World) (effect : Effect) : Act Unit := do
  match effect.perform (← get) with
  | .halted failure desk =>
      set desk
      throw failure
  | .on desk =>
      set desk
      carryOn world

partial def converse {Phase : Type} (world : World) (dialogue : Dialogue Phase)
    (phase : Phase) : Act Unit := do
  match (← arrivals world).next.1 with
  | .error failure => throw failure
  | .ok none =>
      let farewell := dialogue.hangUp phase
      farewell.effects.forM (perform world)
      match farewell.failure? with
      | some failure => throw failure
      | none => return
  | .ok (some packet) =>
      let reaction := dialogue.hear (← get).memory phase packet
      reaction.effects.forM (perform world)
      match reaction.next with
      | .fail failure => throw failure
      | .finish => return
      | .await phase => converse world dialogue phase

def attend (world : World) (setup : Setup) : Act Unit := do
  perform world (.note .started)
  converse world (Greeting.dialogue requiredCapabilities setup.offered) .identity
  perform world (.note .greeted)
  converse world Exchange.dialogue .command

/-- One session. What still waits in the journal is written last, whatever happened. -/
def session (path : String) (setup : Setup) : IO (Option Failure) := do
  match ← EIO.toBaseIO (IO.FS.Handle.mk path .append) with
  | .error problem => return some (.journal path (reasonOf problem))
  | .ok file =>
      let world : World := ⟨← IO.getStdin, ← IO.getStdout, file⟩
      let (result, desk) ← (attend world setup).run.run ⟨setup.memory, {}, { path }⟩
      let _ ← EIO.toBaseIO do
        file.write (toByteArray desk.journal.pending)
        file.flush
      match result with
      | .ok () => return none
      | .error failure => return some failure

def announce (report : Report) : IO UInt32 := do
  let output ← IO.getStdout
  output.write (toByteArray report.output)
  output.flush
  (← IO.getStderr).putStr report.complaint
  return report.status.toUInt32

end ContentFilter.Program

open ContentFilter in
def main (arguments : List String) : IO UInt32 := do
  match Invocation.ofArguments (arguments.map Text.bytes) with
  | .serve path setup =>
      let shown := Text.display path
      Program.announce (Report.ofSession shown [] (← Program.session shown setup))
  | other => Program.announce (other.carryOut Tree.bare []).1
