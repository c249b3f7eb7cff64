import ContentFilter.Rotation
import ContentFilter.Failure

/-!
What a filter remembers from one request to the next: the capabilities in force, the waitlist and
which commands have been aborted. The functions here decide how a request is treated; none of them
reads or writes.
-/

namespace ContentFilter

structure Memory where
  capabilities : List Capability := []
  /-- Whether every pathname that may be delayed is, and not only those on the waitlist. -/
  delaysAll : Bool
  waitlist : Waitlist := Waitlist.seeded
  aborted : Command → Bool := fun _ => false

/-- A complete request for one file. -/
structure Request where
  command : Command
  pathname : String
  payload : Bytes
  deriving DecidableEq, Repr

/-- How a request for one file is answered. -/
inductive Answer where
  | refused
  | aborted
  /-- The output is kept until it is asked for again. -/
  | delayed (output : Bytes)
  | content (output : Bytes)
  /-- Success is declared and nothing follows. -/
  | brokenOff
  deriving DecidableEq, Repr

namespace Memory

/-- Whether the capability that the command needs is in force; no capability stands for asking
for the list. -/
def supports (memory : Memory) (command : Command) : Bool :=
  match command.capability? with
  | some capability => memory.capabilities.contains capability
  | none => false

/-- The driver allows `pathname` to be delayed. -/
def allowDelay (memory : Memory) (pathname : String) : Except Duplicate Memory :=
  match memory.waitlist.find? pathname with
  | some _ => .ok { memory with
      waitlist := (memory.waitlist.ask? pathname).getD memory.waitlist }
  | none =>
      if memory.delaysAll then
        (memory.waitlist.addAsked pathname Ticket.onTheFly).map fun waitlist =>
          { memory with waitlist }
      else .ok memory

/-- Whether the next smudge of `pathname` is to be delayed. -/
def isAwaited (memory : Memory) (pathname : String) : Bool :=
  match memory.waitlist.find? pathname with
  | some ticket => ticket.stage == .asked
  | none => false

/-- The output that an earlier smudge of `pathname` left behind. -/
def kept? (memory : Memory) (pathname : String) : Option Bytes :=
  (memory.waitlist.find? pathname).bind fun ticket => ticket.stage.output?

/-- The rule for one request: once a command has been aborted, every later request with it is. -/
def rule? (memory : Memory) (command : Command) (pathname : String) :
    Option Reserved.FileRule :=
  if memory.aborted command then some .abort else Reserved.fileRule? command pathname

def abort (memory : Memory) (command : Command) : Memory :=
  { memory with aborted := fun other => other == command || memory.aborted other }

def fill (memory : Memory) (pathname : String) (output : Bytes) : Memory :=
  { memory with waitlist := (memory.waitlist.fill? pathname output).getD memory.waitlist }

def countDown (memory : Memory) : Memory :=
  { memory with waitlist := memory.waitlist.countDown }

/-- The content for a request that is neither refused nor aborted: what was kept for the pathname,
else the payload rotated, if the command may be used at all. -/
def output? (memory : Memory) (request : Request) : Option Bytes :=
  match memory.kept? request.pathname with
  | some kept => some kept
  | none =>
      if memory.supports request.command then some (Rotation.rotate request.payload) else none

/-- `none` when the request needs a capability that is not in force. A refusal or an abort needs
none, and a delay is decided before a planned death. -/
def answer? (memory : Memory) (request : Request) : Option Answer :=
  match memory.rule? request.command request.pathname with
  | some .abort => some .aborted
  | some .refuse => some .refused
  -- The planned death is left to the end, where it only replaces content.
  | rule => (memory.output? request).map fun output =>
      if request.command = .smudge && memory.isAwaited request.pathname then .delayed output
      else if rule = some .breakOff then .brokenOff
      else .content output

/-- The memory once a request has been answered. -/
def after (memory : Memory) (request : Request) : Answer → Memory
  | .aborted => memory.abort request.command
  | .delayed output => memory.fill request.pathname output
  | .refused | .content _ | .brokenOff => memory

end Memory

end ContentFilter
