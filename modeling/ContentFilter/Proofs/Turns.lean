import ContentFilter.Exchange

/-!
The exchange without its wire: one complete request at a time.

    memory -- call --> turn: what is sent and noted in reply, and the memory afterwards

A turn is decided by two independent lists of cases, one for the output and one for the status, and
knows neither packets to come nor phases. `turns` plays a whole session; a turn that ends the
session is its last.
-/

namespace ContentFilter

namespace Exchange

def isDetail (line : String) : Bool := line == mayDelayLine || isNoted line

end Exchange

/-- A complete request for one file as the driver sends it, its payload cut into pieces. -/
structure FileCall where
  command : Command
  pathname : String
  details : List String
  pieces : List Bytes
  forFile : command ≠ .listAvailable := by decide
  named : pathname ≠ "" := by decide
  known : ∀ line ∈ details, Exchange.isDetail line = true := by decide
  deriving DecidableEq, Repr

namespace FileCall

def mayDelay (call : FileCall) : Bool := decide (Exchange.mayDelayLine ∈ call.details)

def payload (call : FileCall) : Bytes := call.pieces.flatten

def request (call : FileCall) : Request := ⟨call.command, call.pathname, call.payload⟩

@[simp] theorem request_command (call : FileCall) : call.request.command = call.command := rfl
@[simp] theorem request_pathname (call : FileCall) : call.request.pathname = call.pathname := rfl
@[simp] theorem request_payload (call : FileCall) : call.request.payload = call.payload := rfl

end FileCall

inductive Call where
  | list
  | file (call : FileCall)
  deriving DecidableEq, Repr

inductive Reply where
  | listed (announcement : Announcement)
  | answered (answer : Answer)
  /-- Nothing is sent, and the session ends. -/
  | unsupported
  deriving DecidableEq, Repr

structure Turn where
  call : Call
  reply : Reply
  memory : Memory

/-! ### What is decided -/

namespace Memory

/-- A new filter with these capabilities in force. -/
def fresh (capabilities : List Capability) (delaysAll : Bool) : Memory :=
  { capabilities, delaysAll }

def permit (memory : Memory) (pathname : String) : Memory :=
  match memory.allowDelay pathname with
  | .ok allowed => allowed
  | .error _ => memory

-- The first that applies: what was kept, nothing, the payload rotated.
def outputFor? (memory : Memory) (request : Request) : Option Bytes :=
  match memory.kept? request.pathname, memory.rule? request.command request.pathname with
  | some kept, _ => some kept
  | none, some .refuse => some []
  | none, some .abort => some []
  | none, _ =>
      if memory.supports request.command then some (Rotation.rotate request.payload) else none

-- The first that applies, whatever the output is.
def statusFor (memory : Memory) (request : Request) : Status :=
  match memory.rule? request.command request.pathname with
  | some .abort => .abort
  | some .refuse => .error
  | _ =>
      if request.command = .smudge && memory.isAwaited request.pathname then .delayed
      else .success

def replyTo (memory : Memory) (request : Request) : Reply :=
  match memory.outputFor? request with
  | none => .unsupported
  | some output => .answered <| match memory.statusFor request with
      | .abort => .aborted
      | .error => .refused
      | .delayed => .delayed output
      | .success =>
          if memory.rule? request.command request.pathname = some .breakOff then .brokenOff
          else .content output

def settle (memory : Memory) (request : Request) : Reply → Memory
  | .answered .aborted => memory.abort request.command
  | .answered (.delayed output) => memory.fill request.pathname output
  | _ => memory

/-- The memory in which a request for a file is decided. -/
def allowing (memory : Memory) (call : FileCall) : Memory :=
  if call.mayDelay then memory.permit call.pathname else memory

def turn (memory : Memory) : Call → Turn
  | .list => ⟨.list, .listed memory.waitlist.announcement, memory.countDown⟩
  | .file call =>
      let allowed := memory.allowing call
      let reply := allowed.replyTo call.request
      ⟨.file call, reply, allowed.settle call.request reply⟩

end Memory

/-! ### What is sent and noted -/

namespace Packet

def say (line : String) : Packet := .data (Text.bytes line)

def ofStatus (status : Status) : List Packet := [say (Exchange.statusLine status), .flush]

end Packet

namespace Reply

def packets : Reply → List Packet
  | .listed announcement =>
      announcement.announced.map (fun pathname => .say (Exchange.pathnameLine pathname))
        ++ [.flush] ++ Packet.ofStatus .success
  | .answered .aborted => Packet.ofStatus .abort
  | .answered .refused => Packet.ofStatus .error
  | .answered (.delayed _) => Packet.ofStatus .delayed
  | .answered (.content output) =>
      Packet.ofStatus .success ++ (Packet.cut output).map .data ++ [.flush, .flush]
  | .answered .brokenOff => Packet.ofStatus .success
  | .unsupported => []

def remarks : Reply → List Remark
  | .listed announcement => [.available announcement.ready]
  | .answered .aborted => [.unsent .abort]
  | .answered .refused => [.unsent .error]
  | .answered (.delayed _) => [.unsent .delayed]
  | .answered (.content output) => [.sending output.length, .sent (Packet.cut output).length]
  | .answered .brokenOff => [.unsent .writeFail]
  | .unsupported => []

/-- Why the session ends with a reply to `command`, if it does. -/
def failure? (command : Command) : Reply → Option Failure
  | .unsupported => some (.unsupported command.name)
  | .answered .brokenOff => some (.brokenOff command)
  | _ => none

end Reply

namespace Call

def remarks : Call → List Remark
  | .list => [.heard .listAvailable]
  | .file call =>
      [.heard call.command, .field call.pathname]
        ++ (call.details.filter Exchange.isNoted).map .field ++ [.received call.payload.length]

end Call

namespace Turn

def remarks (turn : Turn) : List Remark := turn.call.remarks ++ turn.reply.remarks

def failure? (turn : Turn) : Option Failure :=
  match turn.call with
  | .list => none
  | .file call => turn.reply.failure? call.command

end Turn

namespace Memory

def turns (memory : Memory) : List Call → List Turn
  | [] => []
  | call :: rest =>
      memory.turn call ::
        match (memory.turn call).failure? with
        | none => turns (memory.turn call).memory rest
        | some _ => []

theorem turn_call (memory : Memory) (call : Call) : (memory.turn call).call = call := by
  cases call <;> rfl

/-! ### The two lists of cases against the one that the filter runs through -/

theorem allowDelay_eq_permit (memory : Memory) (pathname : String) :
    memory.allowDelay pathname = .ok (memory.permit pathname) := by
  unfold permit
  cases allowed : memory.allowDelay pathname with
  | ok after => rfl
  | error problem =>
      -- A ticket is added only for a pathname that has none.
      unfold allowDelay at allowed
      cases found : memory.waitlist.find? pathname with
      | some ticket => simp [found] at allowed
      | none =>
          cases all : memory.delaysAll <;>
            simp [found, all, Waitlist.addAsked, Waitlist.add, Except.map] at allowed

theorem outputFor?_eq_output? (memory : Memory) (request : Request)
    (unforced : memory.rule? request.command request.pathname ≠ some .refuse ∧
      memory.rule? request.command request.pathname ≠ some .abort) :
    memory.outputFor? request = memory.output? request := by
  unfold outputFor? output?
  cases memory.kept? request.pathname with
  | some kept => rfl
  | none => split <;> simp_all

theorem outputFor?_isSome (memory : Memory) (request : Request)
    (forced : memory.rule? request.command request.pathname = some .refuse ∨
      memory.rule? request.command request.pathname = some .abort) :
    ∃ output, memory.outputFor? request = some output := by
  unfold outputFor?
  cases memory.kept? request.pathname with
  | some kept => exact ⟨kept, rfl⟩
  | none => rcases forced with rule | rule <;> exact ⟨[], by rw [rule]⟩

-- Without these two rules the status only looks at the ticket.
theorem answer?_unforced (memory : Memory) (request : Request)
    (unforced : memory.rule? request.command request.pathname ≠ some .refuse ∧
      memory.rule? request.command request.pathname ≠ some .abort) :
    memory.answer? request = (memory.output? request).map fun output =>
      if request.command = .smudge && memory.isAwaited request.pathname then .delayed output
      else if memory.rule? request.command request.pathname = some .breakOff then .brokenOff
      else .content output := by
  unfold answer?
  split <;> simp_all

theorem replyTo_eq (memory : Memory) (request : Request) :
    memory.replyTo request =
      match memory.answer? request with
      | none => .unsupported
      | some answer => .answered answer := by
  by_cases abort : memory.rule? request.command request.pathname = some .abort
  · obtain ⟨output, decided⟩ := outputFor?_isSome memory request (.inr abort)
    simp only [replyTo, decided, statusFor, answer?, abort]
  by_cases refuse : memory.rule? request.command request.pathname = some .refuse
  · obtain ⟨output, decided⟩ := outputFor?_isSome memory request (.inl refuse)
    simp only [replyTo, decided, statusFor, answer?, refuse]
  have status : memory.statusFor request =
      if request.command = .smudge && memory.isAwaited request.pathname then .delayed
      else .success := by
    unfold statusFor
    split <;> simp_all
  rw [replyTo, outputFor?_eq_output? memory request ⟨refuse, abort⟩, status,
    answer?_unforced memory request ⟨refuse, abort⟩]
  cases memory.output? request with
  | none => rfl
  | some output =>
      simp only [Option.map_some]
      by_cases awaited : (request.command = .smudge && memory.isAwaited request.pathname) = true
      · rw [if_pos awaited, if_pos awaited]
      · rw [if_neg awaited, if_neg awaited]

theorem settle_answered (memory : Memory) (request : Request) (answer : Answer) :
    memory.settle request (.answered answer) = memory.after request answer := by
  cases answer <;> rfl

end Memory

end ContentFilter
