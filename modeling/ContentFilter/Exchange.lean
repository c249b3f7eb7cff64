import ContentFilter.Dialogue

/-!
The exchange of requests and replies that follows the greeting:

    command  -- list query -->   listEnd --> reply --> command
    command  -- file request --> pathname --> details --> content --> reply --> command
    command  -- channel closed --> the session ends well

A request is heard to its end before any byte of the reply is sent, and every reply ends with a
flush.
-/

namespace ContentFilter.Exchange

inductive Phase where
  | command
  | listEnd
  | pathname (command : Command)
  | details (command : Command) (pathname : String) (mayDelay : Bool)
  | content (command : Command) (pathname : String) (received : Array UInt8)
  deriving DecidableEq, Repr

def mayDelayLine : String := "can-delay=1"

/-- The keys of the detail lines that are noted without being interpreted. -/
def notedKeys : List String := ["ref", "treeish", "blob"]

def isNoted (line : String) : Bool :=
  notedKeys.any fun key => (Text.after? (key ++ "=") line).isSome

def statusLine (status : Status) : String := "status=" ++ status.name

def pathnameLine (pathname : String) : String := "pathname=" ++ pathname

/-! ### Replies -/

def sayStatus (status : Status) : List Effect := [.say (statusLine status), .flush]

/-- The reply to the list query. -/
def listReply (memory : Memory) : List Effect :=
  let announcement := memory.waitlist.announcement
  -- The countdown comes first: a query whose reply is refused counts as well.
  .remember memory.countDown
    :: announcement.announced.map (fun pathname => .say (pathnameLine pathname))
    ++ [.note (.available announcement.ready), .flush]
    ++ sayStatus .success

def contentReply (output : Bytes) : List Effect :=
  let packets := Packet.cut output
  [.note (.sending output.length)] ++ packets.map .send
    ++ [.flush, .note (.sent packets.length), .flush]

/-- The reply to a file request. An abort is remembered before it is noted, a delayed output only
after. -/
def fileReply (memory : Memory) (request : Request) (answer : Answer) : List Effect :=
  let remember := Effect.remember (memory.after request answer)
  match answer with
  | .aborted => remember :: .note (.unsent .abort) :: sayStatus .abort
  | .refused => .note (.unsent .error) :: sayStatus .error
  | .delayed _ => .note (.unsent .delayed) :: remember :: sayStatus .delayed
  | .content output => sayStatus .success ++ contentReply output
  | .brokenOff => sayStatus .success ++ [.note (.unsent .writeFail)]

/-- Answers a complete file request. -/
def conclude (memory : Memory) (request : Request) : Reaction Phase :=
  let received := Effect.note (.received request.payload.length)
  match memory.answer? request with
  | none => { effects := [received], next := .fail (.unsupported request.command.name) }
  | some answer =>
      { effects := received :: fileReply memory request answer
        next := match answer with
          | .brokenOff => .fail (.brokenOff request.command)
          | _ => .await .command }

/-! ### Requests -/

def hearCommand (packet : Packet) : Reaction Phase :=
  match packet.field "command" with
  | .error problem => .violation problem
  | .ok name =>
      match Command.ofName? name with
      | none => { next := .fail (.unsupported name) }
      | some command =>
          { effects := [.note (.heard command)]
            next := .await (if command = .listAvailable then .listEnd else .pathname command) }

def hearListEnd (memory : Memory) (packet : Packet) : Reaction Phase :=
  match packet.closing "list_available_blobs end" with
  | .error problem => .violation problem
  | .ok () => { effects := listReply memory, next := .await .command }

def hearPathname (command : Command) (packet : Packet) : Reaction Phase :=
  match packet.field "pathname" with
  | .error problem => .violation problem
  | .ok pathname =>
      { effects := [.note (.field pathname)], next := .await (.details command pathname false) }

def hearDetail (memory : Memory) (command : Command) (pathname : String) (mayDelay : Bool)
    (packet : Packet) : Reaction Phase :=
  match packet.line? with
  | .error problem => .violation problem
  | .ok none =>
      let next := Next.await (.content command pathname #[])
      if mayDelay then
        match memory.allowDelay pathname with
        | .error what => { next := .fail (.duplicate what) }
        | .ok memory => { effects := [.remember memory], next }
      else { next }
  | .ok (some line) =>
      if line = mayDelayLine then { next := .await (.details command pathname true) }
      else if isNoted line then
        { effects := [.note (.field line)], next := .await (.details command pathname mayDelay) }
      else .violation (.unknownDetail line)

def hearContent (memory : Memory) (command : Command) (pathname : String)
    (received : Array UInt8) : Packet → Reaction Phase
  | .data payload => { next := .await (.content command pathname (received ++ payload)) }
  | .flush => conclude memory ⟨command, pathname, received.toList⟩

def hear (memory : Memory) (phase : Phase) (packet : Packet) : Reaction Phase :=
  match phase with
  | .command => hearCommand packet
  | .listEnd => hearListEnd memory packet
  | .pathname command => hearPathname command packet
  | .details command pathname mayDelay => hearDetail memory command pathname mayDelay packet
  | .content command pathname received => hearContent memory command pathname received packet

/-- The driver may close the channel between two requests and nowhere else. -/
def hangUp : Phase → Farewell
  | .command => { effects := [.note .stopped], failure? := none }
  | .listEnd => { failure? := some (.violation (.endBefore "list_available_blobs end")) }
  | .pathname _ => { failure? := some (.violation .endBeforePathname) }
  | .details _ _ _ => { failure? := some (.violation .endInLine) }
  | .content _ _ _ => { failure? := some (.violation .endInContent) }

def dialogue : Dialogue Phase := ⟨hear, hangUp⟩

/-- Answers requests until the driver closes the channel. -/
def converse (source : Source) (desk : Desk) : Ending :=
  dialogue.converse .command source desk

end ContentFilter.Exchange
