import ContentFilter.Journal.Folder
import ContentFilter.Report
import ContentFilter.Service

/-!
The command line:

    rot13-filter [--always-delay] <log path> <capability>...

Arguments are read from the left and the first that cannot be accepted decides. Behind `--` every
argument is a path or a capability, also one that starts with a hyphen. A path may be any bytes
but none at all; a capability has to be text.
-/

namespace ContentFilter

inductive Invocation where
  | serve (path : Bytes) (setup : Setup)
  | version
  | help
  | misuse
  deriving DecidableEq, Repr

namespace Invocation

def hyphen : UInt8 := 45

/-- What has been gathered from the arguments so far; the capabilities stand in reverse. -/
structure Gathered where
  delaysAll : Bool := false
  path : Option Bytes := none
  reversed : List Capability := []

/-- Takes an argument that is no option. -/
def Gathered.take? (gathered : Gathered) (argument : Bytes) : Option Gathered :=
  match gathered.path with
  | none => if argument = [] then none else some { gathered with path := some argument }
  | some _ => (Text.ofBytes? argument).map fun name =>
      { gathered with reversed := ⟨name⟩ :: gathered.reversed }

def Gathered.conclude (gathered : Gathered) : Invocation :=
  match gathered.path, gathered.reversed with
  | some path, _ :: _ =>
      .serve path { delaysAll := gathered.delaysAll, offered := gathered.reversed.reverse }
  | _, _ => .misuse

/-- How one argument is to be read in front of `--`. -/
inductive Reading where
  | plain
  | delaysAll
  | endOfOptions
  | version
  | help
  | unknown
  deriving DecidableEq, Repr

/-- A lone hyphen is no option, and the first letter of a group of short options decides. -/
def readingOf (argument : Bytes) : Reading :=
  if argument = Text.bytes "--" then .endOfOptions
  else if argument = Text.bytes "--always-delay" then .delaysAll
  else if argument = Text.bytes "--version" then .version
  else if argument = Text.bytes "--help" then .help
  else match argument with
    | first :: letter :: _ =>
        if first ≠ hyphen then .plain
        else if letter = 86 then .version
        else if letter = 104 then .help
        else .unknown
    | _ => .plain

def takeAll (gathered : Gathered) : List Bytes → Invocation
  | [] => gathered.conclude
  | argument :: rest =>
      match gathered.take? argument with
      | some gathered => takeAll gathered rest
      | none => .misuse

def scan (gathered : Gathered) : List Bytes → Invocation
  | [] => gathered.conclude
  | argument :: rest =>
      match readingOf argument with
      | .endOfOptions => takeAll gathered rest
      | .delaysAll =>
          if gathered.delaysAll then .misuse else scan { gathered with delaysAll := true } rest
      | .version => .version
      | .help => .help
      | .unknown => .misuse
      | .plain =>
          match gathered.take? argument with
          | some gathered => scan gathered rest
          | none => .misuse

def ofArguments (arguments : List Bytes) : Invocation := scan {} arguments

/-! ### Carrying out -/

def usage : String := "Usage: rot13-filter [--always-delay] <LOG_PATH> <CAPABILITIES>...\n"

def versionText : String := "rot13-filter 0.1.0\n"

/-- Serves one session with its journal in the tree. -/
def session (tree : Tree) (path : Bytes) (setup : Setup) (source : Source) : Report × Tree :=
  let shown := Text.display path
  match Journal.openAt tree path with
  | .error failure => (Report.ofSession shown [] (some failure), tree)
  | .ok (place, journal) =>
      let ending := Service.attend setup source {} journal
      (Report.ofSession shown ending.desk.sink.outlet.contents ending.failure?,
        tree.store place ending.desk.journal.close)

/-- Carries out an invocation among the files of `tree`. -/
def carryOut (tree : Tree) (source : Source) : Invocation → Report × Tree
  | .serve path setup => session tree path setup source
  | .version => (⟨0, Text.bytes versionText, ""⟩, tree)
  | .help => (⟨0, Text.bytes usage, ""⟩, tree)
  | .misuse => (⟨2, [], usage⟩, tree)

end Invocation

end ContentFilter
