import ContentFilter.Text

/-!
The words of the protocol: what a peer may be able to do, what the driver may ask and how a
request can be answered. Each word has one spelling on the wire, and `Command.ofName?_eq_some_iff`
says that no other spelling is read as a command.
-/

namespace ContentFilter

/-- Something a peer offers to do, known by its name only. -/
structure Capability where
  name : String
  deriving DecidableEq, Repr

inductive Command where
  | clean
  | smudge
  | listAvailable
  deriving DecidableEq, Repr

namespace Command

def name : Command → String
  | .clean => "clean"
  | .smudge => "smudge"
  | .listAvailable => "list_available_blobs"

def ofName? (name : String) : Option Command :=
  if name = Command.clean.name then some .clean
  else if name = Command.smudge.name then some .smudge
  else if name = Command.listAvailable.name then some .listAvailable
  else none

def unknownMessage (name : String) : String := s!"unknown command '{name}'"

/-- The capability that has to be in force before the command may change content. Asking for
the list changes none and needs none. -/
def capability? : Command → Option Capability
  | .clean => some ⟨Command.clean.name⟩
  | .smudge => some ⟨Command.smudge.name⟩
  | .listAvailable => none

theorem ofName?_eq_some_iff (text : String) (command : Command) :
    ofName? text = some command ↔ text = command.name := by
  constructor
  · intro read
    unfold ofName? at read
    split at read
    · cases read; assumption
    · split at read
      · cases read; assumption
      · split at read
        · cases read; assumption
        · cases read
  · rintro rfl
    cases command <;> decide

end Command

inductive Status where
  | success
  | error
  | abort
  | delayed
  deriving DecidableEq, Repr

namespace Status

def name : Status → String
  | .success => "success"
  | .error => "error"
  | .abort => "abort"
  | .delayed => "delayed"

def all : List Status := [.success, .error, .abort, .delayed]

end Status

/-! ### The fixed lines of the greeting -/

def clientIdentity : String := "git-filter-client"
def serverIdentity : String := "git-filter-server"
def versionLine : String := "version=2"

/-- What the driver must be able to do before a session can start. -/
def requiredCapabilities : List Capability := [⟨"clean"⟩, ⟨"smudge"⟩, ⟨"delay"⟩]

end ContentFilter
