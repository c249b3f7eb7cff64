import ContentFilter.Dialogue

/-!
The greeting opens a session. The driver names itself and the version and is answered in kind;
then it lists what it can do, and the filter confirms exactly what it was set up to offer. Any
deviation ends the session. Nothing is written until the identity and version group is complete,
and a capability is confirmed only after the whole list has been heard.
-/

namespace ContentFilter.Greeting

inductive Phase where
  | identity
  | version
  | versionEnd
  | capabilities (heard : List Capability)
  deriving DecidableEq, Repr

def capabilityLine (capability : Capability) : String :=
  s!"capability={capability.name}\n"

def hello : List Effect := [.say serverIdentity, .say versionLine, .flush]

/-- Accepts one line only. -/
def expect (what line : String) (next : Phase) (packet : Packet) : Reaction Phase :=
  match packet.line? with
  | .error problem => .violation problem
  | .ok found =>
      if found = some line then { next := .await next }
      else .violation (.badLine what (found.getD ""))

/-- Confirms the offered capabilities in order. One that the driver did not name ends the
session; those in front of it have been confirmed by then. -/
def confirm (heard : List Capability) (memory : Memory) :
    List Capability → List Capability → Reaction Phase
  | offered, [] =>
      { effects := [.flush, .remember { memory with capabilities := offered }], next := .finish }
  | offered, capability :: rest =>
      if capability ∈ heard then
        let later := confirm heard memory offered rest
        { later with effects := .say (capabilityLine capability) :: later.effects }
      else .violation (.lacksOffered capability)

def conclude (required offered heard : List Capability) (memory : Memory) : Reaction Phase :=
  match required.find? (· ∉ heard) with
  | some missing => .violation (.lacksRequired missing)
  | none => confirm heard memory offered offered

def hear (required offered : List Capability) (memory : Memory) (phase : Phase)
    (packet : Packet) : Reaction Phase :=
  match phase with
  | .identity => expect "initialize" clientIdentity .version packet
  | .version => expect "version" versionLine .versionEnd packet
  | .versionEnd =>
      match packet.closing "version end" with
      | .error problem => .violation problem
      | .ok () => { effects := hello, next := .await (.capabilities []) }
  | .capabilities heard =>
      match packet.line? with
      | .error problem => .violation problem
      | .ok none => conclude required offered heard memory
      | .ok (some line) =>
          match Text.after? "capability=" line with
          | some name =>
              if name = "" then .violation (.badLine "capability" line)
              else { next := .await (.capabilities (⟨name⟩ :: heard)) }
          | none => .violation (.badLine "capability" line)

def hangUp (phase : Phase) : Farewell where
  failure? := some <| .violation <| match phase with
    | .versionEnd => .endBefore "version end"
    | .identity | .version | .capabilities _ => .endInLine

/-- The greeting of a filter that insists on `required` and offers `offered`. When it finishes,
the offered capabilities are in force. -/
def dialogue (required offered : List Capability) : Dialogue Phase where
  hear := hear required offered
  hangUp := hangUp

end ContentFilter.Greeting
