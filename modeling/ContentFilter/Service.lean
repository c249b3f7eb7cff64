import ContentFilter.Exchange
import ContentFilter.Greeting

/-!
A whole session: the journal is opened with a line of its own, the driver is greeted, and requests
are answered until the channel closes.
-/

namespace ContentFilter

/-- What a filter is set up with. -/
structure Setup where
  delaysAll : Bool := false
  offered : List Capability
  deriving DecidableEq, Repr

namespace Setup

/-- The memory at the start of a session, before any capability is in force. -/
def memory (setup : Setup) : Memory := { delaysAll := setup.delaysAll }

end Setup

namespace Service

def greet (required offered : List Capability) (source : Source) (desk : Desk) : Ending :=
  (Greeting.dialogue required offered).converse .identity source desk

/-- One effect between two dialogues. -/
def noting (remark : Remark) (source : Source) (desk : Desk) : Ending :=
  match (Effect.note remark).perform desk with
  | .on desk => ⟨none, source, desk⟩
  | .halted failure desk => ⟨some failure, source, desk⟩

def attend (setup : Setup) (source : Source) (sink : Sink) (journal : Journal) : Ending :=
  (noting .started source ⟨setup.memory, sink, journal⟩)
    |>.andThen (greet requiredCapabilities setup.offered)
    |>.andThen (noting .greeted)
    |>.andThen Exchange.converse

end Service

end ContentFilter
