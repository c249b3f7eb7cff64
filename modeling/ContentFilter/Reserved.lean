import ContentFilter.Vocabulary

/-!
Reserved pathnames. The filter is a test double: some pathnames make it misbehave on purpose, so
that a driver can be seen to cope. A pathname is reserved by its exact bytes and, where a rule
belongs to one command, under that command only.
-/

namespace ContentFilter.Reserved

/-- What a reserved pathname forces on one request for a file. -/
inductive FileRule where
  /-- The request is answered with an error. -/
  | refuse
  /-- The request is aborted, and every later one with the same command. -/
  | abort
  /-- Success is declared, then the filter dies before it sends content. -/
  | breakOff
  deriving DecidableEq, Repr

/-- What a reserved pathname does to an answer to the list query. -/
inductive ListRule where
  /-- A pathname that was never delayed is announced as well. -/
  | addStranger
  /-- The pathname itself is never announced. -/
  | withhold
  deriving DecidableEq, Repr

def refused : String := "error.r"
def aborted : String := "abort.r"
def invalidDelay : String := "invalid-delay.a"
def missingDelay : String := "missing-delay.a"

/-- The pathname announced beside `invalidDelay`. -/
def stranger : String := "unfiltered"

def brokenOff? : Command → Option String
  | .clean => some "clean-write-fail.r"
  | .smudge => some "smudge-write-fail.r"
  | .listAvailable => none

def fileRule? (command : Command) (pathname : String) : Option FileRule :=
  if pathname = refused then some .refuse
  else if pathname = aborted then some .abort
  else if brokenOff? command = some pathname then some .breakOff
  else none

def listRule? (pathname : String) : Option ListRule :=
  if pathname = invalidDelay then some .addStranger
  else if pathname = missingDelay then some .withhold
  else none

/-- Only `abort.r` aborts, under every command. -/
theorem fileRule?_abort_iff (command : Command) (pathname : String) :
    fileRule? command pathname = some .abort ↔ pathname = aborted := by
  unfold fileRule?
  by_cases first : pathname = refused
  · have apart : refused ≠ aborted := by decide
    simp [first, apart]
  · by_cases second : pathname = aborted <;> simp [first, second]
    decide

end ContentFilter.Reserved
