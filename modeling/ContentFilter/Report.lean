import ContentFilter.Failure

/-!
What the filter leaves to its caller: an exit status and what it printed. A session that failed
ends with status 128 and one last line that tells the failure, and the failure underneath once
more if there is one.
-/

namespace ContentFilter

structure Report where
  status : Nat
  output : Bytes
  complaint : String
  deriving DecidableEq, Repr

namespace Report

def lastWords (path : String) (failure : Failure) : String :=
  let cause := match failure.cause? with
    | some cause => ": " ++ cause
    | none => ""
  s!"fatal: filter session logging to {path} failed: {failure.message}{cause}\n"

/-- The report on a session whose journal is at `path`. -/
def ofSession (path : String) (output : Bytes) : Option Failure → Report
  | none => ⟨0, output, ""⟩
  | some failure => ⟨128, output, lastWords path failure⟩

end Report

end ContentFilter
