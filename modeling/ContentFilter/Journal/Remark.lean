import ContentFilter.Vocabulary

/-!
What a session writes into its journal. A command makes one record:

    IN: clean test.r ref=refs/heads/main 57 [OK] -- OUT: 57 . [OK]
    IN: list_available_blobs test-delay10.a test-delay11.a [OK]

A remark is one part of a record, or a line of its own for the start and end of a session.
-/

namespace ContentFilter

/-- How the record of a file request ends when no content was sent. -/
inductive Unsent where
  | error
  | abort
  | delayed
  | writeFail
  deriving DecidableEq, Repr

def Unsent.tag : Unsent → String
  | .error => "[ERROR]"
  | .abort => "[ABORT]"
  | .delayed => "[DELAYED]"
  | .writeFail => "[WRITE FAIL]"

inductive Remark where
  | started
  | greeted
  | stopped
  | heard (command : Command)
  | field (text : String)
  /-- The pathnames that became available, already in order. -/
  | available (pathnames : List String)
  | received (size : Nat)
  | unsent (how : Unsent)
  | sending (size : Nat)
  /-- One dot for each packet sent. -/
  | sent (packets : Nat)
  deriving DecidableEq, Repr

namespace Remark

def fieldText (text : String) : String := " " ++ text

def done : String := " [OK]\n"

/-- The texts a remark is written as, one write each. -/
def texts : Remark → List String
  | .started => ["START\n"]
  | .greeted => ["init handshake complete\n"]
  | .stopped => ["STOP\n"]
  | .heard command => ["IN: " ++ command.name]
  | .field text => [fieldText text]
  | .available pathnames => pathnames.map fieldText ++ [done]
  | .received size => [s!" {size} [OK] -- "]
  | .unsent how => [how.tag, "\n"]
  | .sending size => [s!"OUT: {size} "]
  | .sent packets => ["".pushn '.' packets, done]

/-- The remark as it stands in the journal. -/
def bytes (remark : Remark) : Bytes := remark.texts.flatMap Text.bytes

end Remark

end ContentFilter
