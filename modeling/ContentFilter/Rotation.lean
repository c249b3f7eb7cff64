import ContentFilter.Text

/-!
The change a filter makes to content: letters of the Latin alphabet move thirteen places round,
all other bytes stay. `rotate_rotate` is the reason one change serves both directions.
-/

namespace ContentFilter.Rotation

/-- Thirteen places on from `byte` in the twenty-six places that start at `first`. -/
def turn (first byte : UInt8) : UInt8 := first + (byte - first + 13) % 26

def rotateByte (byte : UInt8) : UInt8 :=
  if 97 ≤ byte ∧ byte ≤ 122 then turn 97 byte
  else if 65 ≤ byte ∧ byte ≤ 90 then turn 65 byte
  else byte

def rotate (content : Bytes) : Bytes := content.map rotateByte

/-- The letters that move. -/
def letters : String := "abcdefghijklmnopqrstuvwxyzABCDEFGHIJKLMNOPQRSTUVWXYZ"

/-- What becomes of each letter of either case. -/
theorem rotate_letters :
    rotate (Text.bytes letters) =
      Text.bytes "nopqrstuvwxyzabcdefghijklmNOPQRSTUVWXYZABCDEFGHIJKLM" := by
  decide +kernel

/-- What is no letter stays. -/
theorem rotateByte_other :
    ∀ byte, byte ∉ Text.bytes letters → rotateByte byte = byte :=
  forall_byte (by decide +kernel)

-- Subtraction wraps on bytes, so the 256 values are checked one by one.
theorem rotateByte_rotateByte : ∀ byte, rotateByte (rotateByte byte) = byte :=
  forall_byte (by decide +kernel)

theorem rotate_rotate (content : Bytes) : rotate (rotate content) = content := by
  simp [rotate, Function.comp_def, rotateByte_rotateByte]

theorem rotate_length (content : Bytes) : (rotate content).length = content.length := by
  simp [rotate]

end ContentFilter.Rotation
