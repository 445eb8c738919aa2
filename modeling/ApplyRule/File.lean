/-
# ApplyRule.File -- text from a path

What is at a path, and the text in it.
-/

namespace ApplyRule

set_option autoImplicit false

/-- What there is at a path. -/
inductive File where
  | missing
  | directory
  | contents (bytes : ByteArray)

/-- Why there is no text at a path. -/
inductive FileError where
  | missing
  | directory
  | notText
  deriving DecidableEq

def FileError.message : FileError → String
  | .missing => "No such file or directory (os error 2)"
  | .directory => "Is a directory (os error 21)"
  | .notText => "stream did not contain valid UTF-8"

/-- The text in UTF-8 at a path. -/
def File.text : File → Except FileError String
  | .missing => .error .missing
  | .directory => .error .directory
  | .contents bytes =>
      match String.fromUTF8? bytes with
      | some text => .ok text
      | none => .error .notText

end ApplyRule
