/-
# ApplyRule.Stylesheet.Fault -- what can be wrong with a stylesheet

A parse error is a fault and the place it is reported at.
-/
import ApplyRule.Token.Describe

namespace ApplyRule

set_option autoImplicit false

open Text

/-- What is wrong with a text. -/
inductive Fault where
  /-- A statement is neither a rule nor a declaration. -/
  | unknownWord
  /-- A closing bracket stands where no block is open. -/
  | strayBrace
  /-- A block was left at a failing statement, and this token follows there. -/
  | unfinishedBlock (next : Token)
  /-- The body of a property set is never closed. -/
  | unclosedBody
  deriving DecidableEq

/-- What a message says of the fault. -/
def Fault.message : Fault → String
  | .unknownWord => "Unknown word"
  | .strayBrace => "Unexpected \x7d"
  | .unfinishedBlock next => "Invalid block: Basic(UnexpectedToken(" ++ next.describe ++ "))"
  | .unclosedBody => "Unclosed property set body"

/-- A fault and where it is. -/
structure ParseError where
  fault : Fault
  location : Location
  deriving DecidableEq

def ParseError.message (error : ParseError) : String :=
  "CSS parse error at " ++ error.location.text ++ ": " ++ error.fault.message

end ApplyRule
