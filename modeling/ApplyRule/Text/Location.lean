/-
# ApplyRule.Text.Location -- where a character stands in its text

Lines and columns count from one.  A column counts UTF-16 units, and a carriage
return directly before a line feed starts one line together with it.
-/
import ApplyRule.Text.Blank

namespace ApplyRule.Text

set_option autoImplicit false

/-- A line and a column, both from one. -/
structure Location where
  line : Nat
  column : Nat
  deriving DecidableEq

/-- The UTF-16 units of a character. -/
def units (c : Char) : Nat :=
  if c.toNat < 0x10000 then 1 else 2

namespace Location

/-- Where a text starts. -/
def first : Location := ⟨1, 1⟩

/-- The start of the next line. -/
def nextLine (here : Location) : Location := ⟨here.line + 1, 1⟩

/-- Where a text that starts `here` ends. -/
def advance (here : Location) : List Char → Location
  | [] => here
  | '\r' :: '\n' :: rest => here.nextLine.advance rest
  | c :: rest =>
      if isNewline c then here.nextLine.advance rest
      else advance ⟨here.line, here.column + units c⟩ rest

/-- The written form, as in `3:14`. -/
def text (here : Location) : String :=
  toString here.line ++ ":" ++ toString here.column

end Location

end ApplyRule.Text
