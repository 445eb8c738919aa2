/-
# ApplyRule.SetName -- the names of property sets

A property set is written with two hyphens before its name, and its name is made
of ASCII letters, digits, underscores and hyphens.  White space and one colon may
follow.  A reference names a set as such, or in round brackets.
-/
import ApplyRule.Component.Split

namespace ApplyRule

set_option autoImplicit false

open Text

namespace SetName

/-- A character of a set's name. -/
def isNameChar (c : Char) : Bool :=
  c.isAlphanum || c = '_' || c = '-'

/-- The name in `--name`, after which white space and a colon may stand. -/
def read? : List Char → Option (List Char)
  | '-' :: '-' :: rest =>
      let name := rest.takeWhile isNameChar
      let tail := (rest.dropWhile isNameChar).dropWhile isSpace
      if name.isEmpty then none
      else if tail = [] ∨ tail = [':'] then some name
      else none
  | _ => none

/-- The name that a reference's parameters give. -/
def readReference? (params : List Char) : Option (List Char) :=
  match trim params with
  | '(' :: rest =>
      match split? .round ('(' :: rest) with
      | none => none
      | some split => if (trim split.after).isEmpty then read? (trim split.body) else none
  | text => read? text

end SetName

/-- The name of the set that a text defines. -/
def setName? (text : String) : Option String :=
  (SetName.read? text.toList).map String.ofList

/-- The name of the set that a reference's parameters name. -/
def referenceName? (params : String) : Option String :=
  (SetName.readReference? params.toList).map String.ofList

/-- A set's name without the hyphens it may be written with. -/
def bareName (written : String) : String :=
  match written.toList with
  | '-' :: '-' :: name => String.ofList name
  | _ => written

/-- A set's name as it is written. -/
def writtenName (name : String) : String :=
  "--" ++ name

end ApplyRule
