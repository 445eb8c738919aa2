/-
# ApplyRule.Component.Split -- a text around its first block

`split? bracket text` finds the first block of a bracket's shape outside other
blocks.  There is none if a block before it, or the block itself, is not closed.
-/
import ApplyRule.Component

namespace ApplyRule

set_option autoImplicit false

/-- The text before a block's opener, inside the block and after its closer. -/
structure Split where
  before : List Char
  body : List Char
  after : List Char
  deriving DecidableEq

namespace Split

/-- A split with more text in front. -/
def prepend (text : List Char) (split : Split) : Split :=
  { split with before := text ++ split.before }

/-- The split around the first block of a shape among components. -/
def ofComponents? (bracket : Bracket) : List Component → Option Split
  | [] => none
  | component :: rest =>
      match component with
      | .leaf lexeme => (ofComponents? bracket rest).map (prepend lexeme.text)
      | .block _ _ none => none
      | .block opener body (some _) =>
          if opener.token.opens? = some bracket then
            some ⟨[], Component.textOf body, Component.textOf rest⟩
          else (ofComponents? bracket rest).map (prepend component.text)

end Split

/-- A text split around its first block of a bracket's shape. -/
def split? (bracket : Bracket) (text : List Char) : Option Split :=
  Split.ofComponents? bracket (Component.read text)

end ApplyRule
