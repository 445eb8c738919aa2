/-
# ApplyRule.Component -- lexemes grouped by their brackets

A component is a lexeme outside any bracket, or a bracketed block with all that
stands in it.  A block lasts until the bracket that matches its opener; inside
it, a closing bracket that does not match the innermost open block is an
ordinary leaf.  A block that is never closed lasts to the end of the text and has
no closer.

`levels` reads the lexemes once, from left to right, and answers with the
components of each open block.  Grouping keeps the text (`textOf_read`).
-/
import ApplyRule.Token.Scan

namespace ApplyRule

set_option autoImplicit false

/-- A lexeme outside any bracket, or a block. -/
inductive Component where
  | leaf (lexeme : Lexeme)
  | block (opener : Lexeme) (body : List Component) (closer : Option Lexeme)

namespace Component

mutual

/-- The text that a component was read from. -/
def text : Component → List Char
  | .leaf lexeme => lexeme.text
  | .block opener body closer =>
      opener.text ++ textOf body ++ (closer.map Lexeme.text).getD []

/-- The text that components were read from. -/
def textOf : List Component → List Char
  | [] => []
  | component :: rest => component.text ++ textOf rest

end

/-- The lexeme at the component's front. -/
def head : Component → Lexeme
  | .leaf lexeme => lexeme
  | .block opener _ _ => opener

/-- The token at the component's front. -/
def token (component : Component) : Token :=
  component.head.token

/-- Where the component starts. -/
def start (component : Component) : Text.Location :=
  component.head.start

/-- Whether the component is the lexeme of a token. -/
def isLeaf (token : Token) : Component → Bool
  | .leaf lexeme => lexeme.token = token
  | .block _ _ _ => false

/-- Whether the component is a block in curly brackets. -/
def isCurlyBlock : Component → Bool
  | .leaf _ => false
  | .block opener _ _ => opener.token = .opening .curly

/-- White space between tokens. -/
def isBlank (component : Component) : Bool :=
  component.isLeaf .whitespace

/-- Whether the component is a comment. -/
def isComment (component : Component) : Bool :=
  match component.token with
  | .comment _ => true
  | _ => false

@[simp] theorem textOf_append (first second : List Component) :
    textOf (first ++ second) = textOf first ++ textOf second := by
  induction first with
  | nil => simp [textOf]
  | cons component rest ih => simp [textOf, ih]

/-! ## Grouping -/

/-- The components of one block up to its closer. -/
structure Level where
  components : List Component
  closer : Option Lexeme

namespace Level

/-- A level without components that nothing closes. -/
def empty : Level := ⟨[], none⟩

/-- A level with one more component in front. -/
def cons (component : Component) (level : Level) : Level :=
  { level with components := component :: level.components }

/-- The level's text, its closer included. -/
def text (level : Level) : List Char :=
  textOf level.components ++ (level.closer.map Lexeme.text).getD []

end Level

/-- The rest of each open block, from the innermost outwards, where `brackets`
are the open brackets.  A block that the lexemes never come to has no level in
the list. -/
def levels (brackets : List Bracket) : List Lexeme → Level × List Level
  | [] => (.empty, [])
  | lexeme :: rest =>
      if lexeme.token.closesFirst brackets then
        let (level, outer) := levels brackets.tail rest
        (⟨[], some lexeme⟩, level :: outer)
      else
        match lexeme.token.opens? with
        | none =>
            let (level, outer) := levels brackets rest
            (level.cons (.leaf lexeme), outer)
        | some bracket =>
            let (inner, outer) := levels (bracket :: brackets) rest
            let block := Component.block lexeme inner.components inner.closer
            ((outer.head?.getD .empty).cons block, outer.tail)

/-- No lexeme is lost: the levels' texts are the lexemes' texts. -/
theorem text_levels (brackets : List Bracket) (lexemes : List Lexeme) :
    (levels brackets lexemes).1.text ++ (levels brackets lexemes).2.flatMap Level.text =
      Lexeme.textOf lexemes := by
  induction lexemes generalizing brackets with
  | nil => rfl
  | cons lexeme rest ih =>
      simp only [Lexeme.textOf] at ih
      rw [levels]
      split
      · simp [Level.text, textOf, Lexeme.textOf, ← ih brackets.tail]
      · split
        · simp [Level.cons, Level.text, textOf, text, Lexeme.textOf, ← ih brackets]
        · rename_i bracket _
          have := ih (bracket :: brackets)
          cases outer : (levels (bracket :: brackets) rest).2 <;>
            simp_all [Level.cons, Level.text, Level.empty, textOf, text, Lexeme.textOf]

/-- There is at most one level for each open bracket and one outside them all,
and nothing closes that one. -/
theorem levels_outermost (brackets : List Bracket) (lexemes : List Lexeme) :
    (levels brackets lexemes).2.length ≤ brackets.length ∧
      ∀ level, ((levels brackets lexemes).1 :: (levels brackets lexemes).2)[brackets.length]? =
        some level → level.closer = none := by
  induction lexemes generalizing brackets with
  | nil => cases brackets <;> simp [levels, Level.empty]
  | cons lexeme rest ih =>
      rw [levels]
      split
      · rename_i closes
        cases brackets with
        | nil => simp [Token.closesFirst] at closes
        | cons bracket brackets => simpa using ih brackets
      · split
        · have same := ih brackets
          cases brackets <;> simpa [Level.cons] using same
        · rename_i bracket _
          have inner := ih (bracket :: brackets)
          cases outer : (levels (bracket :: brackets) rest).2 <;> cases brackets <;>
            simp_all [Level.cons, Level.empty]

/-- The components of a list of lexemes. -/
def group (lexemes : List Lexeme) : List Component :=
  (levels [] lexemes).1.components

/-- The components of a text. -/
def read (text : List Char) : List Component :=
  group (lexemes text)

/-- Grouping keeps the text. -/
theorem textOf_group (lexemes : List Lexeme) : textOf (group lexemes) = Lexeme.textOf lexemes := by
  have whole := text_levels [] lexemes
  obtain ⟨alone, unclosed⟩ := levels_outermost [] lexemes
  have alone : (levels [] lexemes).2 = [] := by simpa using alone
  have unclosed : (levels [] lexemes).1.closer = none := by simpa using unclosed
  simpa [alone, unclosed, Level.text, group] using whole

@[simp] theorem textOf_read (text : List Char) : textOf (read text) = text := by
  rw [read, textOf_group, textOf_lexemes]

end Component

end ApplyRule
