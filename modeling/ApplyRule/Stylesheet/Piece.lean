/-
# ApplyRule.Stylesheet.Piece -- the next comment or statement

A body, the whole text or the inside of a block, is a sequence of comments,
at-rules and statements with fillers between them.

* An at-rule starts with an at-keyword and ends at a semicolon, with a block in
  curly brackets, or where the body ends.
* Any other statement ends at a semicolon, with a block, or where the body ends.
  It is a rule if a block ends it; otherwise it is a declaration and needs a
  colon.  Once a statement that starts with a custom property name has its
  colon, blocks are part of its value.
* Blanks and free semicolons are fillers.

`Piece.read` reads the piece at the front.  What follows it is a sublist of what
was there (`Piece.read_sublist`), and the components of its block are fewer
(`Piece.sizeOf_read_lt`).  Where the body ends a statement, the blanks after the
statement are left to the body.
-/
import ApplyRule.Component
import ApplyRule.Stylesheet.Fault
import ApplyRule.Stylesheet.Item

namespace ApplyRule

set_option autoImplicit false

open Text

/-! ## Classes of components -/

namespace Component

/-- A blank or a free semicolon. -/
def isFiller (component : Component) : Bool :=
  component.isBlank || component.isLeaf .semicolon

/-- What ends a value: a semicolon or a closing bracket. -/
def endsValue (component : Component) : Bool :=
  component.isLeaf .semicolon || component.isLeaf (.closing .curly)

/-- What ends a statement: also a block. -/
def endsStatement (component : Component) : Bool :=
  component.endsValue || component.isCurlyBlock

/-- Whether the components start with a custom property name. -/
def startsCustom : List Component → Bool
  | [] => false
  | component :: _ =>
      match component with
      | .leaf ⟨.ident name, _, _⟩ => ['-', '-'].isPrefixOf name.toList
      | _ => false

/-- What ends the statement at the front. -/
def ending (components : List Component) : Component → Bool :=
  if startsCustom components &&
      (components.takeWhile fun c => !c.endsStatement).any (isLeaf .colon)
  then endsValue else endsStatement

end Component

open Component

/-- Components without the blanks at their ends.  If there are only blanks, they
stand at the end. -/
structure Trimmed where
  lead : List Component
  core : List Component
  trail : List Component

def Trimmed.read (components : List Component) : Trimmed :=
  match components.dropWhile Component.isBlank with
  | [] => ⟨[], [], components⟩
  | inner => {
      lead := components.takeWhile Component.isBlank
      core := dropEnd Component.isBlank inner
      trail := takeEnd Component.isBlank inner }

/-- The parts of a declaration: its property, the text around the colon, its
value, and the blanks after that. -/
structure Parts where
  property : List Char
  between : List Char
  value : List Char
  trail : List Component

/-- The parts of a declaration; `none` if there is no colon. -/
def Parts.read? (components : List Component) : Option Parts :=
  match components.dropWhile fun c => !c.isLeaf .colon with
  | [] => none
  | colon :: tail =>
      let head := textOf (components.takeWhile fun c => !c.isLeaf .colon)
      let value := Trimmed.read tail
      some {
        property := trimEnd head
        between := takeEnd isSpace head ++ colon.text ++ textOf value.lead
        value := textOf value.core
        trail := value.trail }

/-- The declaration with these parts. -/
def Parts.kind (parts : Parts) : Kind :=
  .declaration (String.ofList parts.property) (String.ofList parts.value)

/-- What stands next in a body. -/
inductive Piece where
  /-- A comment, or a statement without a block: whether a semicolon ends it. -/
  | simple (kind : Kind) (raws : Raws) (semicolon : Option Bool)
  /-- A statement with a block of these components. -/
  | block (kind : Kind) (raws : Raws) (body : List Component)
  | fault (error : ParseError)

namespace Piece

/-- The at-rule of a name whose parameters are at the front, and what follows
it. -/
def atRule (name : String) (components : List Component) : Piece × List Component :=
  let params := Trimmed.read (components.takeWhile fun c => !c.endsStatement)
  let kind (hasBlock : Bool) : Kind := .atRule name (String.ofList (textOf params.core)) hasBlock
  let raws : Raws := { afterName := String.ofList (textOf params.lead) }
  let between := String.ofList (textOf params.trail)
  match components.dropWhile fun c => !c.endsStatement with
  | [] => (.simple (kind false) raws (some false), params.trail)
  | .block _ body _ :: rest => (.block (kind true) { raws with between } body, rest)
  | .leaf lexeme :: rest =>
      if lexeme.token = .semicolon then (.simple (kind false) { raws with between } (some true), rest)
      else (.fault ⟨.strayBrace, lexeme.stop⟩, rest)

/-- The declaration or rule at the front, which starts at `start`, and what
follows it. -/
def statement (start : Location) (components : List Component) : Piece × List Component :=
  let ends := ending components
  let whole := components.takeWhile fun c => !ends c
  match components.dropWhile fun c => !ends c with
  | [] =>
      match Parts.read? whole with
      | none => (.fault ⟨.unknownWord, start⟩, [])
      | some parts =>
          (.simple parts.kind { between := String.ofList parts.between } (some false), parts.trail)
  | .block _ body _ :: rest =>
      let selector := String.ofList (textOf (dropEnd Component.isBlank whole))
      let between := String.ofList (textOf (takeEnd Component.isBlank whole))
      (.block (.rule selector) { between } body, rest)
  | .leaf lexeme :: rest =>
      if lexeme.token = .semicolon then
        match Parts.read? whole with
        | none => (.fault ⟨.unknownWord, start⟩, rest)
        | some parts =>
            let between := String.ofList parts.between
            let after := String.ofList (textOf parts.trail)
            (.simple parts.kind { between, after } (some true), rest)
      else (.fault ⟨.strayBrace, lexeme.stop⟩, rest)

/-- The piece that starts with a component that is no filler, and what follows
it. -/
def read (component : Component) (rest : List Component) : Piece × List Component :=
  match component with
  | .leaf ⟨.comment text, _, _⟩ => (.simple (.comment text) {} none, rest)
  | .leaf ⟨.closing .curly, _, start⟩ => (.fault ⟨.strayBrace, start⟩, rest)
  | .leaf ⟨.atKeyword name, _, _⟩ => atRule name rest
  | _ => statement component.start (component :: rest)

end Piece

/-! ## Pieces are parts of the components -/

theorem sizeOf_le_of_sublist {first second : List Component} (sub : first.Sublist second) :
    sizeOf first ≤ sizeOf second := by
  induction sub with
  | slnil => exact Nat.le_refl _
  | cons component _ ih => simp only [List.cons.sizeOf_spec]; omega
  | cons_cons component _ ih => simp only [List.cons.sizeOf_spec]; omega

theorem trail_sublist (components : List Component) :
    (Trimmed.read components).trail.Sublist components := by
  unfold Trimmed.read
  split
  · exact List.Sublist.refl _
  · exact (List.drop_sublist _ _).trans (List.dropWhile_sublist _)

theorem parts_trail_sublist {components : List Component} {parts : Parts}
    (found : Parts.read? components = some parts) : parts.trail.Sublist components.tail := by
  unfold Parts.read? at found
  split at found
  · cases found
  · rename_i colon tail eq
    cases found
    refine (trail_sublist tail).trans ?_
    cases components with
    | nil => simp at eq
    | cons component rest =>
        have : (colon :: tail).Sublist (component :: rest) := eq ▸ List.dropWhile_sublist _
        simpa using List.Sublist.tail this

/-- The list after the first member of a sublist is a sublist of the list after
the first member. -/
theorem tail_sublist_tail {component : Component} {rest components : List Component}
    (sub : (component :: rest).Sublist components) : rest.Sublist components.tail := by
  simpa using List.Sublist.tail sub

theorem Piece.atRule_sublist (name : String) (components : List Component) :
    (Piece.atRule name components).2.Sublist components := by
  unfold Piece.atRule
  have drop := List.dropWhile_sublist (l := components) fun c => !c.endsStatement
  dsimp only
  split
  · exact (trail_sublist _).trans (List.takeWhile_sublist _)
  · rename_i eq
    rw [eq] at drop
    exact (List.sublist_cons_self _ _).trans drop
  · rename_i eq
    rw [eq] at drop
    split <;> exact (List.sublist_cons_self _ _).trans drop

theorem Piece.statement_sublist (start : Location) (components : List Component) :
    (Piece.statement start components).2.Sublist components.tail := by
  unfold Piece.statement
  dsimp only
  have drop := List.dropWhile_sublist (l := components) fun c => !ending components c
  split
  · split
    · exact List.nil_sublist _
    · rename_i parts found
      exact (parts_trail_sublist found).trans (List.Sublist.tail (List.takeWhile_sublist _))
  · rename_i eq
    rw [eq] at drop
    exact tail_sublist_tail drop
  · rename_i eq
    rw [eq] at drop
    split
    · split <;> exact tail_sublist_tail drop
    · exact tail_sublist_tail drop

theorem sizeOf_body_lt {opener : Lexeme} {closer : Option Lexeme}
    {body rest components : List Component}
    (sub : (Component.block opener body closer :: rest).Sublist components) :
    sizeOf body < sizeOf components := by
  have := sizeOf_le_of_sublist sub
  simp only [List.cons.sizeOf_spec, Component.block.sizeOf_spec] at this
  omega

theorem Piece.sizeOf_atRule_lt {name : String} {components : List Component} {kind : Kind}
    {raws : Raws} {body : List Component}
    (found : (Piece.atRule name components).1 = .block kind raws body) :
    sizeOf body < sizeOf components := by
  unfold Piece.atRule at found
  dsimp only at found
  split at found
  · cases found
  · rename_i eq
    cases found
    exact sizeOf_body_lt (eq ▸ List.dropWhile_sublist _)
  · split at found <;> cases found

theorem Piece.sizeOf_statement_lt {start : Location} {components : List Component} {kind : Kind}
    {raws : Raws} {body : List Component}
    (found : (Piece.statement start components).1 = .block kind raws body) :
    sizeOf body < sizeOf components := by
  unfold Piece.statement at found
  dsimp only at found
  split at found
  · split at found <;> cases found
  · rename_i eq
    cases found
    exact sizeOf_body_lt (eq ▸ List.dropWhile_sublist _)
  · split at found
    · split at found <;> cases found
    · cases found

theorem Piece.read_sublist (component : Component) (rest : List Component) :
    (Piece.read component rest).2.Sublist rest := by
  unfold Piece.read
  split
  · exact List.Sublist.refl _
  · exact List.Sublist.refl _
  · exact Piece.atRule_sublist _ _
  · exact Piece.statement_sublist _ _

theorem Piece.sizeOf_read_lt {component : Component} {rest : List Component} {kind : Kind}
    {raws : Raws} {body : List Component}
    (found : (Piece.read component rest).1 = .block kind raws body) :
    sizeOf body < sizeOf (component :: rest) := by
  unfold Piece.read at found
  split at found
  · cases found
  · cases found
  · have := Piece.sizeOf_atRule_lt found
    simp only [List.cons.sizeOf_spec]
    omega
  · exact Piece.sizeOf_statement_lt found

end ApplyRule
