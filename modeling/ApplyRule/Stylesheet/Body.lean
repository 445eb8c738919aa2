/-
# ApplyRule.Stylesheet.Body -- a stylesheet from its text

`Body.read` reads the pieces of a body from left to right, and the bodies of
blocks as it comes to them.  It stops at the first piece that has a fault.  The
first free semicolon after a rule belongs to that rule (`ownSemicolon`).

`Body.parse` reads a whole text.
-/
import ApplyRule.Forest
import ApplyRule.Stylesheet.Piece

namespace ApplyRule

set_option autoImplicit false

open Text Component

/-- What a body holds, the text after it all, and whether its last statement ends
with a semicolon. -/
structure Body where
  items : Forest Item
  after : List Char
  semicolon : Bool

/-- A body with one more tree in front. -/
def Body.cons (item : Item) (children : Forest Item) (body : Body) : Body :=
  { body with items := .cons item children body.items }

/-- The formatting of a container with a body. -/
def Raws.enclose (raws : Raws) (body : Body) : Raws :=
  { raws with after := String.ofList body.after, semicolon := body.semicolon }

/-- A fault, and what was not read of the body that has it. -/
structure Failure where
  error : ParseError
  unread : List Component

/-- A failure inside a block, as the body around it sees it: where anything but
blanks and comments is left unread in the block, that is the fault. -/
def Failure.leave (block : Location) (rest : List Component) (failure : Failure) : Failure :=
  match failure.unread.find? fun c => !(c.isBlank || c.isComment) with
  | none => ⟨failure.error, rest⟩
  | some next => ⟨⟨.unfinishedBlock next.token, block⟩, rest⟩

/-- The semicolon that directly follows a rule, with the blanks before it, and
what follows that.  Other kinds have none. -/
def ownSemicolon (kind : Kind) (components : List Component) : Option String × List Component :=
  if !kind.isRule then (none, components)
  else
    match components.dropWhile Component.isBlank with
    | [] => (none, components)
    | component :: rest =>
        if component.isLeaf .semicolon then
          let blanks := textOf (components.takeWhile Component.isBlank)
          (some (String.ofList (blanks ++ component.text)), rest)
        else (none, components)

theorem ownSemicolon_sublist (kind : Kind) (components : List Component) :
    (ownSemicolon kind components).2.Sublist components := by
  unfold ownSemicolon
  split
  · exact List.Sublist.refl _
  · split
    · exact List.Sublist.refl _
    · rename_i component rest eq
      split
      · have : (component :: rest).Sublist components := eq ▸ List.dropWhile_sublist _
        exact (List.sublist_cons_self component rest).trans this
      · exact List.Sublist.refl _

set_option linter.unusedVariables false in
/-- The body that components make up; `semicolon` says whether the statement
before them, if there is one, ends with a semicolon. -/
def Body.read (semicolon : Bool) (components : List Component) : Except Failure Body :=
  match filled : components.dropWhile isFiller with
  | [] => .ok ⟨.nil, textOf components, semicolon⟩
  | component :: rest =>
      let before := String.ofList (textOf (components.takeWhile isFiller))
      let item (kind : Kind) (raws : Raws) : Item :=
        ⟨kind, { raws with before }, some component.start⟩
      let next := Piece.read component rest
      match found : next.1 with
      | .fault error => .error ⟨error, next.2⟩
      | .simple kind raws ended => do
          let more ← Body.read (ended.getD semicolon) next.2
          return more.cons (item kind raws) .nil
      | .block kind raws inner => do
          let body ← (Body.read false inner).mapError (.leave component.start next.2)
          let own := ownSemicolon kind next.2
          let more ← Body.read false own.2
          return more.cons (item kind { raws.enclose body with ownSemicolon := own.1 }) body.items
termination_by sizeOf components
decreasing_by
  all_goals
    have whole := sizeOf_le_of_sublist (filled ▸ List.dropWhile_sublist isFiller)
    have after := sizeOf_le_of_sublist (Piece.read_sublist component rest)
    simp only [List.cons.sizeOf_spec] at whole
  · omega
  · have inside := Piece.sizeOf_read_lt found
    simp only [List.cons.sizeOf_spec] at inside
    omega
  · have following := sizeOf_le_of_sublist (ownSemicolon_sublist kind (Piece.read component rest).2)
    omega

/-- The body of a text. -/
def Body.parse (css : String) : Except ParseError Body :=
  (Body.read false (Component.read css.toList)).mapError (·.error)

/-- A root that holds a body. -/
def Body.root (body : Body) : Item :=
  ⟨.root, ({} : Raws).enclose body, none⟩

end ApplyRule
