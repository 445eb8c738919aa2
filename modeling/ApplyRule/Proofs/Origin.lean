/-
# ApplyRule.Proofs.Origin -- where an item was written

The components of a text form bodies: the whole text is one, and the inside of each
block is one.  `Component.Within` is the end of such a body, from one of its
components on.

An item of a parsed document, other than the root, was made of a piece that was cut
out of the end of a body, after fillers (`Item.Origin`).  So a statement about all
items of all parsed documents is a statement about the kinds of pieces
(`origin_of_parse`).  The items below no other were written in the outermost body
(`origin_roots`).
-/
import ApplyRule.Proofs.PrintBack
import ApplyRule.Proofs.ProperItems

namespace ApplyRule

set_option autoImplicit false

open Text Component

/-! ## Ends of bodies -/

namespace Component

/-- The components stand at the end of a body: of the components `all`, or of what a
block among them holds. -/
inductive Within (part : List Component) : List Component → Prop where
  | last {all : List Component} (suffix : part <:+ all) : Within part all
  | inside {all body : List Component} {opener : Lexeme} {closer : Option Lexeme}
      (member : .block opener body closer ∈ all) (deeper : Within part body) : Within part all

variable {part body all : List Component}

theorem Within.trans (first : Within part body) (second : Within body all) :
    Within part all := by
  induction second with
  | last suffix =>
      cases first with
      | last inner => exact .last (inner.trans suffix)
      | inside member deeper => exact .inside (suffix.subset member) deeper
  | inside member _ ih => exact .inside member ih

theorem Within.suffix (place : Within body all) (suffix : part <:+ body) : Within part all :=
  .trans (.last suffix) place

/-- What a block at the end of a body holds is a body. -/
theorem Within.block {rest : List Component} {opener : Lexeme} {closer : Option Lexeme}
    (place : Within (.block opener body closer :: rest) all) : Within body all :=
  .trans (.inside List.mem_cons_self (.last (List.suffix_refl body))) place

theorem Within.sound {source : List Lexeme} (place : Within part all)
    (sound : ∀ c ∈ all, c.Sound source) : ∀ c ∈ part, c.Sound source := by
  induction place with
  | last suffix => exact fun c member => sound c (suffix.subset member)
  | inside member _ ih =>
      cases sound _ member with
      | block own closed inside => exact ih inside

end Component

/-- What follows a rule's own semicolon ends the body. -/
theorem ownSemicolon_suffix (kind : Kind) (components : List Component) :
    (ownSemicolon kind components).2 <:+ components := by
  obtain ⟨skipped, own, -⟩ := ownSemicolon_append kind components
  exact ⟨skipped, own.symm⟩

/-! ## Origins -/

/-- Where an item was written: it is made of a piece, and fillers stand before the piece in
components of which `place` holds. -/
inductive Item.Origin (place : List Component → Prop) : Item → Prop where
  | simple {lead rest next : List Component} {component : Component} {kind : Kind} {raws : Raws}
      {ended : Option Bool} (stands : place (lead ++ component :: rest))
      (fillers : ∀ c ∈ lead, c.isFiller = true)
      (cut : Piece.Cut (component :: rest) (.simple kind raws ended) next) :
      Origin place
        ⟨kind, { raws with before := String.ofList (textOf lead) }, some component.start⟩
  | block {lead rest next inner : List Component} {component : Component} {kind : Kind}
      {raws : Raws} {body : Body} (stands : place (lead ++ component :: rest))
      (fillers : ∀ c ∈ lead, c.isFiller = true)
      (cut : Piece.Cut (component :: rest) (.block kind raws inner) next)
      (inside : Body.Reading false inner body) :
      Origin place
        ⟨kind, { raws.enclose body with
          before := String.ofList (textOf lead)
          ownSemicolon := (ownSemicolon kind next).1 }, some component.start⟩

theorem Item.Origin.imp {place other : List Component → Prop} {item : Item}
    (origin : Item.Origin place item) (weaker : ∀ part, place part → other part) :
    Item.Origin other item := by
  cases origin with
  | simple stands fillers cut => exact .simple (weaker _ stands) fillers cut
  | block stands fillers cut inside => exact .block (weaker _ stands) fillers cut inside

/-- What is made of the end of a body was written in what the body is a part of. -/
theorem Item.Origin.trans {part all : List Component} {item : Item}
    (origin : Item.Origin (Within · part) item) (place : Within part all) :
    Item.Origin (Within · all) item :=
  origin.imp fun _ own => own.trans place

section Reading

variable {semicolon : Bool} {components : List Component} {body : Body}

theorem Body.Reading.origin (reading : Body.Reading semicolon components body) :
    ∀ item ∈ body.items.labels, Item.Origin (Within · components) item := by
  induction reading with
  | done fillers => exact fun _ member => nomatch member
  | @simple _ lead rest next component _ _ _ _ fillers _ cut _ ih =>
      intro item member
      rw [Body.cons, Forest.labels, Forest.labels, List.nil_append] at member
      rcases List.mem_cons.mp member with rfl | later
      · exact .simple (.last (List.suffix_refl _)) fillers cut
      · exact (ih item later).trans (.last (cut.suffix.trans (List.suffix_append lead _)))
  | @block _ lead rest next inner component kind _ _ _ fillers _ cut inside _ ihInside ihLater =>
      have piece : Within (component :: rest) (lead ++ component :: rest) :=
        .last (List.suffix_append lead _)
      intro item member
      rw [Body.cons, Forest.labels] at member
      rcases List.mem_cons.mp member with rfl | others
      · exact .block (.last (List.suffix_refl _)) fillers cut inside
      rcases List.mem_append.mp others with below | later
      · obtain ⟨opener, closer, suffix⟩ := cut.block_mem
        exact (ihInside item below).trans (.trans (Within.block (.last suffix)) piece)
      · exact (ihLater item later).trans
          (.trans (.last ((ownSemicolon_suffix kind next).trans cut.suffix)) piece)

/-- The items below no other were written in the outermost body. -/
theorem Body.Reading.origin_roots (reading : Body.Reading semicolon components body) :
    ∀ item ∈ body.items.roots, Item.Origin (· <:+ components) item := by
  induction reading with
  | done fillers => exact fun _ member => nomatch member
  | @simple _ lead rest next component _ _ _ _ fillers _ cut _ ih =>
      intro item member
      rcases List.mem_cons.mp member with rfl | later
      · exact .simple (List.suffix_refl _) fillers cut
      · exact (ih item later).imp fun _ suffix =>
          suffix.trans (cut.suffix.trans (List.suffix_append lead _))
  | @block _ lead rest next inner component kind _ _ _ fillers _ cut inside _ _ ih =>
      intro item member
      rcases List.mem_cons.mp member with rfl | later
      · exact .block (List.suffix_refl _) fillers cut inside
      · exact (ih item later).imp fun _ suffix => suffix.trans
          ((ownSemicolon_suffix kind next).trans (cut.suffix.trans (List.suffix_append lead _)))

end Reading

/-! ## Documents -/

/-- An item of a parsed document is the root, which holds the body that the text makes up, or
it was written in the text. -/
theorem Document.origin_of_parse {css : String} {document : Document} {id : NodeId} {item : Item}
    {children : Forest Node} (parsed : Document.parse css = .ok document)
    (found : document.find? id = some (item, children)) :
    (id = document.root ∧ ∃ body, Body.Reading false (Component.read css.toList) body ∧
      item = body.root) ∨
    id ≠ document.root ∧ Item.Origin (Within · (Component.read css.toList)) item := by
  unfold Document.parse at parsed
  cases read : Body.parse css with
  | error error => rw [read] at parsed; cases parsed
  | ok body =>
      rw [read] at parsed
      cases parsed
      have reading := reading_of_parse read
      by_cases isRoot : id = (Document.ofBody body).root
      · subst isRoot
        rw [find?_root_ofBody] at found
        cases found
        exact .inl ⟨rfl, body, reading, rfl⟩
      · have below : (body.items.number 2).find? id = some (item, children) := by
          have whole : (Forest.cons ⟨(Document.ofBody body).root, body.root⟩
              (body.items.number 2) .nil).find? id = some (item, children) := found
          rw [Forest.find?, if_neg (Ne.symm isRoot)] at whole
          simpa [Forest.find?] using whole
        obtain ⟨before, after, labels⟩ := Forest.labels_of_find? below
        have member : item ∈ (body.items.number 2).items.labels :=
          Forest.mem_labels_items.mpr ⟨⟨id, item⟩, by simp [labels], rfl⟩
        rw [Forest.items_number] at member
        exact .inr ⟨isRoot, reading.origin item member⟩

end ApplyRule
