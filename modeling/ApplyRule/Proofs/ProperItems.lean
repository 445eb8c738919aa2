/-
# ApplyRule.Proofs.ProperItems -- what is read can stand anywhere

A body that is read holds no root, and only rules and at-rules with a block hold
other items (`proper_of_parse`).  Stamping, indenting and leaving out definitions
keep that, so all that a definition expands to is proper (`proper_expand`), and a
parsed document is sound (`sound_of_parse`).
-/
import ApplyRule.Pass.Reference
import ApplyRule.Proofs.Editing
import ApplyRule.Proofs.Reading

namespace ApplyRule

set_option autoImplicit false

/-! ## Reading -/

theorem Piece.Cut.isRoot_simple {components rest : List Component} {kind : Kind} {raws : Raws}
    {ended : Option Bool} (cut : Piece.Cut components (.simple kind raws ended) rest) :
    kind.isRoot = false := by
  cases cut <;> rfl

theorem Piece.Cut.isContainer_block {components rest inner : List Component} {kind : Kind}
    {raws : Raws} (cut : Piece.Cut components (.block kind raws inner) rest) :
    kind.isRoot = false ∧ kind.isContainer = true := by
  cases cut <;> exact ⟨rfl, rfl⟩

theorem Body.Reading.proper {semicolon : Bool} {components : List Component} {body : Body}
    (reading : Body.Reading semicolon components body) : body.items.Proper := by
  induction reading with
  | done fillers => exact Forest.proper_nil
  | simple fillers first cut later ih =>
      exact .cons cut.isRoot_simple (.inl rfl) Forest.proper_nil ih
  | block fillers first cut inside later ihInside ihLater =>
      obtain ⟨own, container⟩ := cut.isContainer_block
      exact .cons own (.inr container) ihInside ihLater

theorem proper_of_parse {css : String} {body : Body} (parsed : Body.parse css = .ok body) :
    body.items.Proper :=
  (reading_of_parse parsed).proper

/-! ## Changes that keep the kinds -/

namespace Forest

theorem Proper.map {items : Forest Item} {change : Item → Item}
    (keeps : ∀ item, (change item).kind = item.kind) (proper : items.Proper) :
    (items.map change).Proper := by
  induction items with
  | nil => exact proper_nil
  | cons item children rest ihc ihr =>
      obtain ⟨own, holds, inside, later⟩ := proper_cons proper
      refine .cons (keeps item ▸ own) ?_ (ihc inside) (ihr later)
      refine holds.imp (fun empty => ?_) fun container => keeps item ▸ container
      rw [empty, Forest.map]

/-- Indenting anew keeps every kind. -/
theorem reindent_cons (outer : String) (item : Item) (children rest : Forest Item) :
    ∃ other : Item, other.kind = item.kind ∧ (Forest.cons item children rest).reindent outer =
      .cons other (children.reindent other.raws.before) (rest.reindent outer) := by
  refine ⟨_, ?_, rfl⟩
  split <;> rfl

theorem Proper.reindent {items : Forest Item} (proper : items.Proper) (outer : String) :
    (items.reindent outer).Proper := by
  induction items generalizing outer with
  | nil => exact proper_nil
  | cons item children rest ihc ihr =>
      obtain ⟨own, holds, inside, later⟩ := proper_cons proper
      obtain ⟨other, keeps, eq⟩ := reindent_cons outer item children rest
      rw [eq]
      refine .cons (keeps ▸ own) ?_ (ihc inside _) (ihr later _)
      refine holds.imp (fun empty => ?_) fun container => keeps ▸ container
      rw [empty, Forest.reindent]

theorem Proper.undefining {items : Forest Item} (proper : items.Proper) :
    items.undefining.Proper := by
  induction items with
  | nil => exact proper_nil
  | cons item children rest _ ih =>
      obtain ⟨own, holds, inside, later⟩ := proper_cons proper
      rw [Forest.undefining]
      split
      · exact ih later
      · exact .cons own holds inside (ih later)

theorem Proper.append {first second : Forest Item} (proper : first.Proper)
    (following : second.Proper) : (first ++ second).Proper := by
  refine ⟨(housed_append ..).mpr ⟨proper.housed, following.housed⟩, ?_⟩
  intro label member
  rcases List.mem_append.mp (labels_append .. ▸ member) with before | after
  · exact proper.rootless label before
  · exact following.rootless label after

theorem Proper.of_mem_trees {items children : Forest Item} {item : Item} (proper : items.Proper)
    (member : (item, children) ∈ items.trees) : (Forest.tree item children).Proper := by
  induction items with
  | nil => cases member
  | cons first below rest _ ih =>
      obtain ⟨own, holds, inside, later⟩ := proper_cons proper
      rcases List.mem_cons.mp member with same | after
      · cases same
        exact .cons own holds inside proper_nil
      · exact ih later after

end Forest

/-! ## Definitions -/

/-- A set's rule is a rule, and what it holds can stand there. -/
structure SetRule.Proper (set : SetRule) : Prop where
  rule : set.item.kind.isRule = true
  children : set.children.Proper

theorem SetRule.Proper.tree {set : SetRule} (proper : set.Proper) :
    (Forest.tree set.item set.children).Proper := by
  obtain ⟨notRoot, container⟩ := Kind.of_isRule proper.rule
  exact .cons notRoot (.inr container) proper.children Forest.proper_nil

theorem SetRule.proper_ofBody (name : String) (source : Option Text.Location) {body : Body}
    (proper : body.items.Proper) : (SetRule.ofBody name source body).Proper :=
  ⟨rfl, proper⟩

theorem proper_expandOne {source : Option Text.Location} {name value : String} {one : Expanded}
    (expanded : expandOne source name value = .ok one) : one.set.Proper ∧ one.items.Proper := by
  have stamped : ∀ {text : String} {body : Body}, Body.parse text = .ok body →
      (body.items.map (·.stamp source)).Proper :=
    fun parsed => (proper_of_parse parsed).map fun _ => rfl
  unfold expandOne at expanded
  cases cut : split? .curly value.toList with
  | none => rw [cut] at expanded; cases expanded
  | some split =>
      simp only [cut] at expanded
      cases inside : Body.parse (String.ofList split.body) with
      | error error => rw [inside] at expanded; cases expanded
      | ok body =>
          rw [inside] at expanded
          simp only [Except.bind, bind] at expanded
          let stampedBody : Body := { body with items := body.items.map (·.stamp source) }
          have own : (SetRule.ofBody name source stampedBody).Proper :=
            SetRule.proper_ofBody name source (stamped inside)
          split at expanded
          · cases expanded
            exact ⟨own, Forest.proper_nil⟩
          · cases following : Body.parse (String.ofList split.after) with
            | error error => rw [following] at expanded; cases expanded
            | ok after =>
                rw [following] at expanded
                cases expanded
                exact ⟨own, (stamped following).undefining⟩

/-- All that an expansion plants is proper. -/
structure Expansion.Proper (expansion : Expansion) : Prop where
  sets : ∀ set ∈ expansion.sets, set.Proper
  items : expansion.items.Proper

/-- A round reads the first definition that waits, and then the others and those that follow
from it. -/
theorem exists_of_expandAll {source : Option Text.Location} {rounds : Nat}
    {first : String × String} {pending : List (String × String)} {expansion : Expansion}
    (read : expandAll source (rounds + 1) (first :: pending) = .ok expansion) :
    ∃ one more, expandOne source first.1 first.2 = .ok one ∧
      expandAll source rounds (pending ++ one.pending) = .ok more ∧
      expansion = .append ⟨[one.set], one.items⟩ more := by
  simp only [expandAll, bind, Except.bind] at read
  cases own : expandOne source first.1 first.2 with
  | error error => rw [own] at read; cases read
  | ok one =>
      rw [own] at read
      simp only at read
      cases later : expandAll source rounds (pending ++ one.pending) with
      | error error => rw [later] at read; cases read
      | ok more =>
          rw [later] at read
          cases read
          exact ⟨one, more, rfl, later, rfl⟩

theorem proper_expandAll {source : Option Text.Location} (rounds : Nat)
    {pending : List (String × String)} {expansion : Expansion}
    (expanded : expandAll source rounds pending = .ok expansion) : expansion.Proper := by
  have none_ : ({} : Expansion).Proper :=
    ⟨fun _ member => absurd member List.not_mem_nil, Forest.proper_nil⟩
  induction rounds generalizing pending expansion with
  | zero =>
      cases pending <;> cases expanded <;> exact none_
  | succ rounds ih =>
      cases pending with
      | nil => cases expanded; exact none_
      | cons next pending =>
          obtain ⟨one, more, first, following, rfl⟩ := exists_of_expandAll expanded
          obtain ⟨set, items⟩ := proper_expandOne first
          obtain ⟨moreSets, moreItems⟩ := ih following
          refine ⟨?_, items.append moreItems⟩
          intro other member
          rcases List.mem_cons.mp member with rfl | later
          · exact set
          · exact moreSets other later

theorem proper_expand {source : Option Text.Location} {name value : String} {expansion : Expansion}
    (expanded : expand source name value = .ok expansion) : expansion.Proper :=
  proper_expandAll _ expanded

/-! ## Parsed documents -/

theorem Document.sound_ofBody {body : Body} (proper : body.items.Proper) :
    (Document.ofBody body).Sound [(Document.ofBody body).root] := by
  have forest : (Document.ofBody body).forest = (Forest.tree body.root body.items).number 1 := rfl
  refine ⟨?_, ?_, .refl _, ?_, ⟨body.root, body.items.number 2, rfl, rfl⟩, ?_, ?_⟩
  · rw [forest]
    exact Forest.nodup_number _ _
  · intro id member
    exact (Forest.mem_ids_number.mp (forest ▸ member)).2
  · rw [forest, Forest.items_number]
    exact ⟨.inr rfl, proper.housed, trivial⟩
  · exact List.mem_cons_self
  · intro node member isRoot
    rw [forest, Forest.tree, Forest.number, Forest.number, Forest.labels, Forest.labels,
      List.append_nil] at member
    rcases List.mem_cons.mp member with rfl | below
    · rfl
    · have inItems : node.item ∈ (body.items.number (1 + 1)).items.labels :=
        Forest.mem_labels_items.mpr ⟨node, below, rfl⟩
      rw [Forest.items_number] at inItems
      rw [proper.rootless _ inItems] at isRoot
      cases isRoot

theorem Document.sound_of_parse {css : String} {document : Document}
    (parsed : Document.parse css = .ok document) : document.Sound [document.root] := by
  unfold Document.parse at parsed
  cases read : Body.parse css with
  | error error => rw [read] at parsed; cases parsed
  | ok body =>
      rw [read] at parsed
      cases parsed
      exact sound_ofBody (proper_of_parse read)

end ApplyRule
