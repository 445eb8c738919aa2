/-
# ApplyRule.Proofs.Reached -- the passes that can be reached

A host runs operations on the pass of a parsed stylesheet.  An operation visits the
definitions one after the other, so a definition is taken out of a pass that no host
sees, in the middle of an operation.  `Pass.Reached` has both: the passes between
operations and those between visits.  All of them are tidy (`Pass.Reached.tidy`).

`Document.DefinesIn` says where a definition stands that is taken out: directly in a rule
for the document root.
-/
import ApplyRule.Proofs.Operations

namespace ApplyRule

set_option autoImplicit false

open Document

/-- The passes that operations lead to from `start`, refused or not, and those between the
visits of an operation to the definitions under the root. -/
inductive Pass.Reached (start : Pass) : Pass → Prop where
  | start : Reached start start
  | operated {pass : Pass} (reached : Reached start pass) (operation : Operation) :
      Reached start (operation.apply pass)
  | declaration {pass after : Pass} {id : NodeId} (reached : Reached start pass)
      (attached : pass.document.isAttached id = true)
      (ran : Step.collectDeclaration id pass = .ok () after) : Reached start after
  | rule {pass after : Pass} {id : NodeId} (reached : Reached start pass)
      (attached : pass.document.isAttached id = true)
      (ran : Step.collectRule id pass = .ok () after) : Reached start after

/-- What can be reached from a tidy pass is tidy. -/
theorem Pass.Reached.tidy {start pass : Pass} (reached : start.Reached pass)
    (tidy : start.Tidy [] []) : pass.Tidy [] [] := by
  induction reached with
  | start => exact tidy
  | operated _ operation ih => exact operation.tidy_apply ih
  | declaration _ attached ran ih =>
      obtain ⟨_, ran', after⟩ := Step.tidy_collectDeclaration ih attached
      cases ran.symm.trans ran'
      exact after
  | rule _ attached ran ih =>
      obtain ⟨_, ran', after⟩ := Step.tidy_collectRule ih attached
      cases ran.symm.trans ran'
      exact after

theorem Pass.Reached.ran {start pass after : Pass} (reached : start.Reached pass)
    (operation : Operation) (ran : operation.step pass = .ok () after) : start.Reached after := by
  have next := reached.operated operation
  rwa [Operation.apply, ran] at next

/-! ## Definitions in their scopes -/

/-- The declaration `id` defines the set `name` by its value, directly in the rule `scope`
for the document root. -/
structure Document.DefinesIn (document : Document) (scope id : NodeId) (item : Item)
    (name value : String) : Prop where
  found : document.item? id = some item
  definition : item.kind.definition? = some (name, value)
  parent : document.parent? id = some (some scope)
  isScope : document.kind? scope = some (.rule rootSelector)

instance (document : Document) (scope id : NodeId) (item : Item) (name value : String) :
    Decidable (document.DefinesIn scope id item name value) :=
  decidable_of_iff (document.item? id = some item ∧
      item.kind.definition? = some (name, value) ∧
      document.parent? id = some (some scope) ∧
      document.kind? scope = some (.rule rootSelector))
    ⟨fun ⟨found, definition, parent, isScope⟩ => ⟨found, definition, parent, isScope⟩,
      fun ⟨found, definition, parent, isScope⟩ => ⟨found, definition, parent, isScope⟩⟩

/-- Under the root, such a declaration stands in a place where definitions are accepted. -/
theorem Document.DefinesIn.exists_place {document : Document} {tops : List NodeId}
    {scope id : NodeId} {item rootItem : Item} {below : Forest Node} {name value : String}
    (defines : document.DefinesIn scope id item name value) (sound : document.Sound tops)
    (rootFound : document.find? document.root = some (rootItem, below))
    (attached : document.isAttached id = true) :
    ∃ place ∈ below.places [.root], place.id = id ∧ place.Accepted ∧
      place.kind = item.kind ∧ place.source = item.source := by
  obtain ⟨_, _, found, isRoot⟩ := sound.root
  rw [rootFound] at found
  cases found
  rcases (sound.isAttached_iff rootFound).mp attached with rfl | within
  · -- The root itself defines nothing.
    have known := defines.found
    rw [item?_of_find? rootFound] at known
    cases known
    have definition := defines.definition
    rw [isRoot] at definition
    cases definition
  · obtain ⟨place, member, rfl⟩ : ∃ place ∈ below.places [.root], place.id = id :=
      Forest.exists_place within
    obtain ⟨own, _, _, -, known, -, -, same⟩ := sound.exists_node_of_place rootFound member
    obtain ⟨parent, kind, above, parentKind, head, -⟩ := sound.parent_of_place rootFound member
    cases above.symm.trans defines.parent
    cases parentKind.symm.trans defines.isScope
    cases (item?_of_find? known).symm.trans defines.found
    exact ⟨place, member, rfl, head, congrArg Place.kind same, congrArg Place.source same⟩

end ApplyRule
