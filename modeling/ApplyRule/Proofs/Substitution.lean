/-
# ApplyRule.Proofs.Substitution -- one reference is resolved

Whatever becomes of a reference, other trees take its place: copies of what a set
holds, or none.  `Step.Resolved` says what that leaves of a pass, and
`resolved_remove`, `resolved_drop` and `resolved_substitute` that the steps which
do it succeed.  `Step.atReference` is the step on a reference in the document, for any way
to put a set in its place (`tidy_atReference`); `tidy_resolve` is the step of a pass.
-/
import ApplyRule.Proofs.Expands
import ApplyRule.Proofs.Tidy

namespace ApplyRule

set_option autoImplicit false

open Document

namespace Step

variable {pass : Pass} {id : NodeId} {item : Item} {children : Forest Node}

/-- What a pass is after other trees took the place of a reference. -/
structure Resolved (pass : Pass) (id : NodeId) (children more : Forest Node)
    (raised : List Warning) (after : Pass) : Prop where
  tidy : after.Tidy [] []
  options : after.options = pass.options
  registry : after.registry = pass.registry
  warnings : after.warnings = pass.warnings ++ raised
  root : after.document.root = pass.document.root
  fresh : pass.document.fresh ≤ after.document.fresh
  under : ∀ rootItem below, pass.document.find? pass.document.root = some (rootItem, below) →
    id ∉ below.tops →
      after.document.find? pass.document.root = some (rootItem, Forest.replace id more below)
  trees : ∀ set ∈ pass.registry.ids, after.document.find? set =
    (pass.document.find? set).map fun pair => (pair.1, Forest.replace id more pair.2)
  gone : ∀ other ∈ id :: children.ids, other ∉ after.document.forest.ids

/-- The trees that a pass has between two steps. -/
theorem mem_tops_of_registered {set : NodeId} (member : set ∈ pass.registry.ids) :
    set ∈ pass.document.root :: (pass.registry.ids ++ [] ++ []) := by
  simp [member]

theorem resolved_of_replaced {after : Document} {more : Forest Node} (tidy : pass.Tidy [] [])
    (changed : Replaced pass.document (pass.document.root :: (pass.registry.ids ++ [] ++ [])) id
      children more after) : Resolved pass id children more [] { pass with document := after } := by
  refine ⟨tidy.replaced changed, rfl, rfl, by simp, changed.root, changed.fresh, changed.under, ?_,
    changed.gone⟩
  intro set member
  exact changed.trees set (mem_tops_of_registered member) (tidy.ne_root (by simp [member]))

theorem resolved_remove (tidy : pass.Tidy [] [])
    (found : pass.document.find? id = some (item, children))
    (inside : id ∉ pass.document.root :: (pass.registry.ids ++ [] ++ [])) :
    ∃ after, edit (Edit.remove id) pass = .ok () after ∧
      Resolved pass id children .nil [] after := by
  obtain ⟨after, ran, removed, -⟩ := tidy.sound.remove found inside
  exact ⟨_, edit_ok ran, resolved_of_replaced tidy removed⟩

/-- A reference is reported and dropped. -/
theorem resolved_drop (tidy : pass.Tidy [] []) (cause : Cause)
    (found : pass.document.find? id = some (item, children))
    (inside : id ∉ pass.document.root :: (pass.registry.ids ++ [] ++ [])) :
    ∃ after, dropReference cause id pass = .ok () after ∧
      Resolved pass id children .nil [⟨cause, item.source⟩] after := by
  have reported := tidy.warned (pass.warnings ++ [⟨cause, item.source⟩])
  obtain ⟨after, ran, removed⟩ := resolved_remove reported found inside
  refine ⟨after, ?_, { removed with warnings := ?_ }⟩
  · unfold dropReference
    rw [bind_ok (source_ok found), bind_ok (warn_ok _ _)]
    exact ran
  · rw [removed.warnings, List.append_nil]

/-- A reference gives way to copies of what a set holds, indented anew. -/
theorem resolved_substitute (tidy : pass.Tidy [] [])
    (found : pass.document.find? id = some (item, children))
    (inside : id ∉ pass.document.root :: (pass.registry.ids ++ [] ++ [])) {set : NodeId}
    {rule : Item} {body : Forest Node} (registered : set ∈ pass.registry.ids)
    (setFound : pass.document.find? set = some (rule, body)) :
    ∃ after copies, substitute id set pass = .ok () after ∧
      copies.items = body.items.reindent rule.raws.before ∧
      (∀ other ∈ copies.ids, pass.document.fresh ≤ other.index) ∧
      Resolved pass id children copies [] after := by
  have ne : set ≠ pass.document.root := tidy.ne_root (by simp [registered])
  have isRule : rule.kind.isRule = true := by
    obtain ⟨_, _, same, holds⟩ := isKind_iff.mp (tidy.rules set (by simp [registered]))
    rw [setFound] at same
    cases same
    exact holds
  have proper : (⟨"", rule, body.items.reindent rule.raws.before⟩ : SetRule).Proper :=
    ⟨isRule, (tidy.sound.proper_below setFound ne).reindent _⟩
  -- The copy stands apart first; none of its nodes was there before.
  have planted := tidy.sound.plant proper.tree
  let copies := (body.items.reindent rule.raws.before).number (pass.document.fresh + 1)
  have donorFound := tidy.sound.numbered.find?_plant_self rule (body.items.reindent rule.raws.before)
  have old := tidy.sound.given id (Forest.mem_ids_of_find? found)
  have notNew : id ≠ ⟨pass.document.fresh⟩ := fun eq => by simp [eq] at old
  have later : ∀ other ∈ copies.ids, pass.document.fresh ≤ other.index := fun other member =>
    Nat.le_of_succ_le (Forest.mem_ids_number.mp member).1
  have outside : id ∉ copies.ids := fun member => by
    have := later id member
    omega
  have rootOld : (⟨pass.document.fresh⟩ : NodeId) ≠ pass.document.root := fun eq => by
    have := tidy.sound.given _ (Forest.mem_ids_of_mem_tops tidy.sound.standing)
    simp [← eq] at this
  have apart : id ∉ (⟨pass.document.fresh⟩ : NodeId) ::
      pass.document.root :: (pass.registry.ids ++ [] ++ []) := by
    rw [List.mem_cons, not_or]
    exact ⟨notNew, inside⟩
  obtain ⟨after, ran, changed⟩ := planted.replaceByChildren rootOld donorFound
    ((find?_plant _ _ (Forest.mem_ids_of_find? found)).trans found) apart outside
  refine ⟨_, copies, ?_, Forest.items_number _ _, later, resolved_of_replaced tidy
    ⟨changed.sound, changed.root, ?_, fun top member notRoot => ?_, ?_, changed.gone⟩⟩
  · unfold substitute
    rw [bind_ok (ask_ok setFound)]
    have copied : edit (Edit.plant rule (body.items.reindent rule.raws.before)) pass = .ok _ _ :=
      edit_ok rfl
    exact (bind_ok copied).trans (edit_ok ran)
  · exact Nat.le_trans (Nat.le_add_right _ _) changed.fresh
  · rw [changed.trees top member notRoot, find?_plant _ _ (tidy.sound.mem_ids member)]
  · intro rootItem below rootFound notChild
    refine changed.under rootItem below ?_ notChild
    exact (find?_plant _ _ (Forest.mem_ids_of_find? rootFound)).trans rootFound

/-- What becomes of a reference in the document, where `bring` puts what a set holds in its
place. -/
def atReference (id : NodeId) (bring : NodeId → Step Unit) : Step Unit := do
  let some (.atRule name params _) := (← document).kind? id | return
  unless name = referenceRule do return
  let above ← ask (·.lineage? id)
  unless above.any fun node => node.item.kind.isRule do
    warn .orphanedReference (← source id)
    edit (Edit.remove id)
    return
  let some target := referenceName? params | return
  match (← get).registry.lookup? target with
  | none => warn (.unknownSet target) (← source id)
  | some set => bring set

/-- A reference in the document gives way to what its set holds, or is reported, or left. -/
theorem tidy_atReference {bring : NodeId → Step Unit} (tidy : pass.Tidy [] []) (id : NodeId)
    (each : ∀ {item : Item} {children : Forest Node} {set : NodeId},
      pass.document.find? id = some (item, children) →
        id ∉ pass.document.root :: (pass.registry.ids ++ [] ++ []) → set ∈ pass.registry.ids →
          ∃ after, bring set pass = .ok () after ∧ after.Tidy [] []) :
    ∃ after, atReference id bring pass = .ok () after ∧ after.Tidy [] [] := by
  unfold atReference
  rw [bind_ok document_ok]
  cases known : pass.document.kind? id with
  | none => exact ⟨pass, rfl, tidy⟩
  | some kind =>
      obtain ⟨item, children, found, same⟩ := find?_of_kind? known
      cases kind with
      | atRule name params hasBlock =>
          have inside := tidy.not_top found (by rw [same]; rfl) (by rw [same]; rfl)
          simp only
          by_cases named : name = referenceRule
          · simp only [named, if_true]
            obtain ⟨path, lineage⟩ := Forest.exists_lineage? (Forest.mem_ids_of_find? found) []
            rw [bind_ok (ask_ok lineage)]
            by_cases within : (path.any fun node => node.item.kind.isRule) = true
            · simp only [within, if_true]
              cases refers : referenceName? params with
              | none => exact ⟨pass, rfl, tidy⟩
              | some target =>
                  simp only
                  rw [bind_ok get_ok]
                  cases lookup : pass.registry.lookup? target with
                  | none =>
                      refine ⟨_, (bind_ok (source_ok found)).trans (warn_ok _ _), ?_⟩
                      exact tidy.warned _
                  | some set => exact each found inside (Registry.mem_ids_of_lookup? lookup)
            · simp only [within]
              have reported := tidy.warned (pass.warnings ++ [⟨.orphanedReference, item.source⟩])
              obtain ⟨after, ran, removed⟩ := resolved_remove reported found inside
              refine ⟨after, ?_, removed.tidy⟩
              refine (bind_ok (source_ok found)).trans ((bind_ok (warn_ok _ _)).trans ?_)
              exact (bind_ok ran).trans rfl
          · simp only [named]
            exact ⟨pass, rfl, tidy⟩
      | _ => exact ⟨pass, rfl, tidy⟩

/-- In a tidy pass, a registered set is put in the place of a reference. -/
theorem tidy_substitute (tidy : pass.Tidy [] []) {set : NodeId}
    (found : pass.document.find? id = some (item, children))
    (inside : id ∉ pass.document.root :: (pass.registry.ids ++ [] ++ []))
    (registered : set ∈ pass.registry.ids) :
    ∃ after, substitute id set pass = .ok () after ∧ after.Tidy [] [] := by
  obtain ⟨rule, body, setFound⟩ := tidy.sound.exists_tree (mem_tops_of_registered registered)
  obtain ⟨after, _, ran, -, -, resolved⟩ :=
    resolved_substitute tidy found inside registered setFound
  exact ⟨after, ran, resolved.tidy⟩

theorem tidy_resolve (tidy : pass.Tidy [] []) (id : NodeId) :
    ∃ after, resolve id pass = .ok () after ∧ after.Tidy [] [] :=
  tidy_atReference tidy id (tidy_substitute tidy)

end Step

end ApplyRule
