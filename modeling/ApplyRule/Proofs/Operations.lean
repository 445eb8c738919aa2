/-
# ApplyRule.Proofs.Operations -- the passes that operations lead to

A host runs the steps of a pass in any order and on any node, and goes on after a
step that was refused.  Whatever it does, the pass stays tidy (`Pass.tidy_operate`), and
the nodes of a tidy pass are divided among the root and the registered sets
(`Pass.Tidy.partitioned`).

These steps read a text before the document changes, plant whole trees, and drop the copy
of a set as it is put in place.  `ApplyRule.Proofs.NodeByNode` follows the same steps where
each node is made, moved and dropped on its own.
-/
import ApplyRule.Proofs.Predefined

namespace ApplyRule

set_option autoImplicit false

open Document

/-- The steps that a host can run. -/
inductive Operation where
  | registerPredefined
  | extractDeclarations
  | extractRules
  | resolveNested
  | prepare
  | run
  | resolve (id : NodeId)

def Operation.step : Operation → Step Unit
  | .registerPredefined => Step.registerPredefined
  | .extractDeclarations => Step.extractDeclarations
  | .extractRules => Step.extractRules
  | .resolveNested => Step.resolveNested
  | .prepare => Step.prepare
  | .run => Step.run
  | .resolve id => Step.resolve id

/-- The pass that a step leaves, whether it succeeds or is refused. -/
def Operation.apply (pass : Pass) (operation : Operation) : Pass :=
  match operation.step pass with
  | .ok _ after => after
  | .error _ after => after

/-- The pass after operations, one after the other. -/
def Pass.operate (pass : Pass) (operations : List Operation) : Pass :=
  operations.foldl Operation.apply pass

/-- The nodes of the tree under a node, that node first. -/
def Document.tree (document : Document) (top : NodeId) : List NodeId :=
  match document.find? top with
  | some (_, children) => top :: children.ids
  | none => []

/-- The nodes of a pass are divided among the root and the registered sets. -/
structure Pass.Partitioned (pass : Pass) : Prop where
  rules : ∀ entry ∈ pass.registry.entries, pass.document.isKind Kind.isRule entry.2 = true ∧
    pass.document.parent? entry.2 = some none
  apart : (pass.document.root :: pass.registry.ids).Pairwise fun first second =>
    (pass.document.tree first).Disjoint (pass.document.tree second)
  covered : ∀ id, pass.document.contains id = true →
    ∃! top, top ∈ pass.document.root :: pass.registry.ids ∧ id ∈ pass.document.tree top

theorem Pass.Tidy.partitioned {pass : Pass} (tidy : pass.Tidy [] []) : pass.Partitioned := by
  have sound : pass.document.Sound (pass.document.root :: pass.registry.ids) := by
    simpa using tidy.sound
  have tree : ∀ {top : NodeId} {item : Item} {children : Forest Node},
      pass.document.find? top = some (item, children) →
        pass.document.tree top = top :: children.ids := by
    intro top item children found
    rw [Document.tree, found]
  refine ⟨?_, ?_, ?_⟩
  · intro entry member
    have registered : entry.2 ∈ pass.registry.ids := List.mem_map_of_mem member
    exact ⟨tidy.rules entry.2 (by simpa using registered),
      sound.parent?_top (List.mem_cons_of_mem _ registered)⟩
  · refine sound.nodup_tops.imp_of_mem fun {first second} firstTop secondTop ne => ?_
    obtain ⟨_, _, found₁⟩ := sound.exists_tree firstTop
    obtain ⟨_, _, found₂⟩ := sound.exists_tree secondTop
    rw [tree found₁, tree found₂]
    exact Forest.disjoint_trees sound.nodup (sound.mem_tops.mpr firstTop)
      (sound.mem_tops.mpr secondTop) ne found₁ found₂
  · intro id present
    have member : id ∈ pass.document.forest.ids := by
      by_contra absent
      rw [contains, Document.find?, Forest.find?_of_not_mem absent] at present
      cases present
    obtain ⟨top, item, children, isTop, found, holds⟩ := Forest.exists_tree sound.nodup member
    have within : id ∈ top :: children.ids := List.mem_cons.mpr holds
    refine ⟨top, ⟨sound.mem_tops.mp isTop, tree found ▸ within⟩, ?_⟩
    rintro other ⟨otherTop, alsoWithin⟩
    obtain ⟨_, _, otherFound⟩ := sound.exists_tree otherTop
    exact sound.top_unique otherTop (sound.mem_tops.mp isTop) otherFound found
      (tree otherFound ▸ alsoWithin) within

namespace Step

variable {pass : Pass}

variable {failed : Error → Pass → Prop}

theorem keeps_resolveNested (tidy : pass.Tidy [] []) :
    Outcome resolveNested pass (fun _ after => after.Tidy [] []) failed := by
  obtain ⟨flattened, raised, after, ran, progress, -⟩ := progress_resolveNested tidy
  exact .of_ok ran progress.tidy

/-- After the sets that the options give, nothing is refused. -/
theorem keeps_prepare
    (given : Outcome registerPredefined pass (fun _ after => after.Tidy [] []) failed) :
    Outcome prepare pass (fun _ after => after.Tidy [] []) failed := by
  refine given.bind fun _ _ tidy => ?_
  refine (keeps_extractDeclarations tidy).bind fun _ _ tidy => ?_
  exact (keeps_extractRules tidy).bind fun _ _ tidy => keeps_resolveNested tidy

theorem keeps_run
    (given : Outcome registerPredefined pass (fun _ after => after.Tidy [] []) failed) :
    Outcome run pass (fun _ after => after.Tidy [] []) failed := by
  refine (keeps_prepare given).bind fun _ pass tidy => ?_
  obtain ⟨rootItem, below, rootFound, -⟩ := tidy.sound.root
  refine .bind_of_ok (underRoot_places rootFound (Kind.isAtRule referenceRule)) ?_
  exact keeps_forAttached _ (fun id pass tidy _ => keeps_of_ok (tidy_resolve tidy id)) tidy

end Step

theorem Operation.keeps {pass : Pass} (operation : Operation) (tidy : pass.Tidy [] []) :
    Step.Keeps operation.step pass := by
  cases operation with
  | registerPredefined => exact Step.keeps_registerPredefined tidy
  | extractDeclarations => exact Step.keeps_extractDeclarations tidy
  | extractRules => exact Step.keeps_extractRules tidy
  | resolveNested => exact Step.keeps_resolveNested tidy
  | prepare => exact Step.keeps_prepare (Step.keeps_registerPredefined tidy)
  | run => exact Step.keeps_run (Step.keeps_registerPredefined tidy)
  | resolve id => exact Step.keeps_of_ok (Step.tidy_resolve tidy id)

/-- What a step that keeps a pass tidy leaves is tidy, also when the step is refused. -/
theorem Step.Keeps.tidy_left {step : Step Unit} {pass : Pass} (kept : Step.Keeps step pass) :
    Pass.Tidy (match step pass with
      | .ok _ after => after
      | .error _ after => after) [] [] := by
  unfold Step.Keeps Outcome at kept
  cases ran : step pass with
  | ok answer after =>
      rw [ran] at kept
      exact kept
  | error error after =>
      rw [ran] at kept
      exact kept.2

theorem Operation.tidy_apply {pass : Pass} (operation : Operation) (tidy : pass.Tidy [] []) :
    (operation.apply pass).Tidy [] [] :=
  (operation.keeps tidy).tidy_left

theorem Pass.tidy_operate (operations : List Operation) {pass : Pass} (tidy : pass.Tidy [] []) :
    (pass.operate operations).Tidy [] [] := by
  induction operations generalizing pass with
  | nil => exact tidy
  | cons operation rest ih => exact ih (operation.tidy_apply tidy)

end ApplyRule
