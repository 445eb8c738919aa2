/-
# ApplyRule.Proofs.FlatSets -- sets without references

Whatever the sets of a stylesheet refer to, and in however many loops, none of them
holds a reference once `resolveNested` is through.  The document itself is not
touched by it: the tree under the root is what it was.

A set without references is left alone by `flatten` (`flatten_of_plain`), so a second
`resolveNested` finds nothing to do, and leaves the whole pass as it is
(`plain_resolveNested`).
-/
import ApplyRule.Proofs.NestedSets

namespace ApplyRule

set_option autoImplicit false

open Document

/-- No set holds a reference. -/
def Sets.Flat (sets : Sets) : Prop :=
  ∀ name rule body, sets name = some (rule, body) → body.Plain

namespace Step

variable {pass : Pass}

/-- A set without references is visited and left. -/
theorem flatten_of_plain (tidy : pass.Tidy [] []) (flat : pass.sets.Flat)
    (waiting chain : List String) (name : String) (flattened : List String) :
    ∃ flattened', flatten waiting chain name flattened pass = .ok flattened' pass := by
  rw [flatten_eq]
  by_cases done : name ∈ flattened
  · exact ⟨flattened, by rw [if_pos done]; rfl⟩
  · rw [if_neg done, bind_ok get_ok]
    cases known : pass.registry.lookup? name with
    | none => exact ⟨flattened, rfl⟩
    | some set =>
        obtain ⟨rule, forest, found⟩ := tidy.exists_set known
        have plain := flat name rule _ (Pass.Tidy.sets_of_lookup? known found)
        have asked : pass.document.select? (Kind.isAtRule referenceRule) set = some [] := by
          rw [← Forest.references_eq_nil.mpr plain, select?, below?, found]
          rfl
        refine ⟨name :: flattened, ?_⟩
        simp only
        rw [bind_ok (ask_ok asked)]
        rfl

/-- Where no set holds a reference there is nothing to resolve. -/
theorem resolveNested_of_flat (tidy : pass.Tidy [] []) (flat : pass.sets.Flat) :
    resolveNested pass = .ok () pass := by
  have visits : ∀ (names : List String) (all flattened : List String), ∃ flattened',
      names.foldlM (fun flattened name => flatten (all.erase name) [] name flattened) flattened
        pass = .ok flattened' pass := by
    intro names all
    induction names with
    | nil => exact fun flattened => ⟨flattened, rfl⟩
    | cons name rest ih =>
        intro flattened
        obtain ⟨mid, ran⟩ := flatten_of_plain tidy flat (all.erase name) [] name flattened
        obtain ⟨flattened', ranRest⟩ := ih mid
        exact ⟨flattened', by rw [List.foldlM_cons, bind_ok ran]; exact ranRest⟩
  obtain ⟨flattened', ran⟩ := visits pass.registry.names pass.registry.names []
  unfold resolveNested
  rw [bind_ok get_ok, bind_ok ran]
  rfl

end Step

/-- All sets that have been flattened hold no reference. -/
theorem Progress.flat {start pass : Pass} {flattened : List String} {raised : List Warning}
    (progress : Progress start [] flattened raised pass)
    (done : ∀ name ∈ start.registry.names, name ∈ flattened) : pass.sets.Flat := by
  intro name rule body now
  obtain ⟨set, known⟩ := progress.tidy.isSome_sets.mp (by rw [now]; rfl)
  have isName := Registry.mem_names_of_lookup? known
  rw [progress.registry] at isName
  exact progress.plain name (done name isName) rule body now

/-- **No set holds a reference.**  Take the sets that were found in any stylesheet.
Once the references between them are resolved, every registered set is a rule with no
reference below it, the registry and the tree under the root are as they were, and
resolving again changes nothing and reports nothing. -/
theorem plain_resolveNested {css : String} {document : Document} {options : Options} {pass : Pass}
    (parsed : Document.parse css = .ok document)
    (ran : Step.findSets { document, options } = .ok () pass) :
    ∃ after, Step.resolveNested pass = .ok () after ∧
      (∀ set ∈ after.registry.ids, ∃ rule children,
        after.document.find? set = some (rule, children) ∧ rule.kind.isRule = true ∧
          ∀ node ∈ children.labels, node.item.kind.isAtRule referenceRule = false) ∧
      after.registry = pass.registry ∧
      after.document.root = pass.document.root ∧
      after.document.find? after.document.root = pass.document.find? pass.document.root ∧
      Step.resolveNested after = .ok () after := by
  have tidy := Step.tidy_findSets parsed ran
  obtain ⟨flattened, raised, after, ranNested, progress, done⟩ := Step.progress_resolveNested tidy
  have flat := progress.flat done
  refine ⟨after, ranNested, ?_, progress.registry, progress.root, ?_,
    Step.resolveNested_of_flat progress.tidy flat⟩
  · intro set member
    obtain ⟨⟨name, _⟩, entry, rfl⟩ := List.mem_map.mp member
    have known : after.registry.lookup? name = some _ :=
      (NameMap.find?_eq_some_iff progress.tidy.names).mpr entry
    obtain ⟨rule, children, found, isRule⟩ :=
      isKind_iff.mp (progress.tidy.rules _ (by simpa using member))
    have plain := flat name rule _ (Pass.Tidy.sets_of_lookup? known found)
    refine ⟨rule, children, found, isRule, fun node below => ?_⟩
    rw [Kind.isAtRule_reference, plain node.item (Forest.mem_labels_items.mpr ⟨node, below, rfl⟩)]
    rfl
  · rw [progress.root]
    exact progress.outside

/-- The pole of `plain_resolveNested`: two sets that refer to each other, one of them
also to itself and, inside a block, to a set that is not there. -/
theorem plain_resolveNested_loops :
    ∃ document pass,
      Document.parse (":root\x7b--a:\x7b@apply --b;@m\x7b@apply --a;@apply --u\x7d\x7d;" ++
        "--b:\x7b@apply --a;c:d\x7d\x7d.x\x7b@apply --a\x7d") = .ok document ∧
      Step.findSets { document, options := {} } = .ok () pass ∧
      pass.sets.targets "a" = ["b", "a", "u"] ∧ pass.sets.targets "b" = ["a"] ∧
      ∃ after, Step.resolveNested pass = .ok () after ∧
        after.document.find? after.document.root = pass.document.find? pass.document.root ∧
        Step.resolveNested after = .ok () after := by
  obtain ⟨document, pass, parsed, ran, computed⟩ := Step.exists_findSets
    (":root\x7b--a:\x7b@apply --b;@m\x7b@apply --a;@apply --u\x7d\x7d;" ++
      "--b:\x7b@apply --a;c:d\x7d\x7d.x\x7b@apply --a\x7d") {} (fun pass =>
    decide (pass.sets.targets "a" = ["b", "a", "u"] ∧ pass.sets.targets "b" = ["a"]))
    (by decide +kernel)
  obtain ⟨ofA, ofB⟩ := of_decide_eq_true computed
  obtain ⟨after, ranNested, -, -, -, same, again⟩ := plain_resolveNested parsed ran
  exact ⟨document, pass, parsed, ran, ofA, ofB, after, ranNested, same, again⟩

end ApplyRule
