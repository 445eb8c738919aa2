/-
# ApplyRule.Proofs.Unrelated -- stylesheets without property sets

A stylesheet that neither refers to a set nor defines one comes out of a run as it
went in, whatever sets the options give and however those refer to each other.

The steps over the document find nothing to do: each leaves the whole pass as it is
(`extract_unrelated`).  What the options give is planted, registered, flattened and
copied apart from the document, and the tree under the root is carried past all that
(`collect_registerPredefined`, `Progress.outside`).
-/
import ApplyRule.Process
import ApplyRule.Proofs.FlatSets
import ApplyRule.Proofs.Predefined

namespace ApplyRule

set_option autoImplicit false

open Document

/-- Whether an item has nothing to do with property sets: it is no reference, and
defines no set in either form. -/
def Kind.unrelated : Kind → Bool
  | .root => true
  | .rule selector => (setName? selector).isNone
  | .atRule name _ _ => name ≠ referenceRule
  | .declaration property value => (setName? property).isNone || value.toList.head? ≠ some '{'
  | .comment _ => true

namespace Kind

variable {kind : Kind}

theorem definition?_of_unrelated (unrelated : kind.unrelated = true) : kind.definition? = none := by
  cases kind with
  | declaration property value =>
      cases named : setName? property with
      | none => simp [definition?, named]
      | some name =>
          have unopened : value.toList.head? ≠ some '{' := by
            simpa [Kind.unrelated, named] using unrelated
          simp [definition?, named, unopened]
  | _ => rfl

theorem ruleName?_of_unrelated (unrelated : kind.unrelated = true) : kind.ruleName? = none := by
  cases kind with
  | rule selector => simpa [Kind.unrelated, ruleName?] using unrelated
  | _ => rfl

theorem isAtRule_of_unrelated (unrelated : kind.unrelated = true) :
    kind.isAtRule referenceRule = false := by
  cases kind with
  | atRule name params hasBlock => simpa [Kind.unrelated, isAtRule] using unrelated
  | _ => rfl

end Kind

namespace Document

/-- The text of a document is that of the tree under its root. -/
theorem css_congr {document after : Document}
    (same : after.find? after.root = document.find? document.root) : after.css = document.css := by
  rw [css, css, print?, print?, same]

end Document

namespace Step

variable {pass : Pass} {rootItem : Item} {below : Forest Node}

/-- A loop whose steps have nothing to do. -/
theorem forAttached_idle {step : NodeId → Step Unit} {ids : List NodeId}
    (idle : ∀ id ∈ ids, step id pass = .ok () pass) : forAttached ids step pass = .ok () pass := by
  induction ids with
  | nil => rfl
  | cons id rest ih =>
      have passed : (do if (← document).isAttached id then step id) pass = .ok () pass := by
        rw [bind_ok document_ok]
        split
        · exact idle id List.mem_cons_self
        · rfl
      refine (bind_ok passed).trans (ih fun other member => ?_)
      exact idle other (List.mem_cons_of_mem _ member)

/-- The nodes that a loop lists are of the kinds that the tree under the root has. -/
theorem kind?_of_listed (tidy : pass.Tidy [] [])
    (rootFound : pass.document.find? pass.document.root = some (rootItem, below))
    (unrelated : ∀ node ∈ below.labels, node.item.kind.unrelated = true) {p : Kind → Bool}
    {id : NodeId} (listed : id ∈ (below.placesOf p [.root]).map Place.id) :
    ∃ kind, pass.document.kind? id = some kind ∧ kind.unrelated = true ∧ p kind = true := by
  obtain ⟨place, among, rfl⟩ := List.mem_map.mp listed
  obtain ⟨member, selected⟩ := List.mem_filter.mp among
  obtain ⟨own, inner, path, inside, found, -, -, same⟩ :=
    tidy.sound.exists_node_of_place rootFound member
  have kind : place.kind = own.kind := congrArg Place.kind same
  refine ⟨own.kind, kind?_of_find? found, ?_, kind ▸ selected⟩
  exact unrelated _ ((Forest.labels_sublist_of_find? inside).subset List.mem_cons_self)

/-- Nothing is found where nothing is related to property sets. -/
theorem extract_unrelated (tidy : pass.Tidy [] [])
    (rootFound : pass.document.find? pass.document.root = some (rootItem, below))
    (unrelated : ∀ node ∈ below.labels, node.item.kind.unrelated = true) :
    extractDeclarations pass = .ok () pass ∧ extractRules pass = .ok () pass := by
  constructor
  · refine (bind_ok (underRoot_places rootFound _)).trans (forAttached_idle fun id listed => ?_)
    obtain ⟨kind, known, idle, -⟩ := kind?_of_listed tidy rootFound unrelated listed
    unfold collectDeclaration
    rw [bind_ok document_ok, known, Option.bind_some, Kind.definition?_of_unrelated idle]
    rfl
  · refine (bind_ok (underRoot_places rootFound _)).trans (forAttached_idle fun id listed => ?_)
    obtain ⟨kind, known, idle, isRule⟩ := kind?_of_listed tidy rootFound unrelated listed
    have unnamed := Kind.ruleName?_of_unrelated idle
    unfold collectRule
    rw [bind_ok document_ok, known]
    cases kind with
    | rule selector =>
        have none_ : setName? selector = none := unnamed
        simp only [none_]
        rfl
    | _ => cases isRule

/-- No reference is listed where nothing is related to property sets. -/
theorem placesOf_unrelated (unrelated : ∀ node ∈ below.labels, node.item.kind.unrelated = true)
    (above : List Kind) : below.placesOf (Kind.isAtRule referenceRule) above = [] := by
  have none_ : ((below.placesOf (Kind.isAtRule referenceRule) above).map Place.id) = [] := by
    rw [Forest.map_id_placesOf, List.map_eq_nil_iff, List.filter_eq_nil_iff]
    intro node member
    simp [Kind.isAtRule_of_unrelated (unrelated node member)]
  exact List.map_eq_nil_iff.mp none_

/-- **A run over nothing that is related to property sets.**  The tree under the root
stays, and with no sets in the options so does the whole pass. -/
theorem run_unrelated (tidy : pass.Tidy [] [])
    (rootFound : pass.document.find? pass.document.root = some (rootItem, below))
    (unrelated : ∀ node ∈ below.labels, node.item.kind.unrelated = true)
    (valid : pass.options.Valid) :
    ∃ after, run pass = .ok () after ∧
      after.document.find? after.document.root = some (rootItem, below) ∧
      (pass.options.sets.entries = [] → pass.registry = .empty → after = pass) := by
  obtain ⟨_, given, ranGiven, stored, collected⟩ | ⟨error, _, -, refuses⟩ :=
    (collect_registerPredefined tidy rootFound).cases
  swap
  · exact absurd refuses.1 valid.not_refuses
  obtain ⟨ranDeclarations, ranRules⟩ :=
    extract_unrelated collected.tidy collected.under unrelated
  obtain ⟨flattened, raised, after, ranNested, progress, -⟩ :=
    progress_resolveNested collected.tidy
  have rootAfter : after.document.find? after.document.root = some (rootItem, below) := by
    rw [progress.root, progress.outside, collected.under]
  have prepared : prepare pass = .ok () after :=
    (bind_ok ranGiven).trans ((bind_ok ranDeclarations).trans ((bind_ok ranRules).trans ranNested))
  have listed := underRoot_places rootAfter (Kind.isAtRule referenceRule)
  rw [placesOf_unrelated unrelated] at listed
  refine ⟨after, (bind_ok prepared).trans ((bind_ok listed).trans rfl), rootAfter, ?_⟩
  intro noSets noRegistry
  have nothing : registerPredefined pass = .ok () pass := by
    unfold registerPredefined
    rw [bind_ok get_ok, noSets]
    rfl
  have flat : pass.sets.Flat := by
    intro name rule body found
    rw [Pass.sets, noRegistry] at found
    cases found
  rw [nothing] at ranGiven
  cases ranGiven
  rw [resolveNested_of_flat tidy flat] at ranNested
  cases ranNested
  rfl

end Step

/-- **A stylesheet that does not use property sets is left alone.**  Where the options
are valid the run succeeds, its text is that of the stylesheet as it was read, and
without sets in the options nothing is reported. -/
theorem process_unrelated {css : String} {document : Document} {options : Options}
    (parsed : Document.parse css = .ok document)
    (unrelated : ∀ node ∈ document.forest.labels, node.item.kind.unrelated = true)
    (valid : options.Valid) :
    ∃ warnings, process css options = .ok ⟨document.css, warnings⟩ ∧
      (options.sets.entries = [] → warnings = []) := by
  have tidy := Pass.tidy_of_parse parsed options
  obtain ⟨rootItem, below, rootFound, -⟩ := tidy.sound.root
  have within : ∀ node ∈ below.labels, node.item.kind.unrelated = true := fun node member =>
    unrelated node ((Forest.labels_sublist_of_find? rootFound).subset
      (List.mem_cons_of_mem _ member))
  obtain ⟨after, ran, rootAfter, same⟩ := Step.run_unrelated tidy rootFound within valid
  refine ⟨after.warnings, ?_, fun noSets => ?_⟩
  · rw [← css_congr (rootAfter.trans rootFound.symm)]
    exact process_ok parsed ran
  · rw [same noSets rfl]

/-- The pole of `process_unrelated`: the options give two sets that refer to each other
and to a set that is not there, and the stylesheet has declarations, rules and
at-rules that are close to definitions and references. -/
theorem process_unrelated_lookalikes :
    ∃ document,
      Document.parse ":root\x7b--a: b; x:\x7bc:d\x7d\x7d\n@applied --a;.--a\x7b@media\x7b/**/\x7d\x7d" =
        .ok document ∧
      ({ sets := ⟨[("a", "@apply --b;"), ("--b", "@apply --a;@apply --u")]⟩ } : Options).Valid ∧
      ∃ warnings,
        process ":root\x7b--a: b; x:\x7bc:d\x7d\x7d\n@applied --a;.--a\x7b@media\x7b/**/\x7d\x7d"
          { sets := ⟨[("a", "@apply --b;"), ("--b", "@apply --a;@apply --u")]⟩ } =
            .ok ⟨document.css, warnings⟩ := by
  obtain ⟨document, parsed, computed⟩ := exists_ok_of_any
    (Document.parse ":root\x7b--a: b; x:\x7bc:d\x7d\x7d\n@applied --a;.--a\x7b@media\x7b/**/\x7d\x7d")
    (fun document => document.forest.labels.all fun node => node.item.kind.unrelated)
    (by decide +kernel)
  have valid : ({ sets := ⟨[("a", "@apply --b;"), ("--b", "@apply --a;@apply --u")]⟩ } :
      Options).Valid := Options.valid_of_computed (by decide +kernel)
  obtain ⟨warnings, ran, -⟩ :=
    process_unrelated parsed (List.all_eq_true.mp computed) valid
  exact ⟨document, parsed, valid, warnings, ran⟩

end ApplyRule
