/-
# ApplyRule.Proofs.NestedSets -- what references between sets come to

The sets of a stylesheet form a graph: one set refers to another.  Two things are
said of `resolveNested` on the sets that were found in any stylesheet.

* `sets_resolveNested` -- where no set refers back to itself, each set holds what
  it stands for, and the order of the registry does not matter.
* `reports_resolveNested` -- a loop is reported if and only if there is one, and
  each report is a path of the graph that comes back to itself.
-/
import ApplyRule.Proofs.Predefined

namespace ApplyRule

set_option autoImplicit false

open Document

/-- Find all sets, those of the options first. -/
def Step.findSets : Step Unit := do
  registerPredefined
  extractDeclarations
  extractRules

theorem Step.tidy_findSets {css : String} {document : Document} {options : Options} {pass : Pass}
    (parsed : Document.parse css = .ok document)
    (ran : Step.findSets { document, options } = .ok () pass) : pass.Tidy [] [] := by
  have kept : Keeps findSets { document, options } := by
    refine Outcome.bind (keeps_registerPredefined (Pass.tidy_of_parse parsed options))
      fun _ _ tidy => ?_
    exact Outcome.bind (keeps_extractDeclarations tidy) fun _ _ tidy => keeps_extractRules tidy
  unfold Keeps Outcome at kept
  rw [ran] at kept
  exact kept

/-- What can be computed of the sets that are found in a text holds of them. -/
theorem Step.exists_findSets (css : String) (options : Options) (p : Pass → Bool)
    (holds : (Document.parse css).toOption.any
      (fun document => findSets.leads p { document, options }) = true) :
    ∃ document pass, Document.parse css = .ok document ∧
      Step.findSets { document, options } = .ok () pass ∧ p pass = true :=
  exists_ran findSets css options p holds

/-! ## Paths -/

namespace Sets

variable {sets : Sets}

theorem transGen_of_isChain {first last : String} {between : List String}
    (chain : (first :: (between ++ [last])).IsChain sets.Refers) :
    Relation.TransGen sets.Refers first last := by
  induction between generalizing first with
  | nil => exact .single (List.isChain_cons_cons.mp chain).1
  | cons next rest ih =>
      obtain ⟨refers, later⟩ := List.isChain_cons_cons.mp chain
      exact .head refers (ih later)

theorem Loop.transGen {names : List String} (loop : sets.Loop names) :
    ∃ name, Relation.TransGen sets.Refers name name := by
  obtain ⟨chain, path, last, rfl, member⟩ := loop
  obtain ⟨before, after, rfl⟩ := List.append_of_mem member
  rw [List.append_assoc, List.cons_append] at chain
  exact ⟨last, transGen_of_isChain (List.isChain_append.mp chain).2.1⟩

/-- The names that a set refers to, registered or not. -/
def targets (sets : Sets) (name : String) : List String :=
  (sets name).elim [] fun pair => pair.2.targets

theorem refers_iff {name other : String} :
    sets.Refers name other ↔ other ∈ sets.targets name ∧ (sets other).isSome = true := by
  unfold Refers targets
  cases sets name with
  | none => simp
  | some pair => exact ⟨fun ⟨_, _, rfl, among⟩ => among, fun among => ⟨_, _, rfl, among⟩⟩

theorem acyclic_of_rank {rank : String → Nat}
    (falls : ∀ name other, sets.Refers name other → rank other < rank name) (name : String) :
    ¬ Relation.TransGen sets.Refers name name := by
  intro loop
  have lifted : Relation.TransGen (· > ·) (rank name) (rank name) := loop.lift rank falls
  rw [Relation.transGen_eq_self] at lifted
  exact lt_irrefl _ lifted

end Sets

theorem Pass.Tidy.mem_names_of_refers {pass : Pass} (tidy : pass.Tidy [] [])
    {name other : String} (refers : pass.sets.Refers name other) :
    name ∈ pass.registry.names := by
  obtain ⟨rule, body, original, -⟩ := refers
  obtain ⟨set, lookup⟩ := tidy.isSome_sets.mp (by rw [original]; rfl)
  exact Registry.mem_names_of_lookup? lookup

theorem Settled.closed {sets current : Sets} {flattened : List String} {name other : String}
    (settled : Settled sets current flattened) (member : name ∈ flattened)
    (refers : sets.Refers name other) : other ∈ flattened := by
  induction flattened with
  | nil => cases member
  | cons first rest ih =>
      obtain ⟨earlier, -, later⟩ := settled
      rcases List.mem_cons.mp member with rfl | after
      · exact List.mem_cons_of_mem _ (earlier other refers)
      · exact List.mem_cons_of_mem _ (ih later after)

theorem Settled.closed_transGen {sets current : Sets} {flattened : List String}
    {name other : String} (settled : Settled sets current flattened) (member : name ∈ flattened)
    (path : Relation.TransGen sets.Refers name other) : other ∈ flattened := by
  induction path with
  | single refers => exact settled.closed member refers
  | tail _ refers ih => exact settled.closed ih refers

/-- Where every name refers only to names after it, none comes back to itself. -/
theorem Settled.acyclic {sets current : Sets} {flattened : List String} {name : String}
    (settled : Settled sets current flattened) (member : name ∈ flattened) :
    ¬ Relation.TransGen sets.Refers name name := by
  induction flattened with
  | nil => cases member
  | cons first rest ih =>
      obtain ⟨earlier, -, later⟩ := settled
      intro loop
      by_cases after : name ∈ rest
      · exact ih later after loop
      · rcases List.mem_cons.mp member with rfl | inRest
        · -- The first step leads into the rest, which no path leaves.
          obtain ⟨next, refers, back⟩ := Relation.TransGen.head'_iff.mp loop
          rcases Relation.reflTransGen_iff_eq_or_transGen.mp back with rfl | path
          · exact after (earlier _ refers)
          · exact after (later.closed_transGen (earlier next refers) path)
        · exact after inRest

/-! ## Orders of the registry -/

theorem Pass.Tidy.reorder {pass : Pass} (tidy : pass.Tidy [] []) {order : List (String × NodeId)}
    (perm : order.Perm pass.registry.entries) :
    ({ pass with registry := ⟨order⟩ } : Pass).Tidy [] [] ∧
      ({ pass with registry := ⟨order⟩ } : Pass).sets = pass.sets := by
  have ids : (Registry.ids ⟨order⟩).Perm pass.registry.ids := perm.map Prod.snd
  refine ⟨⟨?_, ?_, (perm.map Prod.fst).nodup_iff.mpr tidy.names⟩, ?_⟩
  · refine tidy.sound.perm (List.Perm.cons _ ?_)
    simpa using ids.symm
  · intro id member
    refine tidy.rules id ?_
    rw [List.append_nil] at member ⊢
    exact ids.mem_iff.mp member
  · funext name
    have same : NameMap.lookup? ⟨order⟩ name = pass.registry.lookup? name :=
      NameMap.find?_perm tidy.names perm name
    rw [Pass.sets, Pass.sets, same]

/-! ## The results -/

/-- Without loops, every set holds what it stands for. -/
theorem expands_of_acyclic {pass : Pass} (tidy : pass.Tidy [] [])
    (acyclic : ∀ name, ¬ Relation.TransGen pass.sets.Refers name name) :
    ∃ after, Step.resolveNested pass = .ok () after ∧
      (∀ name, pass.sets name = none → after.sets name = none) ∧
      ∀ name rule body, pass.sets name = some (rule, body) →
        ∃ expanded, after.sets name = some (rule, expanded) ∧
          Expands pass.sets body expanded := by
  obtain ⟨flattened, raised, after, ran, progress, done⟩ := Step.progress_resolveNested tidy
  have quiet : Quiet raised := by
    intro warning member names cause
    obtain ⟨name, loop⟩ := (progress.loops warning member names cause).transGen
    exact acyclic name loop
  have known : ∀ name, (pass.sets name).isSome = true → name ∈ flattened := by
    intro name some_
    obtain ⟨set, lookup⟩ := tidy.isSome_sets.mp some_
    exact done name (Registry.mem_names_of_lookup? lookup)
  refine ⟨after, ran, ?_, ?_⟩
  · intro name none_
    refine Pass.Tidy.sets_eq_none ?_
    rw [progress.registry]
    by_contra some_
    have := tidy.isSome_sets.mpr (Option.ne_none_iff_exists'.mp some_)
    rw [none_] at this
    cases this
  · intro name rule body original
    obtain ⟨_, _, expanded, same, now, stands⟩ :=
      (progress.settled quiet).of_mem (known name (by rw [original]; rfl))
    rw [original] at same
    cases same
    exact ⟨expanded, now, stands⟩

/-- **References between sets are expanded.**  Take the sets that were found in any
stylesheet, and let none refer back to itself.  There is one result, whatever the
order of the registry: every set holds exactly what it stands for. -/
theorem sets_resolveNested {css : String} {document : Document} {options : Options} {pass : Pass}
    (parsed : Document.parse css = .ok document)
    (ran : Step.findSets { document, options } = .ok () pass)
    (acyclic : ∀ name, ¬ Relation.TransGen pass.sets.Refers name name) :
    ∃ result : Sets,
      (∀ name, pass.sets name = none → result name = none) ∧
      (∀ name rule body, pass.sets name = some (rule, body) →
        ∃ expanded, result name = some (rule, expanded) ∧
          ∀ items, Expands pass.sets body items ↔ items = expanded) ∧
      ∀ order, order.Perm pass.registry.entries →
        ∃ after, Step.resolveNested { pass with registry := ⟨order⟩ } = .ok () after ∧
          after.sets = result := by
  have tidy := Step.tidy_findSets parsed ran
  obtain ⟨final, -, nones, somes⟩ := expands_of_acyclic tidy acyclic
  refine ⟨final.sets, nones, ?_, ?_⟩
  · intro name rule body original
    obtain ⟨expanded, now, stands⟩ := somes name rule body original
    refine ⟨expanded, now, fun items => ⟨fun also => also.unique stands, ?_⟩⟩
    rintro rfl
    exact stands
  · intro order perm
    obtain ⟨orderTidy, same⟩ := tidy.reorder perm
    obtain ⟨after, ranOrder, orderNones, orderSomes⟩ :=
      expands_of_acyclic orderTidy (by rw [same]; exact acyclic)
    rw [same] at orderNones orderSomes
    refine ⟨after, ranOrder, funext fun name => ?_⟩
    cases original : pass.sets name with
    | none => rw [orderNones name original, nones name original]
    | some pair =>
        obtain ⟨expanded, now, stands⟩ := somes name pair.1 pair.2 original
        obtain ⟨also, orderNow, orderStands⟩ := orderSomes name pair.1 pair.2 original
        rw [now, orderNow, stands.unique orderStands]

/-- The pole of `sets_resolveNested`: `--a` comes to `--b` by two ways, and both
`--b` and `--c` are defined after their first use. -/
theorem sets_resolveNested_diamond :
    ∃ document pass,
      Document.parse (":root\x7b--a:\x7b@apply --b;@m\x7b@apply --c;\x7d\x7d;" ++
        "--c:\x7b@apply --b;d:e\x7d;--b:\x7bf:g\x7d\x7d") = .ok document ∧
      Step.findSets { document, options := {} } = .ok () pass ∧
      (∀ name, ¬ Relation.TransGen pass.sets.Refers name name) ∧
      ∃ after reversed rule body expanded, Step.resolveNested pass = .ok () after ∧
        Step.resolveNested { pass with registry := ⟨pass.registry.entries.reverse⟩ } =
          .ok () reversed ∧
        pass.sets "a" = some (rule, body) ∧ body.targets = ["b", "c"] ∧
        after.sets "a" = some (rule, expanded) ∧ reversed.sets "a" = some (rule, expanded) ∧
        Expands pass.sets body expanded := by
  obtain ⟨document, pass, parsed, ran, computed⟩ := Step.exists_findSets
    (":root\x7b--a:\x7b@apply --b;@m\x7b@apply --c;\x7d\x7d;" ++
      "--c:\x7b@apply --b;d:e\x7d;--b:\x7bf:g\x7d\x7d") {} (fun pass =>
    decide (pass.sets.targets "a" = ["b", "c"] ∧ (pass.sets "a").isSome = true ∧
      ∀ name ∈ pass.registry.names, ∀ other ∈ pass.sets.targets name,
        ["b", "c", "a"].idxOf other < ["b", "c", "a"].idxOf name))
    (by decide +kernel)
  obtain ⟨targets, isSet, falls⟩ := of_decide_eq_true computed
  have tidy := Step.tidy_findSets parsed ran
  have acyclic : ∀ name, ¬ Relation.TransGen pass.sets.Refers name name :=
    Sets.acyclic_of_rank fun name other refers =>
      falls name (tidy.mem_names_of_refers refers) other (Sets.refers_iff.mp refers).1
  obtain ⟨result, -, stands, orders⟩ := sets_resolveNested parsed ran acyclic
  obtain ⟨after, ranNested, rfl⟩ := orders pass.registry.entries (.refl _)
  obtain ⟨reversed, ranReversed, same⟩ := orders _ (List.reverse_perm pass.registry.entries)
  obtain ⟨⟨rule, body⟩, original⟩ := Option.isSome_iff_exists.mp isSet
  obtain ⟨expanded, now, unique⟩ := stands "a" rule body original
  rw [Sets.targets, original] at targets
  exact ⟨document, pass, parsed, ran, acyclic, after, reversed, rule, body, expanded, ranNested,
    ranReversed, original, targets, now, same ▸ now, (unique expanded).mpr rfl⟩

/-- **Loops are found, and only loops.**  On the sets that were found in any
stylesheet, a loop is reported if and only if some set refers back to itself, and
the names in each report are a path that comes back to itself. -/
theorem reports_resolveNested {css : String} {document : Document} {options : Options}
    {pass : Pass} (parsed : Document.parse css = .ok document)
    (ran : Step.findSets { document, options } = .ok () pass) :
    ∃ after raised, Step.resolveNested pass = .ok () after ∧
      after.warnings = pass.warnings ++ raised ∧
      ((∃ warning ∈ raised, ∃ names, warning.cause = .circularReference names) ↔
        ∃ name, Relation.TransGen pass.sets.Refers name name) ∧
      ∀ warning ∈ raised, ∀ names, warning.cause = .circularReference names →
        names.IsChain pass.sets.Refers ∧ ∃ path last, names = path ++ [last] ∧ last ∈ path := by
  have tidy := Step.tidy_findSets parsed ran
  obtain ⟨flattened, raised, after, ranNested, progress, done⟩ := Step.progress_resolveNested tidy
  refine ⟨after, raised, ranNested, progress.warnings, ⟨?_, ?_⟩, progress.loops⟩
  · rintro ⟨warning, member, names, cause⟩
    exact (progress.loops warning member names cause).transGen
  · rintro ⟨name, loop⟩
    by_contra none_
    have quiet : Quiet raised := fun warning member names cause =>
      none_ ⟨warning, member, names, cause⟩
    obtain ⟨next, refers, -⟩ := Relation.TransGen.head'_iff.mp loop
    exact (progress.settled quiet).acyclic (done name (tidy.mem_names_of_refers refers)) loop

/-- The pole of `reports_resolveNested`: two sets that refer to each other. -/
theorem reports_resolveNested_mutual :
    ∃ document pass,
      Document.parse ":root\x7b--a:\x7b@apply --b\x7d;--b:\x7b@apply --a\x7d\x7d" = .ok document ∧
      Step.findSets { document, options := {} } = .ok () pass ∧
      ∃ after raised, Step.resolveNested pass = .ok () after ∧
        after.warnings = pass.warnings ++ raised ∧
        ∃ warning ∈ raised, ∃ names, warning.cause = .circularReference names ∧
          names.IsChain pass.sets.Refers := by
  obtain ⟨document, pass, parsed, ran, computed⟩ := Step.exists_findSets
    ":root\x7b--a:\x7b@apply --b\x7d;--b:\x7b@apply --a\x7d\x7d" {} (fun pass =>
      decide ("b" ∈ pass.sets.targets "a" ∧ (pass.sets "b").isSome = true ∧
        "a" ∈ pass.sets.targets "b" ∧ (pass.sets "a").isSome = true)) (by decide +kernel)
  obtain ⟨toB, isB, toA, isA⟩ := of_decide_eq_true computed
  have loop : Relation.TransGen pass.sets.Refers "a" "a" :=
    .tail (.single (Sets.refers_iff.mpr ⟨toB, isB⟩)) (Sets.refers_iff.mpr ⟨toA, isA⟩)
  obtain ⟨after, raised, ranNested, warnings, found, paths⟩ := reports_resolveNested parsed ran
  obtain ⟨warning, member, names, cause⟩ := found.mpr ⟨"a", loop⟩
  exact ⟨document, pass, parsed, ran, after, raised, ranNested, warnings, warning, member, names,
    cause, (paths warning member names cause).1⟩

end ApplyRule
