/-
# ApplyRule.Proofs.Predefined -- sets that the options give

The options are the only thing besides the stylesheet that can stop a run.
`Options.Refuses options error` says why: a set that they give has a name that no
reference could use, or a body that cannot be read.  Registering the sets is refused
for such a reason only, and touches neither the tree under the root nor the warnings
(`collect_registerPredefined`).
-/
import ApplyRule.Process
import ApplyRule.Proofs.Collecting

namespace ApplyRule

set_option autoImplicit false

open Document

/-- Why the sets that the options give cannot all be registered. -/
inductive Options.Refuses (options : Options) : Error → Prop where
  | name {written text : String} (member : (written, text) ∈ options.sets.entries)
      (unnamed : setName? (writtenName (bareName written)) = none) :
      Refuses options (.setName written)
  | body {written text : String} {fault : ParseError}
      (member : (written, text) ∈ options.sets.entries) (unread : Body.parse text = .error fault) :
      Refuses options (.predefinedSet (bareName written) fault)

/-- Every set that the options give has a name and a body that can be read. -/
def Options.Valid (options : Options) : Prop :=
  ∀ entry ∈ options.sets.entries, (setName? (writtenName (bareName entry.1))).isSome = true ∧
    ∃ body, Body.parse entry.2 = .ok body

theorem Options.valid_of_computed {options : Options}
    (computed : ∀ entry ∈ options.sets.entries,
      (setName? (writtenName (bareName entry.1))).isSome = true ∧
        (Body.parse entry.2).toOption.isSome = true) : options.Valid := by
  intro entry member
  obtain ⟨named, read⟩ := computed entry member
  refine ⟨named, ?_⟩
  cases parsed : Body.parse entry.2 with
  | ok body => exact ⟨body, rfl⟩
  | error fault =>
      rw [parsed] at read
      cases read

theorem Options.Valid.not_refuses {options : Options} (valid : options.Valid) {error : Error} :
    ¬ options.Refuses error := by
  rintro (⟨member, unnamed⟩ | ⟨member, unread⟩)
  · obtain ⟨named, -⟩ := valid _ member
    rw [unnamed] at named
    cases named
  · obtain ⟨-, body, read⟩ := valid _ member
    rw [unread] at read
    cases read

namespace Step

variable {pass : Pass} {rootItem : Item} {below : Forest Node}

/-- A rule that was planted is registered, and the tree under the root stays. -/
theorem collected_store (tidy : pass.Tidy [] [])
    (rootFound : pass.document.find? pass.document.root = some (rootItem, below)) {set : SetRule}
    (proper : set.Proper) :
    ∃ after, (do store set.name (← plantSet set)) pass = .ok () after ∧
      Collected pass rootItem below [set] [] after := by
  obtain ⟨new, planted, ranPlant, tidyPlant, grown, carries⟩ := tidy_plantSet tidy proper
  obtain ⟨after, ranStore, tidyStore, stores⟩ := tidy_store set.name tidyPlant
  refine ⟨after, (bind_ok ranPlant).trans ranStore, tidyStore, stores.options.trans grown.options,
    (grown.registers tidy).trans (registers_stored stores carries), ?_,
    stores.root.trans grown.root, ?_⟩
  · rw [stores.warnings, grown.warnings, List.append_nil]
  · rw [stores.root, stores.trees _ List.mem_cons_self, grown.root,
      grown.found _ (Forest.mem_ids_of_find? rootFound), rootFound]

/-- One set that the options give is registered or refused. -/
theorem collect_registerOne {options : Options} (tidy : pass.Tidy [] [])
    (rootFound : pass.document.find? pass.document.root = some (rootItem, below))
    {written text : String} (member : (written, text) ∈ options.sets.entries) :
    Outcome (registerOne written text) pass
      (fun _ after => ∃ stored, Collected pass rootItem below stored [] after)
      (fun error after => options.Refuses error ∧ after.Tidy [] []) := by
  unfold registerOne
  refine .bind_of_ok get_ok ?_
  split
  · exact .pure ⟨[], (answered_self tidy rootFound).collected⟩
  · cases named : setName? (writtenName (bareName written)) with
    | none =>
        have refused : (throw (.setName written) : Step Unit) pass = .error _ pass := rfl
        exact .of_error refused ⟨.name member named, tidy⟩
    | some name =>
        cases parsed : Body.parse text with
        | error fault =>
            have refused : (throw (.predefinedSet (bareName written) fault) : Step Unit) pass =
                .error _ pass := rfl
            exact .of_error refused ⟨.body member parsed, tidy⟩
        | ok body =>
            obtain ⟨after, ran, collected⟩ := collected_store tidy rootFound
              (SetRule.proper_ofBody (bareName written) none (proper_of_parse parsed))
            exact .of_ok ran ⟨_, collected⟩

/-- **The sets that the options give.**  They are all registered, or one of them is a
reason to refuse them, and those before it are registered. -/
theorem collect_registerPredefined (tidy : pass.Tidy [] [])
    (rootFound : pass.document.find? pass.document.root = some (rootItem, below)) :
    Outcome registerPredefined pass
      (fun _ after => ∃ stored, Collected pass rootItem below stored [] after)
      (fun error after => pass.options.Refuses error ∧ after.Tidy [] []) := by
  unfold registerPredefined
  refine .bind_of_ok get_ok (.forM ⟨[], (answered_self tidy rootFound).collected⟩ ?_)
  rintro ⟨written, text⟩ member mid ⟨stored, collected⟩
  refine (collect_registerOne collected.tidy collected.under member).imp ?_ fun _ _ => id
  rintro _ after ⟨more, next⟩
  exact ⟨stored ++ more, collected.trans next⟩

theorem keeps_registerPredefined (tidy : pass.Tidy [] []) : Keeps registerPredefined pass := by
  obtain ⟨rootItem, below, rootFound, -⟩ := tidy.sound.root
  refine (collect_registerPredefined tidy rootFound).imp ?_ ?_
  · rintro _ after ⟨_, collected⟩
    exact collected.tidy
  · rintro error after ⟨refuses, tidy⟩
    refine ⟨?_, tidy⟩
    rintro cause rfl
    cases refuses

end Step

/-! ## Processing -/

section Processing

variable {css : String} {options : Options} {document : Document} {pass : Pass} {error : Error}

theorem process_ok (parsed : Document.parse css = .ok document)
    (ran : Step.run { document, options } = .ok () pass) :
    process css options = .ok ⟨pass.document.css, pass.warnings⟩ := by
  simp only [process, parsed, Except.mapError, bind, Except.bind, ran]
  rfl

theorem process_error (parsed : Document.parse css = .ok document)
    (ran : Step.run { document, options } = .error error pass) :
    process css options = .error error := by
  simp only [process, parsed, Except.mapError, bind, Except.bind, ran]
  rfl

theorem process_unread {fault : ParseError} (failed : Document.parse css = .error fault) :
    process css options = .error (.parse fault) := by
  simp only [process, failed, Except.mapError, bind, Except.bind]

end Processing

end ApplyRule
