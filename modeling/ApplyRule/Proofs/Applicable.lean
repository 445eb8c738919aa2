/-
# ApplyRule.Proofs.Applicable -- whether a registered set can be referred to

A reference names a set by two hyphens and the set's name (`applicable_iff`).  Every set
that a definition registers can be named so.  Of a set that the options give it is only
checked that its name can be read, and what can be read may end with white space or a
colon, which is no part of the name: such a set is registered under a name that no
reference gives (`Options.Loose`).  These are the only ones, and any other name that no
reference gives is refused (`applicable_operate`).
-/
import ApplyRule.Proofs.Effects
import ApplyRule.Proofs.Operations
import ApplyRule.Proofs.ReferenceName

namespace ApplyRule

set_option autoImplicit false

open Text SetName

section Names

variable {options : Options} {name params : String}

theorem isName_of_referenceName? (found : referenceName? params = some name) :
    IsName name.toList :=
  (referenceName?_iff.mp found).1

/-- A name is named by its written form, and if it is not, nothing names it. -/
theorem applicable_iff : referenceName? (writtenName name) = some name ↔ IsName name.toList := by
  refine ⟨isName_of_referenceName?, fun isName => referenceName?_iff.mpr ⟨isName, ?_⟩⟩
  have none_ : Space [] := nofun
  obtain ⟨tail, ends, trimmed⟩ := exists_trim_written isName none_ .nil none_
  rw [List.append_nil, List.append_nil, List.nil_append, ← toList_writtenName] at trimmed
  rw [trimmed]
  exact .plain ends

/-- A name that the options give, with white space or a colon at its end. -/
structure Options.Loose (options : Options) (name : String) : Prop where
  given : ∃ entry ∈ options.sets.entries, bareName entry.1 = name
  trails : ∃ own tail : List Char, IsName own ∧ Tail tail ∧ tail ≠ [] ∧ name.toList = own ++ tail

/-- A loose name can be read, but no reference gives it. -/
theorem Options.Loose.unnamed (loose : options.Loose name) :
    (setName? (writtenName name)).isSome = true ∧ ¬ IsName name.toList := by
  obtain ⟨own, tail, isName, ends, some_, whole⟩ := loose.trails
  constructor
  · have read : setName? (writtenName name) = some (String.ofList own) := by
      refine setName?_iff.mpr ⟨by rwa [String.toList_ofList], tail, ends, ?_⟩
      rw [toList_writtenName, whole, String.toList_ofList]
    rw [read]
    rfl
  · intro also
    cases tail with
    | nil => exact some_ rfl
    | cons c rest =>
        have isNameChar := also.all c (by simp [whole])
        exact absurd (isNameChar.symm.trans (ends.first c rfl)) nofun

/-- What a set is registered under can be read, and is a name unless it is loose. -/
theorem Options.Names.cases (named : options.Names name) :
    (setName? (writtenName name)).isSome = true ∧ (IsName name.toList ∨ options.Loose name) := by
  cases named with
  | defined read =>
      have isName := (setName?_iff.mp read).1
      have read : setName? (writtenName name) = some name :=
        setName?_iff.mpr ⟨isName, [], .nil, by rw [toList_writtenName, List.append_nil]⟩
      exact ⟨by rw [read]; rfl, .inl isName⟩
  | given member bare read =>
      obtain ⟨own, found⟩ := Option.isSome_iff_exists.mp read
      obtain ⟨isName, tail, ends, whole⟩ := setName?_iff.mp found
      rw [toList_writtenName] at whole
      have own_ : name.toList = own.toList ++ tail := by simpa using whole
      refine ⟨read, ?_⟩
      cases tail with
      | nil => exact .inl (by rwa [own_, List.append_nil])
      | cons c rest => exact .inr ⟨⟨_, member, bare⟩, own.toList, _, isName, ends, nofun, own_⟩

end Names

/-! ## Registered names -/

/-- The names of all registered sets can be read. -/
def Pass.Readable (pass : Pass) : Prop :=
  ∀ name ∈ pass.registry.names, (setName? (writtenName name)).isSome = true

theorem Step.Leads.readable {options : Options} {pass after : Pass}
    (leads : Step.Leads options pass after) (readable : pass.Readable) : after.Readable := by
  intro name member
  rcases leads.names name member with known | named
  · exact readable name known
  · exact named.cases.1

/-- Every operation changes a pass by effects only. -/
theorem Operation.does (options : Options) (operation : Operation) :
    Step.Does options operation.step := by
  cases operation with
  | registerPredefined => exact .registerPredefined
  | extractDeclarations => exact .visits .collectDeclaration
  | extractRules => exact .visits .collectRule
  | resolveNested => exact .resolveNested
  | prepare => exact .prepare
  | run => exact .run
  | resolve id => exact .resolve id

theorem Operation.leads_apply {options : Options} {pass : Pass} (operation : Operation)
    (own : pass.options = options) : Step.Leads options pass (operation.apply pass) := by
  have done := operation.does options pass own
  unfold Outcome at done
  unfold Operation.apply
  cases ran : operation.step pass with
  | ok answer after =>
      rw [ran] at done
      exact done.2
  | error error after =>
      rw [ran] at done
      exact done

/-- And so do operations one after the other, refused or not. -/
theorem Pass.leads_operate {options : Options} (operations : List Operation) {pass : Pass}
    (own : pass.options = options) : Step.Leads options pass (pass.operate operations) := by
  induction operations generalizing pass with
  | nil => exact .refl
  | cons operation rest ih =>
      have first := operation.leads_apply own
      exact first.trans (ih (first.options_eq.trans own))

/-! ## Refused names -/

namespace Step

variable {pass : Pass} {written text : String}

/-- Registering a set whose name cannot be read is refused. -/
theorem registerOne_unread (readable : pass.Readable)
    (unread : setName? (writtenName (bareName written)) = none) :
    registerOne written text pass = .error (.setName written) pass := by
  have absent : pass.registry.contains (bareName written) = false := by
    by_contra known
    rw [Bool.not_eq_false, NameMap.contains] at known
    obtain ⟨set, found⟩ := Option.isSome_iff_exists.mp known
    have read := readable _ (Registry.mem_names_of_lookup? found)
    rw [unread] at read
    cases read
  unfold registerOne
  rw [bind_ok get_ok, absent, unread]
  rfl

/-- Registering sets stops at one whose name cannot be read, or at one before it. -/
theorem forM_registerOne_unread {before later : List (String × String)} (tidy : pass.Tidy [] [])
    (readable : pass.Readable) (within : before ⊆ pass.options.sets.entries)
    (unread : setName? (writtenName (bareName written)) = none) :
    ∃ error after, ((before ++ (written, text) :: later).forM fun entry =>
        registerOne entry.1 entry.2 : Step Unit) pass = .error error after ∧
      (error = .setName written ∨ Options.Refuses { sets := ⟨before⟩ } error) := by
  induction before generalizing pass with
  | nil => exact ⟨_, _, bind_refused (registerOne_unread readable unread), .inl rfl⟩
  | cons entry before ih =>
      obtain ⟨rootItem, below, rootFound, -⟩ := tidy.sound.root
      obtain ⟨given, others⟩ := List.cons_subset.mp within
      have does := Does.registerOne given pass rfl
      have first : (entry.1, entry.2) ∈ ({ sets := ⟨entry :: before⟩ } : Options).sets.entries :=
        List.mem_cons_self
      rcases (collect_registerOne tidy rootFound first).cases with
        ⟨_, mid, ran, stored, collected⟩ | ⟨error, after, ran, refuses, -⟩
      · rw [Outcome, ran] at does
        obtain ⟨error, after, stops, cause⟩ :=
          ih collected.tidy (does.2.readable readable) (collected.options ▸ others)
        refine ⟨error, after, (bind_ok ran).trans stops, cause.imp_right fun refuses => ?_⟩
        cases refuses with
        | name member unnamed => exact .name (List.mem_cons_of_mem entry member) unnamed
        | body member unread => exact .body (List.mem_cons_of_mem entry member) unread
      · exact ⟨error, after, bind_refused ran, .inr refuses⟩

end Step

/-! ## The names of a pass -/

/-- **Which registered sets a reference can name.**  After any operations on the pass of a
parsed stylesheet, refused or not, a reference can name every registered set by its name,
unless the options give the name with white space or a colon at its end; then no reference
names it.  Any other name that no reference gives is refused where the sets of the options
are registered, unless something before it is. -/
theorem applicable_operate {css : String} {document : Document}
    (parsed : Document.parse css = .ok document) (options : Options)
    (operations : List Operation) :
    (∀ name ∈ (Pass.operate { document, options } operations).registry.names,
      referenceName? (writtenName name) = some name ∨
        options.Loose name ∧ ∀ params, referenceName? params ≠ some name) ∧
    ∀ before written text later, options.sets.entries = before ++ (written, text) :: later →
      (∀ params, referenceName? params ≠ some (bareName written)) →
      ¬ options.Loose (bareName written) →
      ∃ error after, Step.registerPredefined (Pass.operate { document, options } operations) =
          .error error after ∧
        (error = .setName written ∨ Options.Refuses { sets := ⟨before⟩ } error) := by
  have leads := Pass.leads_operate operations
    (show ({ document, options } : Pass).options = options from rfl)
  have tidy := Pass.tidy_operate operations (Pass.tidy_of_parse parsed options)
  constructor
  · intro name member
    have named := (leads.names name member).resolve_left List.not_mem_nil
    rcases named.cases.2 with isName | loose
    · exact .inl (applicable_iff.mpr isName)
    · exact .inr ⟨loose, fun params found => loose.unnamed.2 (isName_of_referenceName? found)⟩
  · intro before written text later entries unreached notLoose
    have unread : setName? (writtenName (bareName written)) = none := by
      by_contra read
      have member : (written, text) ∈ options.sets.entries := by simp [entries]
      have named := Options.Names.given member rfl (Option.isSome_iff_ne_none.mpr read)
      rcases named.cases.2 with isName | loose
      · exact unreached _ (applicable_iff.mpr isName)
      · exact notLoose loose
    have given := leads.options_eq
    generalize Pass.operate { document, options } operations = pass at leads tidy given ⊢
    have within : before ⊆ pass.options.sets.entries := by
      rw [given, entries]
      exact List.subset_append_left _ _
    obtain ⟨error, after, stops, cause⟩ :=
      Step.forM_registerOne_unread tidy (leads.readable nofun) within unread
    refine ⟨error, after, ?_, cause⟩
    unfold Step.registerPredefined
    rw [bind_ok Step.get_ok, given, entries]
    exact stops

/-- The options give a name with a colon, one with its hyphens, and one that no reference
can give. -/
theorem applicable_operate_loose :
    ∃ document pass after,
      Document.parse ":root\x7b--c:\x7bx:y\x7d\x7d" = .ok document ∧
      Pass.operate { document, options :=
          { sets := ⟨[("a:", "x:y"), ("--b", "z:w"), ("s t", "u:v")]⟩ } }
        [.run, .extractDeclarations] = pass ∧
      pass.registry.names = ["a:", "b", "c"] ∧
      (∀ params, referenceName? params ≠ some "a:") ∧
      referenceName? "--b" = some "b" ∧ referenceName? "--c" = some "c" ∧
      Step.registerPredefined pass = .error (.setName "s t") after := by
  let options : Options := { sets := ⟨[("a:", "x:y"), ("--b", "z:w"), ("s t", "u:v")]⟩ }
  obtain ⟨document, parsed, names⟩ := exists_ok_of_any
    (Document.parse ":root\x7b--c:\x7bx:y\x7d\x7d")
    (fun document => decide ((Pass.operate { document, options }
      [.run, .extractDeclarations]).registry.names = ["a:", "b", "c"])) (by decide +kernel)
  have names := of_decide_eq_true names
  obtain ⟨applicable, refused⟩ :=
    applicable_operate parsed options [.run, .extractDeclarations]
  rw [names] at applicable
  have loose : referenceName? (writtenName "a:") ≠ some "a:" := by decide +kernel
  have unreached (params : String) : referenceName? params ≠ some "s t" := fun found =>
    absurd ((isName_of_referenceName? found).all ' ' (by decide)) (by decide)
  have unread : ¬ options.Loose "s t" := fun given =>
    absurd given.unnamed.1 (by decide +kernel)
  obtain ⟨error, after, stops, cause⟩ :=
    refused [("a:", "x:y"), ("--b", "z:w")] "s t" "u:v" [] rfl unreached unread
  have valid : ({ sets := ⟨[("a:", "x:y"), ("--b", "z:w")]⟩ } : Options).Valid :=
    Options.valid_of_computed (by decide +kernel)
  rw [cause.resolve_right valid.not_refuses] at stops
  refine ⟨document, _, after, parsed, rfl, names, ?_, ?_, ?_, stops⟩
  · exact ((applicable "a:" (by decide)).resolve_left loose).2
  · exact (applicable "b" (by decide)).resolve_right fun loose =>
      loose.2 _ (by decide +kernel : referenceName? "--b" = some "b")
  · exact (applicable "c" (by decide)).resolve_right fun loose =>
      loose.2 _ (by decide +kernel : referenceName? "--c" = some "c")

/-- Not every registered set can be named by its name. -/
theorem applicable_not_always : ¬ ∀ (css : String) (document : Document) (options : Options)
    (operations : List Operation), Document.parse css = .ok document →
      ∀ name ∈ (Pass.operate { document, options } operations).registry.names,
        referenceName? (writtenName name) = some name := by
  intro all
  obtain ⟨document, parsed, names⟩ := exists_ok_of_any (Document.parse "")
    (fun document => decide ("a:" ∈ (Pass.operate
      { document, options := { sets := ⟨[("a:", "x:y")]⟩ } }
      [.registerPredefined]).registry.names)) (by decide +kernel)
  have applicable := all _ _ _ _ parsed "a:" (of_decide_eq_true names)
  exact absurd applicable (by decide +kernel)

end ApplyRule
