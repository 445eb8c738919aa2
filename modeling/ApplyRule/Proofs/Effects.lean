/-
# ApplyRule.Proofs.Effects -- what the steps of a pass do

A step of a pass does three things (`Step.Effect`): it edits the document, it adds a
warning, and it registers a rule under a name.  It does so whether it succeeds or is
refused, from any pass and on any node (`Step.Does`); the options stay.

* A warning that a set cannot be read gives the reason for which reading its definition
  fails (`Warning.Genuine`).
* A name is one that a definition was read from, or one that the options give
  (`Options.Names`).

`Step.Does` is carried through sequences and loops, down the recursion of `flatten`.
-/
import ApplyRule.Proofs.Definitions
import ApplyRule.Proofs.Flatten
import Mathlib.Logic.Relation

namespace ApplyRule

set_option autoImplicit false

/-- The reason that a warning gives for a set that cannot be read is what reading the
set's definition fails with. -/
def Warning.Genuine (warning : Warning) : Prop :=
  ∀ name error, warning.cause = .malformedSet name error →
    ∃ value, expand warning.source name value = .error error

/-- A report that is not about a set's text. -/
theorem Warning.Genuine.of_ne {cause : Cause}
    (other : ∀ name error, cause ≠ .malformedSet name error) (source : Option Text.Location) :
    Warning.Genuine ⟨cause, source⟩ :=
  fun name error eq => absurd eq (other name error)

/-- A declaration that defines a set is named by its property. -/
theorem Kind.exists_setName? {kind : Kind} {name value : String}
    (definition : kind.definition? = some (name, value)) :
    ∃ property, setName? property = some name := by
  unfold definition? at definition
  split at definition
  · rename_i property _
    split at definition
    · rename_i own read
      split at definition
      · cases definition
        exact ⟨property, read⟩
      · cases definition
    · cases definition
  · cases definition

/-- The names that sets are registered under: those that definitions are read with, and
those of the options, where they can be read. -/
inductive Options.Names (options : Options) (name : String) : Prop where
  | defined {text : String} (read : setName? text = some name)
  | given {written text : String} (member : (written, text) ∈ options.sets.entries)
      (bare : bareName written = name) (read : (setName? (writtenName name)).isSome = true)

namespace Step

variable {α β : Type} {options : Options} {pass mid after : Pass} {ensures : α → Prop}

/-- The ways in which a step changes a pass. -/
inductive Effect (options : Options) : Pass → Pass → Prop where
  | edit (pass : Pass) (document : Document) : Effect options pass { pass with document }
  | warn (pass : Pass) {warning : Warning} (genuine : warning.Genuine) :
      Effect options pass { pass with warnings := pass.warnings ++ [warning] }
  | store (pass : Pass) {name : String} (set : NodeId) (named : options.Names name) :
      Effect options pass { pass with registry := pass.registry.insert name set }

/-- One pass comes of another by effects. -/
def Leads (options : Options) : Pass → Pass → Prop :=
  Relation.ReflTransGen (Effect options)

theorem Leads.options_eq (leads : Leads options pass after) : after.options = pass.options := by
  induction leads with
  | refl => rfl
  | tail _ effect ih => cases effect <;> exact ih

/-- A name was registered before, or it is one of those that sets are registered under. -/
theorem Leads.names (leads : Leads options pass after) :
    ∀ name ∈ after.registry.names, name ∈ pass.registry.names ∨ options.Names name := by
  induction leads with
  | refl => exact fun _ => .inl
  | tail _ effect ih =>
      cases effect with
      | edit => exact ih
      | warn => exact ih
      | store set named =>
          intro other member
          rw [NameMap.names_insert] at member
          split at member
          · exact ih other member
          · rcases List.mem_append.mp member with known | new
            · exact ih other known
            · exact .inr (List.mem_singleton.mp new ▸ named)

/-- A step changes a pass by effects only, and `ensures` holds of its answer. -/
def Does (options : Options) (step : Step α) (ensures : α → Prop := fun _ => True) : Prop :=
  ∀ pass : Pass, pass.options = options →
    Outcome step pass (fun answer after => ensures answer ∧ Leads options pass after)
      fun _ => Leads options pass

namespace Does

theorem pure {answer : α} (holds : ensures answer) :
    Does options (Pure.pure answer : Step α) ensures :=
  fun _ _ => Outcome.pure ⟨holds, .refl⟩

theorem throw (error : Error) : Does options (throw error : Step α) ensures :=
  fun _ _ => Outcome.of_error rfl .refl

theorem bind {ensured : β → Prop} {first : Step β} {next : β → Step α}
    (one : Does options first ensured)
    (other : ∀ answer, ensured answer → Does options (next answer) ensures) :
    Does options (first >>= next) ensures := by
  refine fun pass own => (one pass own).bind fun answer mid ⟨holds, leads⟩ => ?_
  refine (other answer holds mid (leads.options_eq.trans own)).imp ?_ fun _ _ => leads.trans
  exact fun _ _ ⟨done, later⟩ => ⟨done, leads.trans later⟩

theorem ite {c : Prop} [Decidable c] {first second : Step α} (one : Does options first ensures)
    (other : Does options second ensures) : Does options (if c then first else second) ensures := by
  split
  · exact one
  · exact other

theorem forM {list : List β} {round : β → Step PUnit}
    (each : ∀ value ∈ list, Does options (round value)) : Does options (list.forM round) := by
  induction list with
  | nil => exact pure trivial
  | cons value rest ih =>
      refine bind (each value List.mem_cons_self) fun _ _ => ?_
      exact ih fun other member => each other (List.mem_cons_of_mem value member)

theorem mapM {list : List β} {round : β → Step α}
    (each : ∀ value ∈ list, Does options (round value) ensures) :
    Does options (list.mapM round) fun answers => ∀ answer ∈ answers, ensures answer := by
  induction list with
  | nil => exact pure nofun
  | cons value rest ih =>
      rw [List.mapM_cons]
      refine bind (each value List.mem_cons_self) fun _ holds => ?_
      refine bind (ih fun other member => each other (List.mem_cons_of_mem value member)) ?_
      exact fun _ others => pure (List.forall_mem_cons.mpr ⟨holds, others⟩)

theorem foldlM {list : List β} {round : α → β → Step α} {start : α}
    (each : ∀ value member, Does options (round value member)) :
    Does options (list.foldlM round start) := by
  induction list generalizing start with
  | nil => exact pure trivial
  | cons member rest ih =>
      rw [List.foldlM_cons]
      exact bind (each start member) fun _ _ => ih

/-! ## Small steps -/

theorem edit (change : Edit α) : Does options (edit change) := by
  intro pass _
  unfold Outcome Step.edit
  cases change pass.document with
  | ok answer document => exact ⟨trivial, .single (.edit pass document)⟩
  | error error document => exact .single (.edit pass document)

theorem ask (question : Document → Option α) : Does options (ask question) :=
  edit _

theorem get : Does options (get : Step Pass) fun pass => pass.options = options :=
  fun _ own => Outcome.of_ok rfl ⟨own, .refl⟩

theorem document : Does options document :=
  get.bind fun _ _ => pure trivial

theorem source (id : NodeId) : Does options (source id) :=
  (ask _).bind fun _ _ => pure trivial

theorem warn {cause : Cause} {source : Option Text.Location}
    (genuine : Warning.Genuine ⟨cause, source⟩) : Does options (warn cause source) :=
  fun pass _ => Outcome.of_ok rfl ⟨trivial, .single (.warn pass genuine)⟩

theorem store {name : String} (named : options.Names name) (set : NodeId) :
    Does options (store name set) := by
  refine get.bind fun _ _ => ?_
  have registers : Does options (modify fun pass =>
      { pass with registry := pass.registry.insert name set } : Step PUnit) :=
    fun pass _ => Outcome.of_ok rfl ⟨trivial, .single (.store pass set named)⟩
  refine registers.bind fun _ _ => ?_
  split
  · exact edit _
  · exact pure trivial

theorem underRoot (class? : Kind → Bool) : Does options (underRoot class?) :=
  document.bind fun _ _ => ask _

theorem forAttached {ids : List NodeId} {step : NodeId → Step Unit}
    (each : ∀ id, Does options (step id)) : Does options (forAttached ids step) :=
  .forM fun id _ => document.bind fun _ _ => .ite (each id) (pure trivial)

/-! ## Definitions -/

theorem registerOne {written text : String} (member : (written, text) ∈ options.sets.entries) :
    Does options (registerOne written text) := by
  refine get.bind fun _ _ => .ite (pure trivial) ?_
  cases read : setName? (writtenName (bareName written)) with
  | none => exact throw _
  | some own =>
      cases Body.parse text with
      | error error => exact throw _
      | ok body =>
          exact (edit _).bind fun set _ => store (.given member rfl (by rw [read]; rfl)) set

theorem registerPredefined : Does options registerPredefined := by
  refine get.bind fun pass own => .forM fun ⟨written, text⟩ member => ?_
  exact registerOne (own ▸ member)

theorem acceptScope (id : NodeId) (name : String) (scope : NodeId) :
    Does options (acceptScope id name scope) := by
  refine document.bind fun document _ => .ite (pure trivial) ?_
  refine (source id).bind fun source _ => ?_
  refine (warn (.of_ne (by simp) source)).bind fun _ _ => ?_
  exact Does.document.bind fun _ _ => .ite ((edit _).bind fun _ _ => pure trivial) (pure trivial)

theorem removeCommentBefore (id : NodeId) : Does options (removeCommentBefore id) := by
  refine (ask _).bind fun previous _ => ?_
  split
  · exact document.bind fun _ _ => .ite (edit _) (pure trivial)
  · exact pure trivial

theorem settleScope (scope : NodeId) : Does options (settleScope scope) := by
  refine (ask _).bind fun last _ => ?_
  split
  · exact edit _
  · exact (ask _).bind fun item _ => .ite (pure trivial) (edit _)

theorem insertAllAfter (scope anchor : NodeId) (ids : List NodeId) :
    Does options (insertAllAfter scope anchor ids) := by
  induction ids generalizing anchor with
  | nil => exact pure trivial
  | cons id rest ih =>
      refine (ask _).bind fun kind _ => ?_
      have agrees : Does options (hasAgreeing scope kind) := (ask _).bind fun _ _ => pure trivial
      refine agrees.bind fun _ _ => .ite ?_ ?_
      · exact (edit _).bind fun _ _ => ih anchor
      · exact (edit _).bind fun _ _ => ih id

end Does

/-- The sets of a value are named by the definitions that wait to be read. -/
theorem names_expandAll {source : Option Text.Location} (rounds : Nat)
    {pending : List (String × String)} {expansion : Expansion}
    (read : expandAll source rounds pending = .ok expansion)
    (named : ∀ next ∈ pending, options.Names next.1) :
    ∀ set ∈ expansion.sets, options.Names set.name := by
  induction rounds generalizing pending expansion with
  | zero => cases pending <;> cases read <;> nofun
  | succ rounds ih =>
      cases pending with
      | nil => cases read; nofun
      | cons next pending =>
          obtain ⟨one, more, first, later, rfl⟩ := exists_of_expandAll read
          obtain ⟨split, body, items, -, -, -, rfl⟩ := exists_of_expandOne first
          obtain ⟨own, others⟩ := List.forall_mem_cons.mp named
          refine List.forall_mem_cons.mpr ⟨own, ih later (List.forall_mem_append.mpr ⟨others, ?_⟩)⟩
          intro following member
          obtain ⟨item, -, definition⟩ := List.mem_filterMap.mp member
          obtain ⟨property, named⟩ := Kind.exists_setName? definition
          exact .defined named

namespace Does

theorem collectDeclaration (id : NodeId) : Does options (collectDeclaration id) := by
  refine document.bind fun document _ => ?_
  cases defines : (document.kind? id).bind Kind.definition? with
  | none => exact pure trivial
  | some definition =>
      obtain ⟨name, value⟩ := definition
      refine (ask _).bind fun parent _ => ?_
      cases parent with
      | none => exact pure trivial
      | some scope =>
          refine (acceptScope id name scope).bind fun accepted _ => .ite ?_ (pure trivial)
          refine (source id).bind fun source _ => ?_
          cases expanded : expand source name value with
          | error error =>
              refine warn fun name' error' eq => ?_
              cases eq
              exact ⟨value, expanded⟩
          | ok expansion =>
              obtain ⟨kind, -, definition⟩ := Option.bind_eq_some_iff.mp defines
              obtain ⟨property, read⟩ := Kind.exists_setName? definition
              have named : ∀ set ∈ expansion.sets, options.Names set.name :=
                names_expandAll _ expanded (by simpa using .defined read)
              have planted (set : SetRule) (member : set ∈ expansion.sets) :
                  Does options (do return (set.name, ← plantSet set))
                    fun entry => options.Names entry.1 :=
                (edit _).bind fun _ _ => pure (named set member)
              refine Does.bind (.mapM planted) fun sets names => ?_
              refine Does.bind (.mapM fun _ _ => edit _) fun items _ => ?_
              refine (removeCommentBefore id).bind fun _ _ => ?_
              refine Does.bind (.forM fun pair member => store (names pair member) _) fun _ _ => ?_
              refine (insertAllAfter scope id items).bind fun _ _ => ?_
              exact (edit _).bind fun _ _ => settleScope scope

theorem collectRule (id : NodeId) : Does options (collectRule id) := by
  refine document.bind fun document _ => ?_
  split
  · split
    · rename_i name read
      refine (ask _).bind fun parent _ => ?_
      split
      · refine (acceptScope id _ _).bind fun accepted _ => .ite ?_ (pure trivial)
        refine (edit _).bind fun set _ => (store (.defined read) set).bind fun _ _ => ?_
        refine get.bind fun _ _ => .ite (pure trivial) ?_
        refine (removeCommentBefore id).bind fun _ _ => ?_
        exact (edit _).bind fun _ _ => settleScope _
      · exact pure trivial
    · exact pure trivial
  · exact pure trivial

/-! ## References -/

theorem substitute (reference set : NodeId) : Does options (substitute reference set) :=
  (ask _).bind fun _ _ => (edit _).bind fun _ _ => edit _

theorem dropReference {cause : Cause} (id : NodeId)
    (other : ∀ name error, cause ≠ .malformedSet name error) :
    Does options (dropReference cause id) :=
  (source id).bind fun source _ =>
    (warn (.of_ne other source)).bind fun _ _ => edit _

theorem resolve (id : NodeId) : Does options (resolve id) := by
  refine document.bind fun document _ => ?_
  split
  · refine .ite ((ask _).bind fun above _ => .ite ?_ ?_) (pure trivial)
    · split
      · refine get.bind fun _ _ => ?_
        split
        · exact (source id).bind fun source _ => warn (.of_ne (by simp) source)
        · exact substitute _ _
      · exact pure trivial
    · refine (source id).bind fun source _ => ?_
      refine (warn (.of_ne (by simp) source)).bind fun _ _ => ?_
      exact (edit _).bind fun _ _ => pure trivial
  · exact pure trivial

/-- One reference inside a set, if it is so for flattening the sets it can refer to. -/
theorem flattenOne {waiting chain : List String}
    (deeper : ∀ target ∈ waiting, ∀ flattened,
      Does options (flatten (waiting.erase target) chain target flattened))
    (flattened : List String) (id : NodeId) :
    Does options (flattenOne waiting chain flattened id) := by
  refine document.bind fun document _ => ?_
  split
  · split
    · exact (edit _).bind fun _ _ => pure trivial
    · refine .ite ((dropReference id (by simp)).bind fun _ _ => pure trivial) ?_
      split
      · rename_i known
        refine (deeper _ known flattened).bind fun _ _ => get.bind fun _ _ => ?_
        split
        · exact (substitute _ _).bind fun _ _ => pure trivial
        · exact pure trivial
      · exact (dropReference id (by simp)).bind fun _ _ => pure trivial
  · exact pure trivial

/-- Flattening, by recursion on the number of names that wait. -/
theorem flatten (waiting chain : List String) (name : String) (flattened : List String) :
    Does options (flatten waiting chain name flattened) := by
  induction count : waiting.length using Nat.strongRecOn
    generalizing waiting chain name flattened with
  | ind n ih =>
      rw [flatten_eq]
      refine .ite (pure trivial) (get.bind fun pass _ => ?_)
      split
      · refine (ask _).bind fun references _ => ?_
        refine Does.bind (.foldlM fun flattened id => ?_) fun _ _ => pure trivial
        refine flattenOne (fun target known flattened => ?_) flattened id
        refine ih _ ?_ _ _ _ _ rfl
        rw [← count, List.length_erase_of_mem known]
        have := List.length_pos_of_mem known
        omega
      · exact pure trivial

/-! ## Whole steps -/

theorem visits {class? : Kind → Bool} {step : NodeId → Step Unit}
    (each : ∀ id, Does options (step id)) :
    Does options (do Step.forAttached (← Step.underRoot class?) step) :=
  (underRoot _).bind fun _ _ => forAttached each

theorem resolveNested : Does options resolveNested :=
  get.bind fun _ _ => Does.bind (.foldlM fun flattened name => flatten _ _ name flattened)
    fun _ _ => pure trivial

theorem prepare : Does options prepare :=
  registerPredefined.bind fun _ _ => (visits collectDeclaration).bind fun _ _ =>
    (visits collectRule).bind fun _ _ => resolveNested

theorem run : Does options run :=
  prepare.bind fun _ _ => visits resolve

end Does

/-! ## Warnings -/

/-- Warnings were added, and `p` holds of each of them. -/
def Raised (p : Warning → Prop) (pass after : Pass) : Prop :=
  ∃ raised, after.warnings = pass.warnings ++ raised ∧ ∀ warning ∈ raised, p warning

/-- A step adds warnings of which `p` holds, and no others. -/
def Reports (p : Warning → Prop) (step : Step α) : Prop :=
  ∀ pass, Outcome step pass (fun _ => Raised p pass) (fun _ => Raised p pass)

theorem Leads.raised (leads : Leads options pass after) : Raised Warning.Genuine pass after := by
  induction leads with
  | refl => exact ⟨[], (List.append_nil _).symm, nofun⟩
  | tail _ effect ih =>
      cases effect with
      | edit => exact ih
      | @warn warning genuine =>
          obtain ⟨raised, warnings, all⟩ := ih
          refine ⟨raised ++ [warning], ?_, List.forall_mem_append.mpr ⟨all, by simpa using genuine⟩⟩
          rw [warnings, List.append_assoc]
      | store => exact ih

/-- **What a run reports.**  Where it reports that a set cannot be read it gives the
reason for which reading the set's definition fails. -/
theorem reports_run : Reports Warning.Genuine run :=
  fun pass => (Does.run pass rfl).imp (fun _ _ done => done.2.raised) fun _ _ => Leads.raised

end Step

end ApplyRule
