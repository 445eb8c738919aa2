/-
# ApplyRule.Proofs.Counting -- the definition that counts

Of several definitions of a name the last rule is to count, and else the last
declaration (`Definition.overriding`).  A rule that is swallowed, written in the value of
a declaration, is put where the declaration is, unless a rule of its name is there
already.  So what counts is the last rule that is not swallowed, else the first rule, and
else the last declaration (`Definition.counting`).  The two differ only if the last rule
is swallowed and is not the only one (`Definition.counting_eq_overriding`).
-/
import ApplyRule.Proofs.Definitions

namespace ApplyRule

set_option autoImplicit false

/-! ## The definition that counts -/

namespace Definition

/-- The definitions of a name in a form. -/
def ofName (form : Form) (name : String) (list : List Definition) : List Definition :=
  list.filter fun definition => definition.form = form && definition.name = name

/-- The definition that is to count: the last rule, or else the last declaration. -/
def overriding (name : String) (list : List Definition) : Option Definition :=
  (ofName .rule name list).getLast?.or (ofName .declaration name list).getLast?

/-- The definition that counts: the last rule that is not swallowed, or else the first
rule, or else the last declaration. -/
def counting (name : String) (list : List Definition) : Option Definition :=
  ((ofName .rule name list).filter (!·.swallowed)).getLast?.or
    ((ofName .rule name list).head?.or (ofName .declaration name list).getLast?)

/-- The definition that counts is the one that is to count, unless the last rule is
swallowed and others come before it. -/
theorem counting_eq_overriding {name : String} {list : List Definition}
    (clear : (ofName .rule name list).length ≤ 1 ∨
      ∀ last, (ofName .rule name list).getLast? = some last → last.swallowed = false) :
    counting name list = overriding name list := by
  unfold counting overriding
  generalize ofName .rule name list = rules at clear
  rcases List.eq_nil_or_concat rules with rfl | ⟨front, last, rfl⟩
  · rfl
  · rcases clear with alone | direct
    · obtain rfl : front = [] := by simpa using alone
      cases shape : last.swallowed <;> simp [shape]
    · have shape : last.swallowed = false := direct last (by simp)
      simp [List.filter_append, shape]

/-- The rules that are put where `present` rules are, one after the other: a swallowed
one is not if there is one of its name. -/
def kept (present : List String) : List Definition → List Definition
  | [] => []
  | first :: rest =>
      if first.swallowed && decide (first.name ∈ present) then kept present rest
      else first :: kept (first.name :: present) rest

theorem kept_congr {present others : List String} (same : ∀ name, name ∈ present ↔ name ∈ others)
    (list : List Definition) : kept present list = kept others list := by
  induction list generalizing present others with
  | nil => rfl
  | cons first rest ih =>
      have more : ∀ name, name ∈ first.name :: present ↔ name ∈ first.name :: others := fun name => by
        rw [List.mem_cons, List.mem_cons, same]
      rw [kept, kept, ih same, ih more, decide_eq_decide.mpr (same first.name)]

theorem kept_append (present : List String) (first second : List Definition) :
    kept present (first ++ second) =
      kept present first ++ kept ((kept present first).map Definition.name ++ present) second := by
  induction first generalizing present with
  | nil => rfl
  | cons definition rest ih =>
      rw [List.cons_append, kept, kept]
      split
      · exact ih present
      · rw [ih, List.cons_append, List.map_cons, List.cons_append]
        congr 2
        refine kept_congr (fun name => ?_) second
        simp only [List.mem_append, List.mem_cons]
        tauto

/-- What is kept of a name: the rules that are not swallowed if the name is present, and
else the first. -/
theorem filter_kept {present : List String} {list : List Definition}
    (direct : ∀ definition ∈ list, definition.swallowed = false → definition.name ∈ present)
    (name : String) :
    (kept present list).filter (·.name = name) =
      if name ∈ present then (list.filter (·.name = name)).filter (!·.swallowed)
      else (list.filter (·.name = name)).head?.toList := by
  induction list generalizing present with
  | nil => split <;> rfl
  | cons first rest ih =>
      have later : ∀ definition ∈ rest, definition.swallowed = false →
          definition.name ∈ present := fun definition member =>
        direct definition (List.mem_cons_of_mem first member)
      have more : ∀ definition ∈ rest, definition.swallowed = false →
          definition.name ∈ first.name :: present := fun definition member isDirect =>
        List.mem_cons_of_mem _ (later definition member isDirect)
      rw [kept]
      split
      · rename_i dropped
        rw [Bool.and_eq_true, decide_eq_true_eq] at dropped
        rw [ih later]
        split
        · by_cases own : first.name = name <;> simp [own, dropped.1]
        · rename_i absent
          have other : first.name ≠ name := fun eq => absent (eq ▸ dropped.2)
          simp [other]
      · rename_i stays
        rw [Bool.and_eq_true, decide_eq_true_eq, not_and] at stays
        by_cases own : first.name = name
        · subst own
          rw [List.filter_cons_of_pos (by simp), ih more, if_pos List.mem_cons_self,
            List.filter_cons_of_pos (by simp)]
          split
          · rename_i known
            have isDirect : first.swallowed = false := by
              by_contra swallowed
              exact stays (by simpa using swallowed) known
            rw [List.filter_cons_of_pos (by simp [isDirect])]
          · rename_i absent
            -- A rule of the name that is not swallowed would make the name present.
            have none_ : (rest.filter (·.name = first.name)).filter (!·.swallowed) = [] := by
              simp only [List.filter_eq_nil_iff, List.mem_filter, decide_eq_true_eq]
              rintro definition ⟨member, same⟩ isDirect
              exact absent (same ▸ later definition member (by simpa using isDirect))
            rw [none_]
            rfl
        · rw [List.filter_cons_of_neg (by simpa using own), ih more,
            List.filter_cons_of_neg (by simpa using own)]
          simp [Ne.symm own]

theorem filter_rules (name : String) (list : List Definition) :
    (rules list).filter (·.name = name) = ofName .rule name list := by
  simp [rules, ofName, List.filter_filter, Bool.and_comm]

theorem filter_declarations (name : String) (list : List Definition) :
    (declarations list).filter (·.name = name) = ofName .declaration name list := by
  simp [declarations, ofName, List.filter_filter, Bool.and_comm]

/-- The names of the rules that are not swallowed. -/
def directNames (list : List Definition) : List String :=
  ((rules list).filter (!·.swallowed)).map Definition.name

theorem mem_directNames {list : List Definition} {name : String} :
    name ∈ directNames list ↔ (ofName .rule name list).filter (!·.swallowed) ≠ [] := by
  rw [← List.isEmpty_eq_false_iff, List.isEmpty_eq_false_iff_exists_mem, ← filter_rules]
  simp only [directNames, List.mem_map, List.mem_filter, decide_eq_true_eq]
  exact exists_congr fun definition => by tauto

theorem name_mem_directNames {list : List Definition} :
    ∀ definition ∈ rules list, definition.swallowed = false →
      definition.name ∈ directNames list := fun definition member isDirect =>
  List.mem_map_of_mem (List.mem_filter.mpr ⟨member, by simp [isDirect]⟩)

/-- A declaration with swallowed rules has no rule that is not. -/
theorem directNames_declaration {own : Definition} {following : List Definition}
    (isDeclaration : own.form = .declaration)
    (swallowed : ∀ definition ∈ following, definition.swallowed = true) (more : List Definition) :
    directNames (own :: (following ++ more)) = directNames more := by
  have none_ : (rules following).filter (!·.swallowed) = [] := by
    rw [List.filter_eq_nil_iff]
    intro definition member
    simp [swallowed definition (List.mem_of_mem_filter member)]
  simp only [directNames, rules] at none_ ⊢
  simp [List.filter_append, none_, isDeclaration]

/-- Of the declarations and the rules that are kept, the last one of a name is the one
that counts. -/
theorem getLast?_kept (list : List Definition) (name : String) :
    ((declarations list ++ kept (directNames list) (rules list)).filter
      (·.name = name)).getLast? = counting name list := by
  rw [List.filter_append, List.getLast?_append, filter_kept name_mem_directNames, filter_rules,
    filter_declarations, counting]
  split
  · rename_i known
    obtain ⟨last, found⟩ := Option.isSome_iff_exists.mp
      (List.getLast?_isSome.mpr (mem_directNames.mp known))
    rw [found, Option.some_or, Option.some_or]
  · rename_i absent
    rw [Classical.not_not.mp (mt mem_directNames.mpr absent), List.getLast?_nil, Option.none_or]
    cases (ofName .rule name list).head? <;> rfl

theorem ofName_eq_nil {form : Form} {name : String} {list : List Definition} :
    ofName form name list = [] ↔
      ∀ definition ∈ list, definition.form = form → definition.name ≠ name := by
  simp [ofName, List.filter_eq_nil_iff]

/-- No definition of a name counts only if there is none. -/
theorem counting_eq_none {name : String} {list : List Definition} :
    counting name list = none ↔ ∀ definition ∈ list, definition.name ≠ name := by
  rw [counting, Option.or_eq_none_iff, Option.or_eq_none_iff, List.getLast?_eq_none_iff,
    List.head?_eq_none_iff, List.getLast?_eq_none_iff]
  constructor
  · rintro ⟨-, noRule, noDeclaration⟩ definition member
    cases form : definition.form with
    | rule => exact ofName_eq_nil.mp noRule definition member form
    | declaration => exact ofName_eq_nil.mp noDeclaration definition member form
  · intro none_
    have empty : ∀ form, ofName form name list = [] := fun form =>
      ofName_eq_nil.mpr fun definition member _ => none_ definition member
    rw [empty .rule, empty .declaration]
    exact ⟨rfl, rfl, rfl⟩

/-- Every name that is defined has a definition that is registered. -/
theorem mem_names_kept (list : List Definition) (name : String) :
    name ∈ (declarations list ++ kept (directNames list) (rules list)).map Definition.name ↔
      name ∈ list.map Definition.name := by
  have all : ∀ some : List Definition, name ∉ some.map Definition.name ↔
      ∀ definition ∈ some, definition.name ≠ name := fun some => by simp
  have none_ := (getLast?_kept list name).symm ▸ (counting_eq_none : counting name list = none ↔ _)
  rw [List.getLast?_eq_none_iff, List.filter_eq_nil_iff] at none_
  rw [← not_iff_not, all, all, ← none_]
  simp only [decide_eq_true_eq, ne_eq]

/-! ### One more definition -/

section Cons

variable {name : String} {body : Forest Item} {following more : List Definition}

theorem directNames_rule : directNames (⟨name, .rule, false, body⟩ :: more) =
    name :: directNames more := by
  simp [directNames, rules]

theorem kept_rule (present : List String) :
    kept present (rules (⟨name, .rule, false, body⟩ :: more)) =
      ⟨name, .rule, false, body⟩ :: kept (name :: present) (rules more) := by
  simp [rules, kept]

theorem kept_declaration (present : List String) (swallowed : Bool) :
    kept present (rules (⟨name, .declaration, swallowed, body⟩ :: (following ++ more))) =
      kept present (rules following) ++
        kept ((kept present (rules following)).map Definition.name ++ present) (rules more) := by
  rw [← kept_append]
  simp [rules, List.filter_append]

theorem declarations_declaration (swallowed : Bool) :
    declarations (⟨name, .declaration, swallowed, body⟩ :: (following ++ more)) =
      ⟨name, .declaration, swallowed, body⟩ :: (declarations following ++ declarations more) := by
  simp [declarations, List.filter_append]

/-- The names that are present: those of the rules seen so far, and those of the rules to
come that are not swallowed. -/
def Present (present : List String) (seen list : List Definition) : Prop :=
  ∀ name, name ∈ present ↔ name ∈ seen.map Definition.name ∨ name ∈ directNames list

theorem Present.rule {present : List String} {seen : List Definition}
    (known : Present present seen (⟨name, .rule, false, body⟩ :: more)) :
    Present (name :: present) (seen ++ [⟨name, .rule, false, body⟩]) more := by
  intro other
  rw [List.mem_cons, known, directNames_rule, List.mem_cons, List.map_append, List.mem_append,
    List.map_singleton, List.mem_singleton]
  tauto

theorem Present.declaration {present : List String} {seen : List Definition} {swallowed : Bool}
    (known : Present present seen (⟨name, .declaration, swallowed, body⟩ :: (following ++ more)))
    (swallows : ∀ definition ∈ following, definition.swallowed = true)
    (fresh : List Definition) :
    Present (fresh.map Definition.name ++ present) (seen ++ fresh) more := by
  intro other
  rw [List.mem_append, known, directNames_declaration rfl swallows, List.map_append,
    List.mem_append]
  tauto

end Cons

end Definition

end ApplyRule
