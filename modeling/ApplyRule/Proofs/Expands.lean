/-
# ApplyRule.Proofs.Expands -- what sets with references stand for

`Sets` gives each name the rule of its set and what that rule holds.
`Expands sets items expanded` says what items stand for: every reference that is
not itself below a reference gives way to what its set stands for, indented anew,
or to nothing if it names no set.  `Sets.Refers` is the graph of these references.

* `Expands.unique` -- items stand for one forest at most.
* `expands_of_plain` -- items without references stand for themselves.
* `FirstReplaced` -- one reference replaced, the first in document order;
  `FirstReplaced.expands` says that replacing it by what it stands for does not
  change what the whole stands for.
-/
import ApplyRule.Proofs.ProperItems
import Mathlib.Logic.Relation

namespace ApplyRule

set_option autoImplicit false

/-- What a kind refers to: `none` if it is no reference, and no name inside if it is
a reference that names no set. -/
def Kind.reference? : Kind → Option (Option String)
  | .atRule name params _ => if name = referenceRule then some (referenceName? params) else none
  | _ => none

theorem Kind.reference?_eq_some {kind : Kind} {target : Option String}
    (refers : kind.reference? = some target) :
    ∃ params hasBlock, kind = .atRule referenceRule params hasBlock ∧
      target = referenceName? params := by
  cases kind with
  | atRule own params hasBlock =>
      rw [reference?] at refers
      split at refers
      · rename_i same
        cases refers
        exact ⟨params, hasBlock, by rw [same], rfl⟩
      · cases refers
  | _ => cases refers

/-- The names in the references of a forest that are not below a reference. -/
def Forest.targets : Forest Item → List String
  | .nil => []
  | .cons item children rest =>
      match item.kind.reference? with
      | some target => target.toList ++ rest.targets
      | none => children.targets ++ rest.targets

/-- The rule of each set and what it holds. -/
abbrev Sets := String → Option (Item × Forest Item)

/-- One set refers to another. -/
def Sets.Refers (sets : Sets) (name other : String) : Prop :=
  ∃ rule body, sets name = some (rule, body) ∧ other ∈ body.targets ∧ (sets other).isSome = true

/-- What items stand for. -/
inductive Expands (sets : Sets) : Forest Item → Forest Item → Prop where
  | nil : Expands sets .nil .nil
  | keep {item : Item} {children rest inside after : Forest Item}
      (plain : item.kind.reference? = none)
      (below : Expands sets children inside) (later : Expands sets rest after) :
      Expands sets (.cons item children rest) (.cons item inside after)
  /-- A reference to a set gives way to what that set stands for. -/
  | known {item rule : Item} {name : String} {children rest body inside after : Forest Item}
      (refers : item.kind.reference? = some (some name)) (found : sets name = some (rule, body))
      (stands : Expands sets body inside) (later : Expands sets rest after) :
      Expands sets (.cons item children rest) (inside.reindent rule.raws.before ++ after)
  | unknown {item : Item} {name : String} {children rest after : Forest Item}
      (refers : item.kind.reference? = some (some name)) (absent : sets name = none)
      (later : Expands sets rest after) : Expands sets (.cons item children rest) after
  | nameless {item : Item} {children rest after : Forest Item}
      (refers : item.kind.reference? = some none) (later : Expands sets rest after) :
      Expands sets (.cons item children rest) after

variable {sets : Sets}

theorem Expands.unique {items first second : Forest Item} (one : Expands sets items first)
    (other : Expands sets items second) : first = second := by
  induction one generalizing second with
  | nil =>
      cases other
      rfl
  | keep plain below later ihBelow ihLater =>
      cases other with
      | keep plain' below' later' => rw [ihBelow below', ihLater later']
      | known refers | unknown refers | nameless refers => simp [plain] at refers
  | known refers found stands later ihStands ihLater =>
      cases other with
      | keep plain => simp [plain] at refers
      | known refers' found' stands' later' =>
          rw [refers] at refers'
          cases refers'
          rw [found] at found'
          cases found'
          rw [ihStands stands', ihLater later']
      | unknown refers' absent =>
          rw [refers] at refers'
          cases refers'
          rw [found] at absent
          cases absent
      | nameless refers' => simp [refers] at refers'
  | unknown refers absent later ih =>
      cases other with
      | keep plain => simp [plain] at refers
      | known refers' found =>
          rw [refers] at refers'
          cases refers'
          rw [absent] at found
          cases found
      | unknown refers' absent' later' => exact ih later'
      | nameless refers' => simp [refers] at refers'
  | nameless refers later ih =>
      cases other with
      | keep plain => simp [plain] at refers
      | known refers' | unknown refers' => simp [refers] at refers'
      | nameless refers' later' => exact ih later'

/-! ## Items without references -/

/-- No item is a reference. -/
def Forest.Plain (items : Forest Item) : Prop :=
  ∀ item ∈ items.labels, item.kind.reference? = none

namespace Forest

theorem plain_cons {item : Item} {children rest : Forest Item} :
    (Forest.cons item children rest).Plain ↔
      item.kind.reference? = none ∧ children.Plain ∧ rest.Plain := by
  unfold Plain
  simp only [labels, List.mem_cons, List.mem_append]
  constructor
  · intro plain
    exact ⟨plain item (.inl rfl), fun other member => plain other (.inr (.inl member)),
      fun other member => plain other (.inr (.inr member))⟩
  · rintro ⟨own, below, later⟩ other (rfl | inside | after)
    · exact own
    · exact below other inside
    · exact later other after

theorem Plain.targets {items : Forest Item} (plain : items.Plain) : items.targets = [] := by
  induction items with
  | nil => rfl
  | cons item children rest ihc ihr =>
      obtain ⟨own, below, later⟩ := plain_cons.mp plain
      simp [Forest.targets, own, ihc below, ihr later]

theorem Plain.reindent {items : Forest Item} (plain : items.Plain) (outer : String) :
    (items.reindent outer).Plain := by
  induction items generalizing outer with
  | nil => exact plain
  | cons item children rest ihc ihr =>
      obtain ⟨own, below, later⟩ := plain_cons.mp plain
      obtain ⟨other, keeps, eq⟩ := reindent_cons outer item children rest
      rw [eq, plain_cons, keeps]
      exact ⟨own, ihc below _, ihr later _⟩

@[simp] theorem targets_append (first second : Forest Item) :
    (first ++ second).targets = first.targets ++ second.targets := by
  induction first with
  | nil => rfl
  | cons item children rest _ ih =>
      rw [cons_append, targets, targets, ih]
      split <;> rw [List.append_assoc]

end Forest

theorem expands_of_plain {items : Forest Item} (plain : items.Plain) :
    Expands sets items items := by
  induction items with
  | nil => exact .nil
  | cons item children rest ihc ihr =>
      obtain ⟨own, below, later⟩ := Forest.plain_cons.mp plain
      exact .keep own (ihc below) (ihr later)

/-- Items without references stand for themselves, whatever follows them. -/
theorem Expands.of_plain_append {items rest expanded : Forest Item} (plain : items.Plain)
    (stands : Expands sets (items ++ rest) expanded) :
    ∃ after, expanded = items ++ after ∧ Expands sets rest after := by
  induction items generalizing expanded with
  | nil => exact ⟨expanded, rfl, stands⟩
  | cons item children more ihc ihr =>
      obtain ⟨own, below, later⟩ := Forest.plain_cons.mp plain
      rw [Forest.cons_append] at stands
      cases stands with
      | keep _ standsBelow standsLater =>
          obtain ⟨after, eq, standsRest⟩ := ihr later standsLater
          refine ⟨after, ?_, standsRest⟩
          rw [Forest.cons_append, eq, standsBelow.unique (expands_of_plain below)]
      | known refers | unknown refers | nameless refers => simp [own] at refers

/-! ## The first reference -/

/-- What stands in the place of a reference to `target`. -/
inductive Sets.Gives (sets : Sets) : Option String → Forest Item → Prop where
  | known {name : String} {rule : Item} {body inside : Forest Item}
      (found : sets name = some (rule, body)) (stands : Expands sets body inside) :
      Gives sets (some name) (inside.reindent rule.raws.before)
  | unknown {name : String} (absent : sets name = none) : Gives sets (some name) .nil
  | nameless : Gives sets none .nil

theorem Sets.Gives.expands {target : Option String} {given children rest after : Forest Item}
    {item : Item} (gives : sets.Gives target given) (refers : item.kind.reference? = some target)
    (later : Expands sets rest after) :
    Expands sets (.cons item children rest) (given ++ after) := by
  cases gives with
  | known found stands => exact .known refers found stands later
  | unknown absent => exact .unknown refers absent later
  | nameless => exact .nameless refers later

theorem Kind.isAtRule_reference (kind : Kind) :
    kind.isAtRule referenceRule = kind.reference?.isSome := by
  cases kind with
  | atRule name params hasBlock =>
      rw [isAtRule, reference?]
      split <;> simp_all
  | _ => rfl

namespace Forest

variable {id : NodeId} {item : Item} {target : Option String}
  {forest children more changed : Forest Node}

/-- The references in a forest, in document order. -/
def references (forest : Forest Node) : List NodeId :=
  (forest.labels.filter fun node => node.item.kind.isAtRule referenceRule).map Node.id

@[simp] theorem references_append (first second : Forest Node) :
    (first ++ second).references = first.references ++ second.references := by
  simp [references]

theorem references_cons_of_some {node : Node} {rest : Forest Node}
    (refers : node.item.kind.reference? = some target) :
    (Forest.cons node children rest).references =
      node.id :: (children.references ++ rest.references) := by
  simp [references, labels, Kind.isAtRule_reference, refers]

theorem references_cons_of_none {node : Node} {rest : Forest Node}
    (plain : node.item.kind.reference? = none) :
    (Forest.cons node children rest).references = children.references ++ rest.references := by
  simp [references, labels, Kind.isAtRule_reference, plain]

theorem references_eq_nil : forest.references = [] ↔ forest.items.Plain := by
  simp [references, Plain, items, Kind.isAtRule_reference]

/-- In the second forest, the first reference of the first one, which has the
identity `id`, is replaced by the trees `more`. -/
inductive FirstReplaced (id : NodeId) (item : Item) (children more : Forest Node) :
    Forest Node → Forest Node → Prop where
  | here (rest : Forest Node) :
      FirstReplaced id item children more (.cons ⟨id, item⟩ children rest) (more ++ rest)
  | inside {node : Node} {inner changed rest : Forest Node}
      (plain : node.item.kind.reference? = none)
      (first : FirstReplaced id item children more inner changed) :
      FirstReplaced id item children more (.cons node inner rest) (.cons node changed rest)
  | later {node : Node} {inner rest changed : Forest Node}
      (plain : node.item.kind.reference? = none) (none_ : inner.items.Plain)
      (first : FirstReplaced id item children more rest changed) :
      FirstReplaced id item children more (.cons node inner rest) (.cons node inner changed)

/-- Where there are references there is a first one. -/
theorem exists_firstReplaced (some_ : ¬ forest.items.Plain) :
    ∃ id item children target, item.kind.reference? = some target ∧
      ∀ more, ∃ changed, FirstReplaced id item children more forest changed := by
  induction forest with
  | nil => exact absurd (fun _ member => nomatch member) some_
  | cons node inner rest ihc ihr =>
      cases refers : node.item.kind.reference? with
      | some target =>
          exact ⟨node.id, node.item, inner, target, refers, fun more => ⟨_, .here rest⟩⟩
      | none =>
          by_cases none_ : inner.items.Plain
          · have later : ¬ rest.items.Plain := fun plain =>
              some_ (plain_cons.mpr ⟨refers, none_, plain⟩)
            obtain ⟨id, item, children, target, isReference, each⟩ := ihr later
            refine ⟨id, item, children, target, isReference, fun more => ?_⟩
            obtain ⟨changed, first⟩ := each more
            exact ⟨_, .later refers none_ first⟩
          · obtain ⟨id, item, children, target, isReference, each⟩ := ihc none_
            refine ⟨id, item, children, target, isReference, fun more => ?_⟩
            obtain ⟨changed, first⟩ := each more
            exact ⟨_, .inside refers first⟩

namespace FirstReplaced

theorem find? (first : FirstReplaced id item children more forest changed)
    (nodup : forest.ids.Nodup) : forest.find? id = some (item, children) := by
  induction first with
  | here rest => exact find?_cons_self ..
  | inside plain first ih =>
      have found := ih (nodup_parts nodup).2.1
      exact (find?_cons_below nodup (mem_ids_of_find? found)).trans found
  | later plain none_ first ih =>
      have found := ih (nodup_parts nodup).2.2.1
      exact (find?_cons_rest nodup (mem_ids_of_find? found)).trans found

theorem eq_replace (first : FirstReplaced id item children more forest changed)
    (nodup : forest.ids.Nodup) : changed = replace id more forest := by
  induction first with
  | here rest => rw [replace, if_pos rfl]
  | @inside node inner changed rest plain first ih =>
      obtain ⟨⟨notBelow, -⟩, nodupBelow, -, disjoint⟩ := nodup_parts nodup
      have member := mem_ids_of_find? (first.find? nodupBelow)
      have other : node.id ≠ id := fun eq => notBelow (eq ▸ member)
      rw [replace, if_neg other, ih nodupBelow, replace_of_not_mem (disjoint member)]
  | @later node inner rest changed plain none_ first ih =>
      obtain ⟨⟨-, notRest⟩, -, nodupRest, disjoint⟩ := nodup_parts nodup
      have member := mem_ids_of_find? (first.find? nodupRest)
      have other : node.id ≠ id := fun eq => notRest (eq ▸ member)
      rw [replace, if_neg other, ih nodupRest,
        replace_of_not_mem (fun both => disjoint both member)]

/-- The references below the first one go with it, and those after it stay. -/
theorem references (first : FirstReplaced id item children more forest changed)
    (refers : item.kind.reference? = some target) :
    ∃ tail, forest.references = id :: (children.references ++ tail) ∧
      changed.references = more.references ++ tail := by
  induction first with
  | here rest =>
      exact ⟨rest.references, references_cons_of_some refers, references_append more rest⟩
  | @inside node inner changed rest plain first ih =>
      obtain ⟨tail, old, new⟩ := ih
      refine ⟨tail ++ rest.references, ?_, ?_⟩
      · rw [references_cons_of_none plain, old, List.cons_append, List.append_assoc]
      · rw [references_cons_of_none plain, new, List.append_assoc]
  | @later node inner rest changed plain none_ first ih =>
      obtain ⟨tail, old, new⟩ := ih
      refine ⟨tail, ?_, ?_⟩
      · rw [references_cons_of_none plain, references_eq_nil.mpr none_, old, List.nil_append]
      · rw [references_cons_of_none plain, references_eq_nil.mpr none_, new, List.nil_append]

theorem targets (first : FirstReplaced id item children more forest changed)
    (refers : item.kind.reference? = some target) :
    ∃ tail, forest.items.targets = target.toList ++ tail ∧
      changed.items.targets = more.items.targets ++ tail := by
  induction first with
  | here rest =>
      refine ⟨rest.items.targets, ?_, by rw [items_append, targets_append]⟩
      rw [items_cons, Forest.targets, refers]
  | @inside node inner changed rest plain first ih =>
      obtain ⟨tail, old, new⟩ := ih
      refine ⟨tail ++ rest.items.targets, ?_, ?_⟩
      · rw [items_cons, Forest.targets, plain, old, List.append_assoc]
      · rw [items_cons, Forest.targets, plain, new, List.append_assoc]
  | @later node inner rest changed plain none_ first ih =>
      obtain ⟨tail, old, new⟩ := ih
      refine ⟨tail, ?_, ?_⟩
      · rw [items_cons, Forest.targets, plain, none_.targets, old, List.nil_append]
      · rw [items_cons, Forest.targets, plain, none_.targets, new, List.nil_append]

/-- Replacing the first reference by what it stands for keeps what the whole stands
for. -/
theorem expands {expanded : Forest Item}
    (first : FirstReplaced id item children more forest changed)
    (refers : item.kind.reference? = some target) (plain : more.items.Plain)
    (gives : sets.Gives target more.items) (stands : Expands sets changed.items expanded) :
    Expands sets forest.items expanded := by
  induction first generalizing expanded with
  | here rest =>
      rw [items_append] at stands
      obtain ⟨after, rfl, later⟩ := stands.of_plain_append plain
      exact gives.expands refers later
  | inside own first ih =>
      cases stands with
      | keep _ below later => exact .keep own (ih below) later
      | known other | unknown other | nameless other => simp [own] at other
  | later own none_ first ih =>
      cases stands with
      | keep _ below rest => exact .keep own below (ih rest)
      | known other | unknown other | nameless other => simp [own] at other

end FirstReplaced

end Forest

end ApplyRule
