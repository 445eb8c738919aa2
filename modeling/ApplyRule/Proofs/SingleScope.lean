/-
# ApplyRule.Proofs.SingleScope -- a scope at the front of a document

The sets of a document are defined in a scope at its front, and nothing else in it defines
any: every other place is calm (`Place.Calm`).  While the definitions are taken out one by
one, the tree under the root keeps this shape (`Forest.Around`): the scope with what is
left in it, and what follows it.  The scope may go with its last child.
-/
import ApplyRule.Proofs.Counting
import ApplyRule.Proofs.Idempotence

namespace ApplyRule

set_option autoImplicit false

open Document

/-! ## Calm places -/

/-- Whether nothing is to be done in a place: no set is defined there where sets are
defined, or at the top. -/
def Place.Calm (place : Place) : Prop :=
  place.Topmost ∨ place.Accepted →
    place.kind.definition? = none ∧ place.kind.ruleName? = none

namespace Forest

variable {forest front back inner rest children below more : Forest Node} {place : Place}
  {scope id : NodeId} {item own : Item}

theorem calm_of_quiet {parent : Kind} {path : List Kind} (quiet : forest.items.quiet parent = true)
    (member : place ∈ forest.places (parent :: path)) : place.Calm := by
  induction forest generalizing parent path with
  | nil => cases member
  | cons node children rest ihc ihr =>
      have parts : ((!(parent.isRoot || decide (parent = .rule rootSelector)) ||
            node.item.kind.definition?.isNone && node.item.kind.ruleName?.isNone) = true ∧
          children.items.quiet node.item.kind = true) ∧ rest.items.quiet parent = true := by
        rw [← Bool.and_eq_true, ← Bool.and_eq_true]
        exact quiet
      rcases List.mem_cons.mp member with rfl | deeper
      · intro stands
        have here : (parent.isRoot || decide (parent = .rule rootSelector)) = true := by
          rcases stands with top | accepted
          · cases Option.some.inj top
            rfl
          · cases Option.some.inj accepted
            rfl
        have none_ : node.item.kind.definition? = none ∧ node.item.kind.ruleName? = none := by
          simpa [here] using parts.1.1
        exact none_
      · rcases List.mem_append.mp deeper with inside | outside
        · exact ihc parts.1.2 inside
        · exact ihr parts.2 outside

/-- The nodes of a quiet forest stand in calm places, wherever the forest stands. -/
theorem calm_visits {parent : Kind} {path : List Kind} (p : Kind → Bool) (nodup : below.ids.Nodup)
    (among : ∀ place ∈ forest.places (parent :: path), place ∈ below.places [.root])
    (quiet : forest.items.quiet parent = true) :
    ∀ place ∈ below.places [.root],
      place.id ∈ (forest.placesOf p (parent :: path)).map Place.id → place.Calm := by
  intro place member waits
  obtain ⟨same, visited, eq⟩ := List.mem_map.mp waits
  have inside := mem_places_of_mem_placesOf visited
  obtain rfl := eq_of_mem_places nodup (among same inside) member eq
  exact calm_of_quiet quiet inside

/-! ## A scope and what follows it -/

/-- The forest under the root: the scope with `children`, and `rest` after it.  Without
children the scope may be gone. -/
def Around (scope : NodeId) (rest children below : Forest Node) : Prop :=
  (∃ item, item.kind = .rule rootSelector ∧ below = .cons ⟨scope, item⟩ children rest) ∨
    children = .nil ∧ below.places [.root] = rest.places [.root]

theorem Around.mem_places (around : Around scope rest children below) :
    (∀ place ∈ children.places [.rule rootSelector, .root], place ∈ below.places [.root]) ∧
      ∀ place ∈ rest.places [.root], place ∈ below.places [.root] := by
  rcases around with ⟨item, kind, rfl⟩ | ⟨rfl, same⟩
  · simp only [places, kind, List.mem_cons, List.mem_append]
    exact ⟨fun place member => .inr (.inl member), fun place member => .inr (.inr member)⟩
  · refine ⟨fun place member => ?_, fun place member => same ▸ member⟩
    cases member

/-- The nodes of a class under the root: perhaps the scope, which is calm, then those in
it, and then the others. -/
theorem Around.placesOf (around : Around scope rest children below) (p : Kind → Bool) :
    ∃ first, below.placesOf p [.root] = first ++
        (children.placesOf p [.rule rootSelector, .root] ++ rest.placesOf p [.root]) ∧
      ∀ place ∈ first, place ∈ below.places [.root] ∧ place.Calm := by
  rcases around with ⟨item, isScope, rfl⟩ | ⟨rfl, same⟩
  · refine ⟨if p item.kind then [.ofNode [.root] ⟨scope, item⟩] else [], ?_, ?_⟩
    · rw [placesOf_cons, isScope]
    · intro place member
      split at member
      · cases List.mem_singleton.mp member
        have unnamed : (Kind.rule rootSelector).ruleName? = none := by decide +kernel
        refine ⟨List.mem_cons_self, fun _ => ?_⟩
        rw [Place.ofNode, isScope]
        exact ⟨rfl, unnamed⟩
      · cases member
  · refine ⟨[], ?_, fun place member => absurd member List.not_mem_nil⟩
    rw [Forest.placesOf, same]
    rfl

theorem Around.mem_ids (around : Around scope rest children below)
    (member : place ∈ below.places [.root]) :
    place.id = scope ∨ place.id ∈ children.ids ∨ place.id ∈ rest.ids := by
  rcases around with ⟨item, -, rfl⟩ | ⟨-, same⟩
  · simpa using mem_ids_of_mem_places member
  · exact .inr (.inr (mem_ids_of_mem_places (same ▸ member)))

/-- A scope that holds a child is there. -/
theorem Around.exists_scope
    (around : Around scope rest (front ++ .cons ⟨id, own⟩ inner back) below) :
    ∃ item, item.kind = .rule rootSelector ∧
      below = .cons ⟨scope, item⟩ (front ++ .cons ⟨id, own⟩ inner back) rest := by
  rcases around with there | ⟨none_, -⟩
  · exact there
  · cases front <;> cases none_

/-- A child of the scope stands where sets are defined. -/
theorem Around.mem_child
    (around : Around scope rest (front ++ .cons ⟨id, own⟩ inner back) below) :
    Place.ofNode [.rule rootSelector, .root] ⟨id, own⟩ ∈ below.places [.root] :=
  around.mem_places.1 _ (by simp [places])

/-- What is below a child that was taken out is gone. -/
theorem Around.gone {left : Forest Node} (nodup : below.ids.Nodup)
    (around : Around scope rest (front ++ .cons ⟨id, own⟩ inner back) below)
    (after : Around scope rest (front ++ back) left) (member : place ∈ left.places [.root]) :
    place.id ∉ inner.ids := by
  obtain ⟨item, -, rfl⟩ := around.exists_scope
  obtain ⟨⟨notScope, -⟩, nodupChildren, -, apartRest⟩ := nodup_parts nodup
  rw [ids_append, ids_cons] at nodupChildren
  obtain ⟨-, nodupChild, apartFront⟩ := List.nodup_append'.mp nodupChildren
  obtain ⟨-, nodupChild⟩ := List.nodup_cons.mp nodupChild
  obtain ⟨-, -, apartBack⟩ := List.nodup_append'.mp nodupChild
  intro inside
  have among : place.id ∈ (front ++ .cons ⟨id, own⟩ inner back).ids := by simp [inside]
  rcases after.mem_ids member with isScope | inChildren | inRest
  · exact notScope (isScope ▸ among)
  · rw [ids_append, List.mem_append] at inChildren
    rcases inChildren with inFront | inBack
    · exact apartFront inFront (by simp [inside])
    · exact apartBack inside inBack
  · exact apartRest among inRest

/-- When the scope is put in order it is still there, or gone with its last child. -/
theorem around_settled (isScope : item.kind = .rule rootSelector) (children left : Forest Node) :
    Around scope rest left
      (settled scope item left (.cons ⟨scope, item⟩ children rest)) := by
  unfold settled
  split
  · rename_i none_
    have empty : left = .nil := by
      cases left with
      | nil => rfl
      | cons node inner others => simp [roots] at none_
    refine .inr ⟨empty, ?_⟩
    rw [places_without, replace, if_pos rfl, nil_append]
  · rename_i last _
    refine .inl ⟨closed last.item item, by rw [kind_closed, isScope], ?_⟩
    rw [replace, if_pos rfl]
    rfl

/-- A tree stands in one place among its siblings. -/
theorem split_unique {front' inner' back' : Forest Node} {own' : Item}
    (nodup : (front ++ .cons ⟨id, own⟩ inner back).ids.Nodup)
    (same : front' ++ .cons ⟨id, own'⟩ inner' back' = front ++ .cons ⟨id, own⟩ inner back) :
    front' = front ∧ own' = own ∧ inner' = inner ∧ back' = back := by
  induction front generalizing front' with
  | nil =>
      cases front' with
      | nil =>
          cases same
          exact ⟨rfl, rfl, rfl, rfl⟩
      | cons node below others =>
          rw [nil_append, cons_append, cons.injEq] at same
          obtain ⟨-, -, rfl⟩ := same
          rw [nil_append, ids_cons, List.nodup_cons] at nodup
          exact absurd (by simp) nodup.1
  | cons node below others _ ih =>
      cases front' with
      | nil =>
          cases same
          rw [cons_append, ids_cons, List.nodup_cons] at nodup
          exact absurd (by simp) nodup.1
      | cons first deeper more =>
          rw [cons_append, cons_append, cons.injEq] at same
          obtain ⟨rfl, rfl, same⟩ := same
          rw [cons_append, ids_cons, List.nodup_cons, List.nodup_append'] at nodup
          obtain ⟨rfl, rest⟩ := ih nodup.2.2.1 same
          exact ⟨rfl, rest⟩

/-- A child stands in the one scope, in one place. -/
theorem child_unique {other : NodeId} {item' : Item} {front' inner' back' : Forest Node}
    {own' : Item}
    (nodup : (Forest.cons ⟨scope, item⟩ (front ++ .cons ⟨id, own⟩ inner back) rest).ids.Nodup)
    (found : (Forest.cons ⟨scope, item⟩ (front ++ .cons ⟨id, own⟩ inner back) rest).find? other =
      some (item', front' ++ .cons ⟨id, own'⟩ inner' back')) :
    other = scope ∧ item' = item ∧ front' = front ∧ own' = own ∧ inner' = inner ∧
      back' = back := by
  obtain ⟨-, nodupChildren, -, disjoint⟩ := nodup_parts nodup
  have child : id ∈ (front ++ .cons ⟨id, own⟩ inner back).tops := by simp
  have also : id ∈ (front' ++ .cons ⟨id, own'⟩ inner' back').tops := by simp
  rw [find?] at found
  split at found
  · rename_i here
    obtain ⟨rfl, same⟩ := Prod.mk.inj (Option.some.inj found)
    exact ⟨here.symm, rfl, split_unique nodupChildren same.symm⟩
  · rcases Option.or_eq_some_iff.mp found with inside | ⟨-, outside⟩
    · exact absurd child (not_mem_tops_below nodupChildren inside (mem_ids_of_mem_tops also))
    · exact absurd (mem_ids_below outside (mem_ids_of_mem_tops also))
        (disjoint (mem_ids_of_mem_tops child))

end Forest

/-! ## What the scope has already -/

theorem writtenName_inj {name other : String} (same : writtenName name = writtenName other) :
    name = other := by
  have lists := congrArg String.toList same
  simp only [writtenName, String.toList_append, List.append_cancel_left_eq] at lists
  exact String.toList_inj.mp lists

theorem Kind.agrees_rule {kind : Kind} {name : String} :
    kind.agrees (.rule (writtenName name)) = true ↔ kind = .rule (writtenName name) := by
  cases kind <;> simp [Kind.agrees]

theorem any_agrees {kinds : List Kind} {name : String} :
    kinds.any (·.agrees (.rule (writtenName name))) = true ↔
      .rule (writtenName name) ∈ kinds := by
  simp [Kind.agrees_rule]

theorem Forest.kinds_eq (forest : Forest Node) :
    forest.kinds = forest.items.roots.map Item.kind := by
  rw [kinds, items, roots_map, List.map_map]
  rfl

namespace RulesOf

variable {items : Forest Item} {list : List Definition}

theorem mem_kinds (rules : RulesOf items list) {name : String} :
    .rule (writtenName name) ∈ items.roots.map Item.kind ↔ name ∈ list.map Definition.name := by
  induction rules with
  | nil => simp [Forest.roots]
  | cons isRule _ _ _ _ ih =>
      rw [Forest.roots, List.map_cons, List.mem_cons, ih, List.map_cons, List.mem_cons, isRule,
        Kind.rule.injEq]
      exact or_congr_left ⟨writtenName_inj, fun same => same ▸ rfl⟩

/-- Swallowed rules are put where no rule of their name is. -/
theorem unmatched (rules : RulesOf items list)
    (swallowed : ∀ definition ∈ list, definition.swallowed = true) {kinds : List Kind}
    {present : List String}
    (known : ∀ name, .rule (writtenName name) ∈ kinds ↔ name ∈ present) :
    RulesOf (items.unmatched kinds) (Definition.kept present list) := by
  induction rules generalizing kinds present with
  | nil => exact .nil
  | @cons item children rest first more isRule named quiet body _ ih =>
      have later : ∀ definition ∈ more, definition.swallowed = true := fun definition member =>
        swallowed definition (List.mem_cons_of_mem _ member)
      have same : kinds.any (·.agrees item.kind) = decide (first.name ∈ present) := by
        rw [Bool.eq_iff_iff, decide_eq_true_eq, isRule, any_agrees, known]
      rw [Forest.unmatched, Definition.kept, swallowed first List.mem_cons_self, Bool.true_and,
        same]
      split
      · exact ih later known
      · refine .cons isRule named quiet body (ih later fun name => ?_)
        rw [List.mem_cons, List.mem_cons, known, isRule, Kind.rule.injEq]
        exact or_congr_left ⟨writtenName_inj, fun same => same ▸ rfl⟩

theorem mem_forest_kinds {forest : Forest Node} (rules : RulesOf forest.items list)
    {name : String} : .rule (writtenName name) ∈ forest.kinds ↔ name ∈ list.map Definition.name := by
  rw [← rules.mem_kinds, Forest.kinds_eq]

theorem append_forest {front back : Forest Node} {more : List Definition}
    (rules : RulesOf front.items list) (later : RulesOf back.items more) :
    RulesOf (front ++ back).items (list ++ more) := by
  rw [Forest.items_append]
  exact rules.append later

theorem isRule_of_mem (rules : RulesOf items list) {item : Item} (member : item ∈ items.roots) :
    item.kind.isRule = true := by
  induction rules with
  | nil => cases member
  | cons isRule _ _ _ _ ih =>
      rcases List.mem_cons.mp member with rfl | later
      · rw [isRule]
        rfl
      · exact ih later

/-- There is no comment among rules. -/
theorem uncommented {forest : Forest Node} (rules : RulesOf forest.items list) :
    forest.uncommented = forest := by
  rcases forest.eq_nil_or_append_tree with rfl | ⟨front, last, inner, rfl⟩
  · rfl
  · have isRule : last.item.kind.isRule = true := rules.isRule_of_mem (by
      simp [Forest.items, Forest.tree, Forest.roots])
    rw [Forest.uncommented_append_tree, if_neg]
    intro isComment
    cases shape : last.item.kind with
    | rule selector => rw [shape] at isComment; cases isComment
    | _ => rw [shape] at isRule; cases isRule

end RulesOf

namespace Defines

variable {swallowed : Bool} {items : Forest Item} {list : List Definition}

/-- All definitions in a value are swallowed. -/
theorem swallowed_of_mem (defines : Defines swallowed items list) (inValue : swallowed = true) :
    ∀ definition ∈ list, definition.swallowed = true := by
  induction defines with
  | nil => nofun
  | rule _ _ _ _ ih =>
      rintro definition (_ | ⟨_, later⟩)
      · exact inValue
      · exact ih inValue definition later
  | declaration _ _ _ _ _ _ _ ihFollowing ihMore =>
      intro definition member
      rcases List.mem_cons.mp member with rfl | later
      · exact inValue
      · rcases List.mem_append.mp later with following | more
        · exact ihFollowing rfl definition following
        · exact ihMore inValue definition more

theorem mem_kinds (defines : Defines swallowed items list) (direct : swallowed = false)
    {name : String} :
    .rule (writtenName name) ∈ items.roots.map Item.kind ↔
      name ∈ Definition.directNames list := by
  induction defines with
  | nil => simp [Forest.roots, Definition.directNames, Definition.rules]
  | @rule swallowed item children rest own more isRule _ _ _ ih =>
      subst direct
      rw [Forest.roots, List.map_cons, List.mem_cons, ih rfl, Definition.directNames_rule,
        List.mem_cons, isRule, Kind.rule.injEq]
      exact or_congr_left ⟨writtenName_inj, fun same => same ▸ rfl⟩
  | @declaration swallowed item rest after own value split body following more isDefinition _ _ _
      inValue _ _ _ ih =>
      obtain ⟨property, kind⟩ := Kind.eq_declaration isDefinition
      have other : .rule (writtenName name) ≠ item.kind := by simp [kind]
      rw [Forest.roots, List.map_cons, List.mem_cons, ih direct,
        Definition.directNames_declaration rfl (inValue.swallowed_of_mem rfl)]
      exact or_iff_right other

end Defines

end ApplyRule
