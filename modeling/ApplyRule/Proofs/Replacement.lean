/-
# ApplyRule.Proofs.Replacement -- changes inside a forest

Putting trees next to a node or below it and changing a whole tree are changes in the
place of that node (`Forest.Local`).  Where every identity stands once, they and dropping
a node are one change: other trees in the place of one (`prune_eq_replace`,
`Local.eq_replace`).  What that change does is said once:

* `labels_replace` -- all other nodes stay, in their order;
* `tops_replace_of_mem`, `tops_replace_of_not_mem` -- the trees themselves;
* `find?_replace` -- a node that stays keeps its item, and the same change is made
  below it.

`update` changes one item, and `number` gives out identities that are new.
-/
import ApplyRule.Proofs.Identity

namespace ApplyRule

set_option autoImplicit false

namespace Forest

variable {forest children more : Forest Node} {id : NodeId} {item : Item}

/-! ## Other trees in a node's place -/

/-- A change that only puts other trees in the place of one node. -/
structure Local (id : NodeId) (change : Forest Node → Forest Node)
    (new : Node → Forest Node → Forest Node) : Prop where
  empty : change .nil = .nil
  step : ∀ node below rest, change (.cons node below rest) =
    if node.id = id then new node below ++ rest else .cons node (change below) (change rest)

theorem local_replace (id : NodeId) (more : Forest Node) :
    Local id (replace id more) fun _ _ => more :=
  ⟨rfl, fun _ _ _ => rfl⟩

theorem local_insertBefore (id : NodeId) (more : Forest Node) :
    Local id (insertBefore id more) fun node below => more ++ .tree node below :=
  ⟨rfl, fun node below rest => by rw [insertBefore, append_assoc]; rfl⟩

theorem local_insertAfter (id : NodeId) (more : Forest Node) :
    Local id (insertAfter id more) fun node below => .cons node below more :=
  ⟨rfl, fun _ _ _ => rfl⟩

theorem local_adopt (id : NodeId) (more : Forest Node) :
    Local id (adopt id more) fun node below => .tree node (below ++ more) :=
  ⟨rfl, fun _ _ _ => rfl⟩

theorem local_updateTree (id : NodeId) (change : Item → Item) :
    Local id (·.updateTree id change) fun node below =>
      (Forest.tree node below).map fun node => { node with item := change node.item } :=
  ⟨rfl, fun _ _ _ => rfl⟩

namespace Local

variable {change : Forest Node → Forest Node} {new : Node → Forest Node → Forest Node}
  {first second : Forest Node}

theorem of_not_mem (acts : Local id change new) (absent : id ∉ forest.ids) :
    change forest = forest := by
  induction forest with
  | nil => exact acts.empty
  | cons node below rest ihc ihr =>
      simp only [ids_cons, List.mem_cons, List.mem_append, not_or] at absent
      rw [acts.step, if_neg (fun eq => absent.1 eq.symm), ihc absent.2.1, ihr absent.2.2]

theorem append_left (acts : Local id change new) (absent : id ∉ second.ids) :
    change (first ++ second) = change first ++ second := by
  induction first with
  | nil => rw [nil_append, acts.of_not_mem absent, acts.empty, nil_append]
  | cons node below rest _ ih =>
      rw [cons_append, acts.step, acts.step]
      split
      · rw [append_assoc]
      · rw [ih, cons_append]

theorem append_right (acts : Local id change new) (absent : id ∉ first.ids) :
    change (first ++ second) = first ++ change second := by
  induction first with
  | nil => rfl
  | cons node below rest _ ih =>
      simp only [ids_cons, List.mem_cons, List.mem_append, not_or] at absent
      rw [cons_append, acts.step, if_neg (fun eq => absent.1 eq.symm), acts.of_not_mem absent.2.1,
        ih absent.2.2, cons_append]

/-- What was put in a node's place, with that node among it, is changed there. -/
theorem replace (acts : Local id change new) (nodup : forest.ids.Nodup) (more : Forest Node) :
    change (Forest.replace id more forest) = Forest.replace id (change more) forest := by
  induction forest with
  | nil => exact acts.empty
  | cons node below rest ihc ihr =>
      obtain ⟨⟨-, notRest⟩, nodupBelow, nodupRest, -⟩ := nodup_parts nodup
      by_cases here : node.id = id
      · rw [Forest.replace, if_pos here, Forest.replace, if_pos here,
          acts.append_left (here ▸ notRest)]
      · rw [Forest.replace, if_neg here, Forest.replace, if_neg here, acts.step, if_neg here,
          ihc nodupBelow, ihr nodupRest]

end Local

theorem replace_of_not_mem (absent : id ∉ forest.ids) : replace id more forest = forest :=
  (local_replace id more).of_not_mem absent

/-- The nodes of the new trees stand where the node and those below it stood. -/
theorem labels_replace (nodup : forest.ids.Nodup)
    (found : forest.find? id = some (item, children)) :
    ∃ before after, forest.labels = before ++ ⟨id, item⟩ :: children.labels ++ after ∧
      ∀ more, (replace id more forest).labels = before ++ more.labels ++ after := by
  induction forest with
  | nil => cases found
  | cons node below rest ihc ihr =>
      obtain ⟨-, nodupBelow, nodupRest, disjoint⟩ := nodup_parts nodup
      rw [find?] at found
      split at found
      · rename_i here
        cases found
        refine ⟨[], rest.labels, by simp [labels, ← here], fun more => ?_⟩
        rw [replace, if_pos here, labels_append, List.nil_append]
      · rename_i other
        rcases Option.or_eq_some_iff.mp found with inside | ⟨-, outside⟩
        · obtain ⟨before, after, old, new⟩ := ihc nodupBelow inside
          refine ⟨node :: before, after ++ rest.labels, by simp [labels, old], fun more => ?_⟩
          rw [replace, if_neg other, replace_of_not_mem (disjoint (mem_ids_of_find? inside))]
          simp [labels, new]
        · obtain ⟨before, after, old, new⟩ := ihr nodupRest outside
          refine ⟨node :: (below.labels ++ before), after, by simp [labels, old], fun more => ?_⟩
          have absent : id ∉ below.ids := fun both => disjoint both (mem_ids_of_find? outside)
          rw [replace, if_neg other, replace_of_not_mem absent]
          simp [labels, new]

theorem mem_labels_of_mem_replace {node : Node}
    (member : node ∈ (replace id more forest).labels) :
    node ∈ forest.labels ∨ node ∈ more.labels := by
  induction forest with
  | nil => cases member
  | cons first below rest ihc ihr =>
      rw [replace] at member
      split at member
      · rcases List.mem_append.mp (labels_append .. ▸ member) with new | later
        · exact .inr new
        · exact .inl (by simp [labels, later])
      · rcases List.mem_cons.mp member with rfl | deeper
        · exact .inl (by simp [labels])
        · rcases List.mem_append.mp deeper with inside | outside
          · exact (ihc inside).imp (fun old => by simp [labels, old]) fun new => new
          · exact (ihr outside).imp (fun old => by simp [labels, old]) fun new => new

theorem ids_replace (more : Forest Node) (nodup : forest.ids.Nodup)
    (found : forest.find? id = some (item, children)) :
    ∃ before after, forest.ids = before ++ (id :: children.ids) ++ after ∧
      (replace id more forest).ids = before ++ more.ids ++ after := by
  obtain ⟨before, after, old, new⟩ := labels_replace nodup found
  exact ⟨before.map Node.id, after.map Node.id, by simp [ids, old], by simp [ids, new]⟩

theorem mem_ids_replace (nodup : forest.ids.Nodup)
    (found : forest.find? id = some (item, children)) {other : NodeId} :
    other ∈ (replace id more forest).ids ↔
      other ∈ more.ids ∨ other ∈ forest.ids ∧ other ∉ id :: children.ids := by
  obtain ⟨before, after, oldIds, newIds⟩ := ids_replace more nodup found
  rw [oldIds] at nodup
  obtain ⟨front, -, frontAfter⟩ := List.nodup_append'.mp nodup
  obtain ⟨-, -, frontMiddle⟩ := List.nodup_append'.mp front
  rw [newIds, oldIds]
  constructor
  · intro member
    rcases List.mem_append.mp member with first | last
    · rcases List.mem_append.mp first with lead | middle
      · exact .inr ⟨by simp only [List.mem_append, lead, true_or], frontMiddle lead⟩
      · exact .inl middle
    · refine .inr ⟨List.mem_append_right _ last, fun middle => ?_⟩
      exact frontAfter (List.mem_append_right _ middle) last
  · rintro (middle | ⟨member, outside⟩)
    · exact List.mem_append_left _ (List.mem_append_right _ middle)
    · rcases List.mem_append.mp member with first | last
      · exact List.mem_append_left _ (List.mem_append_left _
          ((List.mem_append.mp first).resolve_right outside))
      · exact List.mem_append_right _ last

theorem nodup_replace (nodup : forest.ids.Nodup)
    (found : forest.find? id = some (item, children)) (moreNodup : more.ids.Nodup)
    (apart : ∀ other ∈ more.ids, other ∈ forest.ids → other ∈ id :: children.ids) :
    (replace id more forest).ids.Nodup := by
  obtain ⟨before, after, oldIds, newIds⟩ := ids_replace more nodup found
  rw [oldIds] at nodup
  obtain ⟨front, afterNodup, frontAfter⟩ := List.nodup_append'.mp nodup
  obtain ⟨beforeNodup, -, frontMiddle⟩ := List.nodup_append'.mp front
  rw [newIds]
  refine List.nodup_append'.mpr ⟨List.nodup_append'.mpr ⟨beforeNodup, moreNodup, ?_⟩,
    afterNodup, ?_⟩
  · intro other lead middle
    refine frontMiddle lead (apart other middle ?_)
    rw [oldIds]
    exact List.mem_append_left _ (List.mem_append_left _ lead)
  · intro other first last
    rcases List.mem_append.mp first with lead | middle
    · exact frontAfter (List.mem_append_left _ lead) last
    · refine frontAfter (List.mem_append_right _ (apart other middle ?_)) last
      rw [oldIds]
      exact List.mem_append_right _ last

theorem tops_replace_of_not_mem (inside : id ∉ forest.tops) :
    (replace id more forest).tops = forest.tops := by
  induction forest with
  | nil => rfl
  | cons node below rest _ ih =>
      simp only [tops_cons, List.mem_cons, not_or] at inside
      rw [replace, if_neg (fun eq => inside.1 eq.symm), tops_cons, ih inside.2, tops_cons]

theorem tops_replace_of_mem (nodup : forest.ids.Nodup) (top : id ∈ forest.tops) :
    ∃ before after, forest.tops = before ++ id :: after ∧
      ∀ more, (replace id more forest).tops = before ++ more.tops ++ after := by
  induction forest with
  | nil => cases top
  | cons node below rest _ ih =>
      obtain ⟨-, -, nodupRest, disjoint⟩ := nodup_parts nodup
      by_cases here : node.id = id
      · exact ⟨[], rest.tops, by simp [here], fun more => by simp [replace, here]⟩
      · obtain ⟨before, after, old, new⟩ :=
          ih nodupRest ((List.mem_cons.mp top).resolve_left fun eq => here eq.symm)
        exact ⟨node.id :: before, after, by simp [old], fun more => by simp [replace, here, new]⟩

/-- A node that stays keeps its item, and the trees are replaced below it. -/
theorem find?_replace (nodup : forest.ids.Nodup)
    (found : forest.find? id = some (item, children)) {other : NodeId}
    (outside : other ∉ id :: children.ids) (new : other ∉ more.ids) :
    (replace id more forest).find? other =
      (forest.find? other).map fun pair => (pair.1, replace id more pair.2) := by
  -- Where the replaced node is not below, nothing changes.
  have same : ∀ {part : Forest Node}, id ∉ part.ids →
      (part.find? other).map (fun pair => (pair.1, replace id more pair.2)) =
        part.find? other := by
    intro part absent
    cases eq : part.find? other with
    | none => rfl
    | some pair =>
        have below : id ∉ pair.2.ids := fun member => absent (mem_ids_below eq member)
        rw [Option.map_some, replace_of_not_mem below]
  induction forest with
  | nil => cases found
  | cons node below rest ihc ihr =>
      obtain ⟨⟨notBelow, notRest⟩, nodupBelow, nodupRest, disjoint⟩ := nodup_parts nodup
      rw [find?] at found
      split at found
      · rename_i here
        cases found
        have otherNode : node.id ≠ other := fun eq =>
          outside (eq ▸ here ▸ List.mem_cons_self)
        have absent : other ∉ children.ids := fun member => outside (List.mem_cons_of_mem _ member)
        rw [replace, if_pos here, find?_append, find?_of_not_mem new, Option.none_or, find?,
          if_neg otherNode, find?_of_not_mem absent, Option.none_or, same (here ▸ notRest)]
      · rename_i notHere
        rw [replace, if_neg notHere]
        by_cases otherNode : node.id = other
        · rw [find?, if_pos otherNode, find?, if_pos otherNode, Option.map_some]
        · rw [find?, if_neg otherNode, find?, if_neg otherNode, Option.map_or]
          rcases Option.or_eq_some_iff.mp found with inside | ⟨-, later⟩
          · have absent : id ∉ rest.ids := disjoint (mem_ids_of_find? inside)
            rw [replace_of_not_mem absent, same absent, ihc nodupBelow inside]
          · have absent : id ∉ below.ids := fun both => disjoint both (mem_ids_of_find? later)
            rw [replace_of_not_mem absent, same absent, ihr nodupRest later]

/-! ## Dropping a node, and a node after another -/

theorem prune_eq_replace (nodup : forest.ids.Nodup) :
    forest.prune id = replace id .nil forest := by
  induction forest with
  | nil => rfl
  | cons node below rest ihc ihr =>
      obtain ⟨⟨-, notRest⟩, nodupBelow, nodupRest, -⟩ := nodup_parts nodup
      rw [prune, replace]
      split
      · rename_i here
        rw [ihr nodupRest, replace_of_not_mem (here ▸ notRest), nil_append]
      · rw [ihc nodupBelow, ihr nodupRest]

/-- A change that only puts other trees in the place of one node is a replacement. -/
theorem Local.eq_replace {change : Forest Node → Forest Node}
    {new : Node → Forest Node → Forest Node} (acts : Local id change new)
    (nodup : forest.ids.Nodup) (found : forest.find? id = some (item, children)) :
    change forest = Forest.replace id (new ⟨id, item⟩ children) forest := by
  induction forest with
  | nil => cases found
  | cons node below rest ihc ihr =>
      obtain ⟨-, nodupBelow, nodupRest, disjoint⟩ := nodup_parts nodup
      rw [find?] at found
      rw [acts.step, Forest.replace]
      split at found
      · rename_i here
        cases found
        rw [if_pos here, if_pos here, ← here]
      · rename_i other
        rw [if_neg other, if_neg other]
        rcases Option.or_eq_some_iff.mp found with inside | ⟨-, outside⟩
        · have absent := disjoint (mem_ids_of_find? inside)
          rw [ihc nodupBelow inside, acts.of_not_mem absent, replace_of_not_mem absent]
        · have absent : id ∉ below.ids := fun both => disjoint both (mem_ids_of_find? outside)
          rw [ihr nodupRest outside, acts.of_not_mem absent, replace_of_not_mem absent]

theorem insertAfter_eq_replace (nodup : forest.ids.Nodup)
    (found : forest.find? id = some (item, children)) :
    insertAfter id more forest = replace id (.cons ⟨id, item⟩ children more) forest :=
  (local_insertAfter id more).eq_replace nodup found

theorem insertBefore_eq_replace (nodup : forest.ids.Nodup)
    (found : forest.find? id = some (item, children)) :
    insertBefore id more forest = replace id (more ++ .tree ⟨id, item⟩ children) forest :=
  (local_insertBefore id more).eq_replace nodup found

theorem adopt_eq_replace (nodup : forest.ids.Nodup)
    (found : forest.find? id = some (item, children)) :
    adopt id more forest = replace id (.tree ⟨id, item⟩ (children ++ more)) forest :=
  (local_adopt id more).eq_replace nodup found

/-- Putting trees next to or below a node keeps what was there and adds them. -/
theorem graft (nodup : forest.ids.Nodup) (found : forest.find? id = some (item, children))
    {extra : List NodeId} (perm : more.ids.Perm ((id :: children.ids) ++ extra))
    (extraNodup : extra.Nodup) (apart : ∀ other ∈ extra, other ∉ forest.ids) :
    (replace id more forest).ids.Nodup ∧
      ∀ other ∈ (replace id more forest).ids, other ∈ forest.ids ∨ other ∈ extra := by
  have kept := ids_sublist_of_find? found
  have moreNodup : more.ids.Nodup := by
    rw [perm.nodup_iff]
    exact List.nodup_append'.mpr ⟨kept.nodup nodup, extraNodup,
      fun other first second => apart other second (kept.subset first)⟩
  refine ⟨nodup_replace nodup found moreNodup fun other new old => ?_, fun other member => ?_⟩
  · exact (List.mem_append.mp (perm.mem_iff.mp new)).resolve_right fun added =>
      apart other added old
  · rcases (mem_ids_replace nodup found).mp member with new | ⟨old, -⟩
    · exact (List.mem_append.mp (perm.mem_iff.mp new)).imp_left fun here => kept.subset here
    · exact .inl old

/-! ## Changing an item -/

theorem labels_update (id : NodeId) (change : Item → Item) (forest : Forest Node) :
    (forest.update id change).labels = forest.labels.map fun node =>
      if node.id = id then { node with item := change node.item } else node := by
  induction forest with
  | nil => rfl
  | cons node below rest ihc ihr => simp [update, labels, ihc, ihr]

@[simp] theorem ids_update (id : NodeId) (change : Item → Item) (forest : Forest Node) :
    (forest.update id change).ids = forest.ids := by
  rw [ids, labels_update, List.map_map]
  refine List.map_congr_left fun node _ => ?_
  simp only [Function.comp_apply]
  split <;> rfl

@[simp] theorem tops_update (id : NodeId) (change : Item → Item) (forest : Forest Node) :
    (forest.update id change).tops = forest.tops := by
  induction forest with
  | nil => rfl
  | cons node below rest _ ih =>
      rw [update, tops_cons, tops_cons, ih]
      split <;> rfl

theorem update_of_not_mem {change : Item → Item} (absent : id ∉ forest.ids) :
    forest.update id change = forest := by
  induction forest with
  | nil => rfl
  | cons node below rest ihc ihr =>
      simp only [ids_cons, List.mem_cons, List.mem_append, not_or] at absent
      rw [update, if_neg (fun eq => absent.1 eq.symm), ihc absent.2.1, ihr absent.2.2]

theorem find?_update (id other : NodeId) (change : Item → Item) (forest : Forest Node) :
    (forest.update id change).find? other = (forest.find? other).map fun pair =>
      (if other = id then change pair.1 else pair.1, pair.2.update id change) := by
  induction forest with
  | nil => rfl
  | cons node below rest ihc ihr =>
      have keeps : (if node.id = id then { node with item := change node.item } else node).id =
          node.id := by
        split <;> rfl
      rw [update, find?, find?, keeps]
      by_cases here : node.id = other
      · rw [if_pos here, if_pos here, Option.map_some, ← here]
        split <;> rfl
      · rw [if_neg here, if_neg here, Option.map_or, ihc, ihr]

/-! ## Giving out identities -/

@[simp] theorem items_append (first second : Forest Node) :
    (first ++ second).items = first.items ++ second.items := by
  induction first with
  | nil => rfl
  | cons node below rest _ ih =>
      rw [cons_append, items, map, ← items, ← items, ih]
      rfl

@[simp] theorem items_number (next : Nat) (items : Forest Item) :
    (items.number next).items = items := by
  unfold Forest.items
  induction items generalizing next with
  | nil => rfl
  | cons item children rest ihc ihr => simp [number, map, ihc, ihr]

theorem ids_number (items : Forest Item) (next : Nat) :
    (items.number next).ids = (List.range' next items.size).map NodeId.mk := by
  induction items generalizing next with
  | nil => rfl
  | cons item below rest ihc ihr =>
      have count : below.size + rest.size + 1 = (below.size + rest.size) + 1 := rfl
      rw [number, ids_cons, ihc, ihr, size, count, List.range'_succ, List.map_cons,
        ← List.map_append, List.range'_append_1]

theorem mem_ids_number {items : Forest Item} {next : Nat} {id : NodeId} :
    id ∈ (items.number next).ids ↔ next ≤ id.index ∧ id.index < next + items.size := by
  rw [ids_number, List.mem_map]
  constructor
  · rintro ⟨index, member, rfl⟩
    exact List.mem_range'_1.mp member
  · intro bounds
    exact ⟨id.index, List.mem_range'_1.mpr bounds, rfl⟩

theorem nodup_number (items : Forest Item) (next : Nat) : (items.number next).ids.Nodup := by
  rw [ids_number]
  exact List.Nodup.map (fun _ _ eq => congrArg NodeId.index eq) List.nodup_range'

end Forest

end ApplyRule
