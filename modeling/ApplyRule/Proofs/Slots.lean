/-
# ApplyRule.Proofs.Slots -- the arena of a document

The slot of a node can be read off a forest (`Forest.slot?`).  `slot?_replace` says
what other trees in a node's place do to the slots, and the lemmas about a change of
the forest follow from it: `slot?_apart`, `slot?_adopt` and `slot?_beside` say that
taking a tree out, and putting one below or next to a node, are changes of two slots.
-/
import ApplyRule.Proofs.Arena
import ApplyRule.Proofs.Replacement
import Mathlib.Data.Option.Basic

namespace ApplyRule

set_option autoImplicit false

/-! ## Other nodes in a list -/

/-- The list with other nodes in the place of one. -/
def NodeId.exchange (id : NodeId) (ids list : List NodeId) : List NodeId :=
  list.flatMap fun other => if other = id then ids else [other]

namespace NodeId

variable {id : NodeId} {ids first second list : List NodeId}

@[simp] theorem exchange_append :
    id.exchange ids (first ++ second) = id.exchange ids first ++ id.exchange ids second :=
  List.flatMap_append

theorem exchange_cons (head : NodeId) :
    id.exchange ids (head :: list) = (if head = id then ids else [head]) ++ id.exchange ids list :=
  List.flatMap_cons

theorem exchange_of_not_mem (absent : id ∉ list) : id.exchange ids list = list := by
  induction list with
  | nil => rfl
  | cons head rest ih =>
      rw [List.mem_cons, not_or] at absent
      rw [exchange_cons, if_neg (Ne.symm absent.1), ih absent.2, List.singleton_append]

theorem exchange_self : id.exchange [id] list = list := by
  induction list with
  | nil => rfl
  | cons head rest ih =>
      rw [exchange_cons, ih]
      split
      · rename_i eq
        rw [eq, List.singleton_append]
      · rfl

theorem exchange_nil : id.exchange [] list = list.filter (· ≠ id) := by
  induction list with
  | nil => rfl
  | cons head rest ih => by_cases eq : head = id <;> simp [exchange_cons, eq, ih]

/-- Where a node stands in a list, others are put directly before or after it. -/
theorem exchange_eq_insertIdx (nodup : list.Nodup) (member : id ∈ list) (node : NodeId) :
    ∃ index, list.idxOf? id = some index ∧ index < list.length ∧
      id.exchange [node, id] list = list.insertIdx index node ∧
      id.exchange [id, node] list = list.insertIdx (index + 1) node := by
  induction list with
  | nil => cases member
  | cons head rest ih =>
      obtain ⟨notLater, nodupRest⟩ := List.nodup_cons.mp nodup
      by_cases here : head = id
      · subst here
        refine ⟨0, by simp [List.idxOf?_cons], by simp, ?_, ?_⟩ <;>
          simp [exchange_cons, exchange_of_not_mem notLater]
      · obtain ⟨index, stands, inside, before, after⟩ :=
          ih nodupRest ((List.mem_cons.mp member).resolve_left (Ne.symm here))
        refine ⟨index + 1, by simp [List.idxOf?_cons, here, stands],
          by simpa using inside, ?_, ?_⟩ <;>
          simp [exchange_cons, here, before, after]

end NodeId

/-- The slot with other nodes in the place of one of its children. -/
def Slot.exchange (id : NodeId) (ids : List NodeId) (slot : Slot) : Slot :=
  { slot with children := id.exchange ids slot.children }

theorem Slot.exchange_of_not_mem {id : NodeId} {ids : List NodeId} {slot : Slot}
    (absent : id ∉ slot.children) : slot.exchange id ids = slot := by
  rw [exchange, NodeId.exchange_of_not_mem absent]

namespace Forest

/-- What is kept of a node of a forest that stands below `above`. -/
def slot? (id : NodeId) (above : Option NodeId) : Forest Node → Option Slot
  | .nil => none
  | .cons node children rest =>
      if node.id = id then some ⟨node.item, above, children.tops⟩
      else (children.slot? id (some node.id)).or (rest.slot? id above)

variable {forest children more first second : Forest Node} {id other : NodeId} {item : Item}
  {above : Option NodeId} {slot : Slot}

@[simp] theorem slot?_append (id : NodeId) (above : Option NodeId) (first second : Forest Node) :
    (first ++ second).slot? id above = (first.slot? id above).or (second.slot? id above) := by
  induction first with
  | nil => rfl
  | cons node children rest _ ih =>
      simp only [cons_append, slot?]
      split
      · rfl
      · rw [ih, Option.or_assoc]

theorem slot?_cons (node : Node) (children rest : Forest Node) :
    (Forest.cons node children rest).slot? id above =
      ((Forest.tree node children).slot? id above).or (rest.slot? id above) :=
  slot?_append id above (.tree node children) rest

/-- A slot holds what is found of the node, and who is above it. -/
theorem slot?_eq (id : NodeId) (above : List Node) (forest : Forest Node) :
    forest.slot? id (above.head?.map Node.id) = (forest.find? id).bind fun pair =>
      (forest.lineage? id above).map fun path =>
        ⟨pair.1, path.head?.map Node.id, pair.2.tops⟩ := by
  induction forest generalizing above with
  | nil => rfl
  | cons node below rest ihc ihr =>
      rw [slot?, find?, lineage?]
      split
      · rfl
      · rw [ihr, ← Option.map_some, ← List.head?_cons (l := above), ihc]
        cases inside : below.find? id with
        | none =>
            have absent := find?_eq_none.mp inside
            rw [lineage?_of_not_mem absent]
            simp
        | some pair =>
            obtain ⟨path, lineage⟩ := exists_lineage? (mem_ids_of_find? inside) (node :: above)
            simp [lineage]

theorem slot?_eq_none (absent : id ∉ forest.ids) (above : Option NodeId) :
    forest.slot? id above = none := by
  induction forest generalizing above with
  | nil => rfl
  | cons node below rest ihc ihr =>
      simp only [ids_cons, List.mem_cons, List.mem_append, not_or] at absent
      rw [slot?, if_neg (fun eq => absent.1 eq.symm), ihc absent.2.1, ihr absent.2.2]
      rfl

theorem mem_ids_of_slot? (stored : forest.slot? id above = some slot) : id ∈ forest.ids := by
  by_contra absent
  rw [slot?_eq_none absent] at stored
  cases stored

theorem slot?_of_find? (found : forest.find? id = some (item, children))
    (above : Option NodeId) :
    ∃ parent, forest.slot? id above = some ⟨item, parent, children.tops⟩ := by
  induction forest generalizing above with
  | nil => cases found
  | cons node below rest ihc ihr =>
      rw [find?] at found
      rw [slot?]
      split at found
      · rename_i here
        cases found
        exact ⟨above, if_pos here⟩
      · rename_i elsewhere
        rw [if_neg elsewhere]
        rcases Option.or_eq_some_iff.mp found with inside | ⟨absent, outside⟩
        · obtain ⟨parent, stored⟩ := ihc inside (some node.id)
          exact ⟨parent, by rw [stored, Option.some_or]⟩
        · obtain ⟨parent, stored⟩ := ihr outside above
          rw [slot?_eq_none (find?_eq_none.mp absent), Option.none_or]
          exact ⟨parent, stored⟩

theorem find?_of_slot? (stored : forest.slot? id above = some slot) :
    ∃ children, forest.find? id = some (slot.item, children) ∧ slot.children = children.tops := by
  obtain ⟨item, children, found⟩ := exists_find? (mem_ids_of_slot? stored)
  obtain ⟨parent, same⟩ := slot?_of_find? found above
  cases stored.symm.trans same
  exact ⟨children, found, rfl⟩

theorem mem_ids_of_mem_children (stored : forest.slot? id above = some slot)
    (child : other ∈ slot.children) : other ∈ forest.ids := by
  obtain ⟨children, found, eq⟩ := find?_of_slot? stored
  exact mem_ids_below found (mem_ids_of_mem_tops (eq ▸ child))

/-- A tree keeps its slots wherever it stands, but for the parent of its top. -/
theorem slot?_within (nodup : forest.ids.Nodup)
    (found : forest.find? id = some (item, children))
    (stored : forest.slot? id above = some slot) (member : other ∈ id :: children.ids) :
    forest.slot? other above = (Forest.tree ⟨id, item⟩ children).slot? other slot.parent := by
  induction forest generalizing above with
  | nil => cases found
  | cons node below rest ihc ihr =>
      obtain ⟨⟨notBelow, notRest⟩, nodupBelow, nodupRest, disjoint⟩ := nodup_parts nodup
      rw [find?] at found
      rw [slot?] at stored
      rw [slot?_cons]
      split at found
      · rename_i here
        cases found
        rw [if_pos here] at stored
        cases stored
        have absent : other ∉ rest.ids := by
          rcases List.mem_cons.mp member with rfl | inside
          · exact here ▸ notRest
          · exact disjoint inside
        rw [slot?_eq_none absent, Option.or_none, ← here]
      · rename_i elsewhere
        rw [if_neg elsewhere] at stored
        rcases Option.or_eq_some_iff.mp found with inside | ⟨absent, outside⟩
        · have within : other ∈ below.ids := (ids_sublist_of_find? inside).subset member
          obtain ⟨_, same⟩ := slot?_of_find? inside (some node.id)
          rw [same, Option.some_or] at stored
          have ne : node.id ≠ other := fun eq => notBelow (eq ▸ within)
          rw [slot?_eq_none (disjoint within), Option.or_none, tree, slot?, if_neg ne, slot?,
            Option.or_none]
          exact ihc nodupBelow inside (same.trans stored)
        · have within : other ∈ rest.ids := (ids_sublist_of_find? outside).subset member
          rw [slot?_eq_none (find?_eq_none.mp absent), Option.none_or] at stored
          have outsideTree : other ∉ (Forest.tree node below).ids := by
            simp only [tree, ids_cons, ids_nil, List.append_nil, List.mem_cons, not_or]
            exact ⟨fun eq => notRest (eq ▸ within), fun both => disjoint both within⟩
          rw [slot?_eq_none outsideTree, Option.none_or]
          exact ihr nodupRest outside stored

/-! ## Other trees in a node's place -/

theorem tops_replace (nodup : forest.ids.Nodup) :
    (replace id more forest).tops = id.exchange more.tops forest.tops := by
  by_cases top : id ∈ forest.tops
  · have distinct := forest.tops_sublist.nodup nodup
    obtain ⟨before, after, old, new⟩ := tops_replace_of_mem nodup top
    rw [old] at distinct
    obtain ⟨-, following, apart⟩ := List.nodup_append'.mp distinct
    rw [new, old, NodeId.exchange_append, NodeId.exchange_cons, if_pos rfl,
      NodeId.exchange_of_not_mem fun both => apart both List.mem_cons_self,
      NodeId.exchange_of_not_mem (List.nodup_cons.mp following).1, List.append_assoc]
  · rw [tops_replace_of_not_mem top, NodeId.exchange_of_not_mem top]

/-- Where the node is not named, nothing is exchanged. -/
theorem slot?_exchange_of_not_mem (absent : id ∉ forest.ids) (ids : List NodeId)
    (above : Option NodeId) :
    (forest.slot? other above).map (Slot.exchange id ids) = forest.slot? other above := by
  cases stored : forest.slot? other above with
  | none => rfl
  | some slot =>
      rw [Option.map_some, Slot.exchange_of_not_mem]
      exact fun child => absent (mem_ids_of_mem_children stored child)

/-- New trees stand where the node stood that they replace. -/
theorem slot?_replace_new (nodup : forest.ids.Nodup)
    (found : forest.find? id = some (item, children))
    (stored : forest.slot? id above = some slot)
    (apart : ∀ other ∈ more.ids, other ∈ forest.ids → other ∈ id :: children.ids)
    (new : other ∈ more.ids) :
    (replace id more forest).slot? other above = more.slot? other slot.parent := by
  induction forest generalizing above with
  | nil => cases found
  | cons node below rest ihc ihr =>
      obtain ⟨⟨notBelow, notRest⟩, nodupBelow, nodupRest, disjoint⟩ := nodup_parts nodup
      rw [find?] at found
      rw [slot?] at stored
      rw [replace]
      split at found
      · rename_i here
        cases found
        rw [if_pos here] at stored
        cases stored
        have absent : other ∉ rest.ids := by
          intro member
          rcases List.mem_cons.mp (apart other new (by simp [member])) with rfl | inside
          · exact notRest (here ▸ member)
          · exact disjoint inside member
        rw [if_pos here, slot?_append, slot?_eq_none absent, Option.or_none]
      · rename_i elsewhere
        rw [if_neg elsewhere] at stored
        rw [if_neg elsewhere, slot?]
        rcases Option.or_eq_some_iff.mp found with inside | ⟨absent, outside⟩
        · have within : other ∈ (Forest.cons node below rest).ids → other ∈ below.ids :=
            fun old => (ids_sublist_of_find? inside).subset (apart other new old)
          obtain ⟨_, same⟩ := slot?_of_find? inside (some node.id)
          rw [same, Option.some_or] at stored
          have ne : node.id ≠ other := fun eq => notBelow (eq ▸ within (by simp [eq]))
          have notLater : other ∉ rest.ids := fun old => disjoint (within (by simp [old])) old
          rw [if_neg ne, replace_of_not_mem (disjoint (mem_ids_of_find? inside)),
            slot?_eq_none notLater, Option.or_none]
          exact ihc nodupBelow inside (same.trans stored)
            fun other new old => apart other new (by simp [old])
        · have within : other ∈ (Forest.cons node below rest).ids → other ∈ rest.ids :=
            fun old => (ids_sublist_of_find? outside).subset (apart other new old)
          have notInside := find?_eq_none.mp absent
          rw [slot?_eq_none notInside, Option.none_or] at stored
          have ne : node.id ≠ other := fun eq => notRest (eq ▸ within (by simp [eq]))
          have notEarlier : other ∉ below.ids := fun old => disjoint old (within (by simp [old]))
          rw [if_neg ne, replace_of_not_mem notInside, slot?_eq_none notEarlier, Option.none_or]
          exact ihr nodupRest outside stored fun other new old => apart other new (by simp [old])

/-- A node that stays has the tops of the new trees for the node they replace. -/
theorem slot?_replace_old (nodup : forest.ids.Nodup)
    (found : forest.find? id = some (item, children)) (stays : other ∉ id :: children.ids)
    (old : other ∉ more.ids) :
    (replace id more forest).slot? other above =
      (forest.slot? other above).map (Slot.exchange id more.tops) := by
  induction forest generalizing above with
  | nil => cases found
  | cons node below rest ihc ihr =>
      obtain ⟨⟨-, notRest⟩, nodupBelow, nodupRest, disjoint⟩ := nodup_parts nodup
      rw [find?] at found
      rw [replace]
      split at found
      · rename_i here
        cases found
        have outside : other ∉ (Forest.tree node children).ids := by
          simpa [tree, here] using stays
        rw [if_pos here, slot?_append, slot?_eq_none old, Option.none_or, slot?_cons,
          slot?_eq_none outside, Option.none_or, slot?_exchange_of_not_mem (here ▸ notRest)]
      · rename_i elsewhere
        rw [if_neg elsewhere, slot?, slot?]
        by_cases same : node.id = other
        · rw [if_pos same, if_pos same, Option.map_some, Slot.exchange, tops_replace nodupBelow]
        · rw [if_neg same, if_neg same, Option.map_or]
          rcases Option.or_eq_some_iff.mp found with inside | ⟨absent, outside⟩
          · have notLater := disjoint (mem_ids_of_find? inside)
            rw [ihc nodupBelow inside, replace_of_not_mem notLater,
              slot?_exchange_of_not_mem notLater]
          · have notInside := find?_eq_none.mp absent
            rw [ihr nodupRest outside, replace_of_not_mem notInside,
              slot?_exchange_of_not_mem notInside]

/-- The slots after other trees were put in a node's place. -/
theorem slot?_replace (nodup : forest.ids.Nodup)
    (found : forest.find? id = some (item, children))
    (stored : forest.slot? id above = some slot)
    (apart : ∀ other ∈ more.ids, other ∈ forest.ids → other ∈ id :: children.ids) :
    (replace id more forest).slot? other above =
      if other ∈ more.ids then more.slot? other slot.parent
      else if other ∈ id :: children.ids then none
      else (forest.slot? other above).map (Slot.exchange id more.tops) := by
  by_cases new : other ∈ more.ids
  · rw [if_pos new, slot?_replace_new nodup found stored apart new]
  · rw [if_neg new]
    by_cases gone : other ∈ id :: children.ids
    · have absent : other ∉ (replace id more forest).ids := fun member =>
        ((mem_ids_replace nodup found).mp member).elim new fun left => left.2 gone
      rw [if_pos gone, slot?_eq_none absent]
    · rw [if_neg gone, slot?_replace_old nodup found gone new]

/-! ## Other items -/

theorem slot?_update (change : Item → Item) :
    (forest.update id change).slot? other above = (forest.slot? other above).map fun slot =>
      if other = id then slot.touch change else slot := by
  induction forest generalizing above with
  | nil => rfl
  | cons node below rest ihc ihr =>
      have keeps : (if node.id = id then { node with item := change node.item } else node).id =
          node.id := by
        split <;> rfl
      rw [update, slot?, slot?, keeps]
      by_cases here : node.id = other
      · rw [if_pos here, if_pos here, Option.map_some, tops_update, ← here]
        split <;> rfl
      · rw [if_neg here, if_neg here, Option.map_or, ihc, ihr]

@[simp] theorem ids_map {change : Item → Item} :
    (forest.map fun node => { node with item := change node.item }).ids = forest.ids := by
  rw [ids, labels_map, List.map_map]
  rfl

@[simp] theorem tops_map {change : Item → Item} :
    (forest.map fun node => { node with item := change node.item }).tops = forest.tops := by
  induction forest with
  | nil => rfl
  | cons node below rest _ ih => rw [map, tops_cons, ih, tops_cons]

theorem slot?_map {change : Item → Item} :
    (forest.map fun node => { node with item := change node.item }).slot? other above =
      (forest.slot? other above).map (Slot.touch change) := by
  induction forest generalizing above with
  | nil => rfl
  | cons node below rest ihc ihr =>
      rw [map, slot?, slot?]
      by_cases here : node.id = other
      · rw [if_pos here, if_pos here, Option.map_some, tops_map, Slot.touch]
      · rw [if_neg here, if_neg here, Option.map_or, ihc, ihr]

theorem ids_tree (node : Node) (children : Forest Node) :
    (Forest.tree node children).ids = node.id :: children.ids := by
  rw [tree, ids_cons, ids_nil, List.append_nil]

theorem mem_ids_tree {node : Node} :
    id ∈ (Forest.tree node children).ids ↔ id ∈ node.id :: children.ids := by
  rw [ids_tree]

theorem updateTree_eq_replace {change : Item → Item} (nodup : forest.ids.Nodup)
    (found : forest.find? id = some (item, children)) :
    forest.updateTree id change = replace id
      ((Forest.tree ⟨id, item⟩ children).map fun node => { node with item := change node.item })
      forest :=
  (local_updateTree id change).eq_replace nodup found

@[simp] theorem ids_updateTree (id : NodeId) (change : Item → Item) (forest : Forest Node) :
    (forest.updateTree id change).ids = forest.ids := by
  induction forest with
  | nil => rfl
  | cons node below rest ihc ihr =>
      rw [updateTree]
      split
      · rw [ids_cons, ids_map, ids_cons]
      · rw [ids_cons, ihc, ihr, ids_cons]

theorem slot?_updateTree {change : Item → Item} (nodup : forest.ids.Nodup)
    (found : forest.find? id = some (item, children)) :
    (forest.updateTree id change).slot? other above = (forest.slot? other above).map fun slot =>
      if other ∈ id :: children.ids then slot.touch change else slot := by
  obtain ⟨parent, stored⟩ := slot?_of_find? found above
  rw [updateTree_eq_replace nodup found, slot?_replace nodup found stored (by
    intro other new _
    rwa [ids_map, ids_tree] at new), ids_map, ids_tree, tops_map]
  by_cases member : other ∈ id :: children.ids
  · simp only [member, if_true]
    rw [slot?_map, slot?_within nodup found stored member]
  · simp only [member, if_false]
    cases forest.slot? other above with
    | none => rfl
    | some slot => simp [Slot.exchange, tree, NodeId.exchange_self]

/-! ## Parents and children -/

theorem parent_of_child (nodup : forest.ids.Nodup)
    (found : forest.find? id = some (item, children)) (child : other ∈ children.tops) :
    ∃ slot, forest.slot? other none = some slot ∧ slot.parent = some id := by
  obtain ⟨_, below, inside⟩ := exists_find? (mem_ids_below found (mem_ids_of_mem_tops child))
  obtain ⟨path, lineage⟩ := lineage?_of_child nodup found child []
  exact ⟨_, (slot?_eq other [] forest).trans (by rw [inside, lineage]; rfl), rfl⟩

theorem child_of_parent (nodup : forest.ids.Nodup)
    (stored : forest.slot? other none = some slot) (parent : slot.parent = some id) :
    ∃ item children, forest.find? id = some (item, children) ∧ other ∈ children.tops := by
  have member := mem_ids_of_slot? stored
  obtain ⟨_, below, inside⟩ := exists_find? member
  obtain ⟨path, lineage⟩ := exists_lineage? member []
  have same := (slot?_eq other [] forest).symm.trans stored
  rw [inside, lineage, Option.bind_some, Option.map_some, Option.some.injEq] at same
  subst same
  obtain ⟨within, eq, -, -, nearest⟩ := held_of_lineage? nodup lineage
  rw [List.append_nil] at eq
  subst eq
  obtain ⟨node, first, named⟩ := Option.map_eq_some_iff.mp parent
  obtain ⟨children, found, child⟩ := nearest node first
  exact ⟨node.item, children, named ▸ found, child⟩

/-- A node's parent is not in the node's own tree. -/
theorem parent_outside (nodup : forest.ids.Nodup)
    (found : forest.find? id = some (item, children))
    (stored : forest.slot? id none = some slot) (parent : slot.parent = some other) :
    other ∉ id :: children.ids := by
  obtain ⟨_, siblings, above, child⟩ := child_of_parent nodup stored parent
  obtain ⟨notBelow, -⟩ := nodup_below nodup found
  have within := mem_ids_of_mem_tops child
  intro member
  rcases List.mem_cons.mp member with rfl | inside
  · exact (nodup_below nodup above).1 within
  · have same := (find?_eq_find? nodup found inside).symm.trans above
    exact notBelow (mem_ids_below same within)

/-- Only the parent's slot names a node among its children. -/
theorem exchange_elsewhere (nodup : forest.ids.Nodup)
    (stored : forest.slot? id none = some slot) (ne : slot.parent ≠ some other)
    (ids : List NodeId) :
    (forest.slot? other none).map (Slot.exchange id ids) = forest.slot? other none := by
  cases held : forest.slot? other none with
  | none => rfl
  | some holder =>
      rw [Option.map_some, Slot.exchange_of_not_mem]
      intro child
      obtain ⟨children, found, eq⟩ := find?_of_slot? held
      obtain ⟨same, storedToo, parent⟩ := parent_of_child nodup found (eq ▸ child)
      cases stored.symm.trans storedToo
      exact ne parent

/-! ## Moving a tree -/

theorem slot?_tree_top (item : Item) (children : Forest Node) :
    (Forest.tree ⟨id, item⟩ children).slot? id above = some ⟨item, above, children.tops⟩ := by
  rw [tree, slot?, if_pos rfl]

theorem slot?_tree_below (item : Item) (children : Forest Node) (ne : other ≠ id) :
    (Forest.tree ⟨id, item⟩ children).slot? other above = children.slot? other (some id) := by
  rw [tree, slot?, if_neg (Ne.symm ne), slot?, Option.or_none]

/-- Taking a tree out of its place changes its parent's slot and its top's. -/
theorem slot?_apart (nodup : forest.ids.Nodup)
    (found : forest.find? id = some (item, children))
    (stored : forest.slot? id none = some slot) :
    (forest.prune id ++ .tree ⟨id, item⟩ children).slot? other none =
      if other = id then some { slot with parent := none }
      else if slot.parent = some other then (forest.slot? other none).map (Slot.exchange id [])
      else forest.slot? other none := by
  obtain ⟨inner, foundToo, held⟩ := find?_of_slot? stored
  cases found.symm.trans foundToo
  rw [slot?_append, prune_eq_replace nodup, slot?_replace nodup found stored (by simp), ids_nil,
    if_neg List.not_mem_nil]
  by_cases same : other = id
  · subst same
    rw [if_pos List.mem_cons_self, if_pos rfl, Option.none_or, slot?_tree_top, ← held]
  · rw [if_neg same]
    by_cases inside : other ∈ id :: children.ids
    · have notParent : slot.parent ≠ some other :=
        fun parent => parent_outside nodup found stored parent inside
      rw [if_pos inside, if_neg notParent, Option.none_or, slot?_within nodup found stored inside,
        slot?_tree_below _ _ same, slot?_tree_below _ _ same]
    · have outside : other ∉ (Forest.tree ⟨id, slot.item⟩ children).ids := by
        rwa [ids_tree]
      rw [if_neg inside, slot?_eq_none outside, Option.or_none, tops_nil]
      split
      · rfl
      · rename_i elsewhere
        exact exchange_elsewhere nodup stored elsewhere []

section Insertion

variable {node anchor parent : NodeId} {below : Forest Node}

/-- Putting a tree below a node changes that node's slot and the top's. -/
theorem slot?_adopt (nodup : forest.ids.Nodup)
    (found : forest.find? parent = some (item, children)) {top : Item}
    (apart : ∀ id ∈ node :: below.ids, id ∉ forest.ids) :
    (adopt parent (.tree ⟨node, top⟩ below) forest).slot? other none =
      if other = node then some ⟨top, some parent, below.tops⟩
      else if other = parent then (forest.slot? other none).map fun slot =>
        { slot with children := slot.children ++ [node] }
      else (forest ++ .tree ⟨node, top⟩ below).slot? other none := by
  obtain ⟨upper, stored⟩ := slot?_of_find? found none
  have here : node ≠ parent := fun eq =>
    apart node List.mem_cons_self (eq ▸ mem_ids_of_find? found)
  have ids : (Forest.tree ⟨parent, item⟩ (children ++ .tree ⟨node, top⟩ below)).ids =
      parent :: (children.ids ++ node :: below.ids) := by
    rw [ids_tree, ids_append, ids_tree]
  have tops : (Forest.tree ⟨parent, item⟩ (children ++ .tree ⟨node, top⟩ below)).tops =
      [parent] := rfl
  rw [adopt_eq_replace nodup found, slot?_replace nodup found stored (by
    intro id new old
    rcases List.mem_cons.mp (ids ▸ new) with rfl | deeper
    · exact List.mem_cons_self
    · rcases List.mem_append.mp deeper with inside | within
      · exact List.mem_cons_of_mem _ inside
      · exact absurd old (apart id within)), ids, tops]
  by_cases isNode : other = node
  · subst isNode
    have absent : other ∉ children.ids := fun member =>
      apart other List.mem_cons_self (mem_ids_below found member)
    rw [if_pos (by simp), if_pos rfl, slot?_tree_below _ _ here, slot?_append,
      slot?_eq_none absent, Option.none_or, slot?_tree_top]
  rw [if_neg isNode]
  by_cases isParent : other = parent
  · subst isParent
    rw [if_pos List.mem_cons_self, if_pos rfl, slot?_tree_top, stored, Option.map_some,
      tops_append]
    rfl
  rw [if_neg isParent]
  by_cases new : other ∈ node :: below.ids
  · have absent : other ∉ children.ids := fun member => apart other new (mem_ids_below found member)
    rw [if_pos (by simp [List.mem_cons.mp new]), slot?_tree_below _ _ isParent, slot?_append,
      slot?_append, slot?_eq_none absent, slot?_eq_none (apart other new), Option.none_or,
      Option.none_or, slot?_tree_below _ _ isNode, slot?_tree_below _ _ isNode]
  have outside : other ∉ (Forest.tree ⟨node, top⟩ below).ids := by rwa [ids_tree]
  rw [slot?_append, slot?_eq_none outside, Option.or_none]
  by_cases inside : other ∈ children.ids
  · rw [if_pos (by simp [inside]), slot?_tree_below _ _ isParent, slot?_append,
      slot?_eq_none outside, Option.or_none,
      slot?_within nodup found stored (List.mem_cons_of_mem _ inside),
      slot?_tree_below _ _ isParent]
  · have fixed : other ∉ parent :: children.ids := by simp [isParent, inside]
    have absent : other ∉ parent :: (children.ids ++ node :: below.ids) := by
      simpa [isParent, inside] using new
    rw [if_neg absent, if_neg fixed]
    cases forest.slot? other none with
    | none => rfl
    | some slot => rw [Option.map_some, Slot.exchange, NodeId.exchange_self]

/-- Putting a tree next to a node changes the slots of that node's parent and of the
top. -/
theorem slot?_beside (nodup : forest.ids.Nodup)
    (found : forest.find? anchor = some (item, children))
    (stored : forest.slot? anchor none = some slot) (above : slot.parent = some parent) {top : Item}
    (apart : ∀ id ∈ node :: below.ids, id ∉ forest.ids)
    (order : more = .tree ⟨node, top⟩ below ++ .tree ⟨anchor, item⟩ children ∨
      more = .tree ⟨anchor, item⟩ children ++ .tree ⟨node, top⟩ below) :
    (replace anchor more forest).slot? other none =
      if other = node then some ⟨top, some parent, below.tops⟩
      else if other = parent then
        (forest.slot? other none).map (Slot.exchange anchor more.tops)
      else (forest ++ .tree ⟨node, top⟩ below).slot? other none := by
  have old : ∀ {id : NodeId}, id ∈ anchor :: children.ids → id ∈ forest.ids :=
    fun member => (ids_sublist_of_find? found).subset member
  have members : ∀ {id : NodeId},
      id ∈ more.ids ↔ id ∈ node :: below.ids ∨ id ∈ anchor :: children.ids := by
    intro id
    rcases order with rfl | rfl <;> rw [ids_append, ids_tree, ids_tree, List.mem_append]
    exact or_comm
  have new : ∀ {id : NodeId} {above : Option NodeId}, id ∈ node :: below.ids →
      more.slot? id above = (Forest.tree ⟨node, top⟩ below).slot? id above := by
    intro id above member
    have absent : id ∉ (Forest.tree ⟨anchor, item⟩ children).ids := fun both =>
      apart id member (old (mem_ids_tree.mp both))
    rcases order with rfl | rfl <;>
      rw [slot?_append, slot?_eq_none absent] <;> simp
  have kept : ∀ {id : NodeId} {above : Option NodeId}, id ∈ anchor :: children.ids →
      more.slot? id above = (Forest.tree ⟨anchor, item⟩ children).slot? id above := by
    intro id above member
    have absent : id ∉ (Forest.tree ⟨node, top⟩ below).ids := fun both =>
      apart id (mem_ids_tree.mp both) (old member)
    rcases order with rfl | rfl <;>
      rw [slot?_append, slot?_eq_none absent] <;> simp
  rw [slot?_replace nodup found stored (by
    exact fun id member known => (members.mp member).resolve_left fun both => apart id both known),
    above]
  by_cases isNode : other = node
  · subst isNode
    rw [if_pos (members.mpr (.inl List.mem_cons_self)), if_pos rfl, new List.mem_cons_self,
      slot?_tree_top]
  rw [if_neg isNode]
  by_cases within : other ∈ node :: below.ids
  · have notParent : other ≠ parent := by
      rintro rfl
      obtain ⟨_, _, holder, -⟩ := child_of_parent nodup stored above
      exact apart other within (mem_ids_of_find? holder)
    rw [if_pos (members.mpr (.inl within)), if_neg notParent, new within, slot?_append,
      slot?_eq_none (apart other within), Option.none_or, slot?_tree_below _ _ isNode,
      slot?_tree_below _ _ isNode]
  have outside : other ∉ (Forest.tree ⟨node, top⟩ below).ids := by rwa [ids_tree]
  rw [slot?_append, slot?_eq_none outside, Option.or_none]
  by_cases inside : other ∈ anchor :: children.ids
  · have notParent : other ≠ parent := by
      rintro rfl
      exact parent_outside nodup found stored above inside
    rw [if_pos (members.mpr (.inr inside)), if_neg notParent, kept inside,
      slot?_within nodup found stored inside, above]
  · rw [if_neg (fun member => (members.mp member).elim within inside), if_neg inside]
    split
    · rfl
    · rename_i elsewhere
      refine exchange_elsewhere nodup stored (fun eq => elsewhere ?_) _
      rw [above] at eq
      exact (Option.some.inj eq).symm

end Insertion

end Forest

end ApplyRule
