/-
# ApplyRule.Proofs.Duplicate -- what a copy is a copy of

The links of an arena, followed down from some nodes, spell a forest of items
(`Arena.Spells`): each node has the item, the parent and the children that the
forest has in its place.  The nodes that are met on the way are told in document
order.

The copy of a node spells what the node spelled, and stands apart; it is made of
nodes that were not there before; the slots of all other nodes are what they were
(`Arena.Duplicated`).  So after any operations every node there is can be copied, the
copy is printed as the node is, and there are as many more nodes as the copy has
(`copy_faithful`).
-/
import ApplyRule.Proofs.Refusal

namespace ApplyRule

set_option autoImplicit false

variable {document : Document} {id copy : NodeId} {above : Option NodeId} {item : Item}
  {children : Forest Node} {tree : Forest Item}

/-! ## Following the links down -/

/-- The links, followed down from nodes that stand below `above`, spell a forest of items,
at the given nodes in document order. -/
inductive Arena.Spells (arena : Arena) :
    Option NodeId → List NodeId → Forest Item → List NodeId → Prop
  | nil (above : Option NodeId) : Spells arena above [] .nil []
  | cons {above : Option NodeId} {id : NodeId} {item : Item} {children siblings : List NodeId}
      {inner others : Forest Item} {below after : List NodeId} :
      arena.slots id = some ⟨item, above, children⟩ →
      Spells arena (some id) children inner below → Spells arena above siblings others after →
        Spells arena above (id :: siblings) (.cons item inner others) (id :: (below ++ after))

/-- Links spell one forest only, at the same nodes. -/
theorem Arena.Spells.unique {arena : Arena} {ids nodes others : List NodeId}
    {items more : Forest Item} (spells : arena.Spells above ids items nodes)
    (alsoSpells : arena.Spells above ids more others) : items = more ∧ nodes = others := by
  induction spells generalizing more others with
  | nil above =>
      cases alsoSpells
      exact ⟨rfl, rfl⟩
  | cons stored _ _ inside beside =>
      cases alsoSpells with
      | cons storedToo insideToo besideToo =>
          cases stored.symm.trans storedToo
          obtain ⟨rfl, rfl⟩ := inside insideToo
          obtain ⟨rfl, rfl⟩ := beside besideToo
          exact ⟨rfl, rfl⟩

/-- An arena that has the slots of a forest spells its items. -/
theorem Forest.spells {arena : Arena} {forest : Forest Node} (nodup : forest.ids.Nodup)
    (slots : ∀ id ∈ forest.ids, arena.slots id = forest.slot? id above) :
    arena.Spells above forest.tops forest.items forest.ids := by
  induction forest generalizing above with
  | nil => exact .nil above
  | cons node inner rest ihc ihr =>
      obtain ⟨⟨notBelow, notRest⟩, nodupBelow, nodupRest, disjoint⟩ := nodup_parts nodup
      rw [ids_cons] at slots ⊢
      have own := slots node.id List.mem_cons_self
      rw [slot?, if_pos rfl] at own
      refine .cons own (ihc nodupBelow fun id member => ?_) (ihr nodupRest fun id member => ?_)
      · have ne : node.id ≠ id := fun eq => notBelow (eq ▸ member)
        rw [slots id (by simp [member]), slot?, if_neg ne, slot?_eq_none (disjoint member),
          Option.or_none]
      · have ne : node.id ≠ id := fun eq => notRest (eq ▸ member)
        rw [slots id (by simp [member]), slot?, if_neg ne,
          slot?_eq_none fun inside => disjoint inside member, Option.none_or]

/-- The links of a document spell the tree it has at a node. -/
theorem Document.spells (nodup : document.forest.ids.Nodup)
    (found : document.find? id = some (item, children))
    (stored : document.arena.slots id = some ⟨item, above, children.tops⟩) :
    document.arena.Spells above [id] (.tree item children.items) (id :: children.ids) := by
  have once : (Forest.tree ⟨id, item⟩ children).ids.Nodup := by
    rw [Forest.ids_tree]
    exact List.nodup_cons.mpr (Forest.nodup_below nodup found)
  have within : ∀ other ∈ (Forest.tree ⟨id, item⟩ children).ids, document.arena.slots other =
      (Forest.tree ⟨id, item⟩ children).slot? other above := fun other member =>
    Forest.slot?_within nodup found stored (by rwa [Forest.ids_tree] at member)
  have spelled := Forest.spells once within
  rwa [Forest.ids_tree] at spelled

/-! ## The copy -/

namespace Forest

theorem size_append (first second : Forest Node) :
    (first ++ second).size = first.size + second.size := by
  simp only [← length_labels, labels_append, List.length_append]

theorem size_number (items : Forest Item) (next : Nat) :
    (items.number next).size = items.size := by
  have counted := congrArg List.length (ids_number items next)
  rwa [ids, List.length_map, List.length_map, List.length_range', length_labels] at counted

end Forest

/-- What an arena is after a node was copied: the copy stands apart and spells the tree that
the node spells, at nodes that are all new, and no other slot is changed. -/
structure Arena.Duplicated (arena after : Arena) (id copy : NodeId) (tree : Forest Item) :
    Prop where
  original : ∃ above nodes, arena.Spells above [id] tree nodes
  copied : ∃ nodes, after.Spells none [copy] tree nodes ∧
    (∀ other ∈ nodes, arena.slots other = none) ∧
    ∀ other ∉ nodes, after.slots other = arena.slots other
  root : after.root = arena.root

/-- A numbered copy of a tree is a copy of it. -/
theorem Document.Numbered.duplicated (numbered : document.Numbered)
    (found : document.find? id = some (item, children)) :
    document.arena.Duplicated (document.plant item children.items).arena id ⟨document.fresh⟩
      (.tree item children.items) := by
  have planted := numbered.plant item children.items
  have spelled := Document.spells planted.nodup (numbered.find?_plant_self item children.items)
    (numbered.slots_plant_self item children.items)
  rw [Forest.items_number] at spelled
  obtain ⟨parent, stored⟩ := Document.slots_of_find? found
  have nodes : (⟨document.fresh⟩ : NodeId) :: (children.items.number (document.fresh + 1)).ids =
      ((Forest.tree item children.items).number document.fresh).ids := by
    simp [Forest.tree, Forest.number]
  refine ⟨⟨parent, _, Document.spells numbered.nodup found stored⟩, ⟨_, spelled, ?_, ?_⟩, rfl⟩
  · intro other member
    rw [nodes] at member
    refine Forest.slot?_eq_none (fun old => ?_) none
    exact Nat.lt_irrefl _
      (Nat.lt_of_lt_of_le (numbered.given other old) (Forest.mem_ids_number.mp member).1)
  · intro other outside
    rw [nodes] at outside
    refine (Forest.slot?_append ..).trans ?_
    rw [Forest.slot?_eq_none outside, Option.or_none]
    rfl

/-- **A copy is faithful and shares nothing.**  After any operations each node there is can be
copied.  The copy spells what the node spells, at new nodes, and changes no other; it is
printed as the node is, and there are as many more nodes as it has. -/
theorem copy_faithful (operations : List TreeOperation)
    (reached : document = operations.foldl Document.operate Document.new)
    (live : document.contains id = true) :
    ∃ copy after tree, Edit.copy id document = .ok copy after ∧
      Linking.clone id document.arena = some (.ok copy, after.arena) ∧
      document.arena.Duplicated after.arena id copy tree ∧
      after.size = document.size + tree.size ∧
      (after.print? copy).isSome ∧ after.print? copy = document.print? id := by
  have numbered : document.Numbered := reached ▸ (Document.numbered_new.operations operations).1
  obtain ⟨⟨item, children⟩, found⟩ := Option.isSome_iff_exists.mp live
  have ran : Edit.copy id document =
      .ok ⟨document.fresh⟩ (document.plant item children.items) :=
    (bind_ok (Edit.ask_ok found)).trans rfl
  have follows := follows_clone numbered id
  rw [Follows, Outcome, ran] at follows
  have printed : (document.plant item children.items).print? ⟨document.fresh⟩ =
      some (item.printTree children.items) := by
    rw [Document.print?, numbered.find?_plant_self]
    simp only [Option.map_some, Forest.items_number]
  refine ⟨_, _, _, ran, follows.2, numbered.duplicated found, ?_, ?_, ?_⟩
  · rw [Document.size, Document.plant, Forest.size_append, Forest.size_number]
    rfl
  · rw [printed]
    rfl
  · rw [printed, Document.print?, found, Option.map_some]

/-- The rule that holds a declaration is copied with it, below no other node. -/
theorem copy_faithful_rule : ∃ document copy after,
    document = TreeOperation.nested.foldl Document.operate Document.new ∧
    Linking.clone ⟨2⟩ document.arena = some (.ok copy, after) ∧
    document.arena.Duplicated after ⟨2⟩ copy
      (.tree ⟨.rule ".a", {}, none⟩ (.tree ⟨.declaration "x" "y", {}, none⟩ .nil)) := by
  have live : (TreeOperation.nested.foldl Document.operate Document.new).contains ⟨2⟩ = true := rfl
  obtain ⟨copy, after, tree, -, ran, duplicated, -⟩ := copy_faithful TreeOperation.nested rfl live
  refine ⟨_, copy, after.arena, rfl, ran, ?_⟩
  obtain ⟨above, nodes, spells⟩ := duplicated.original
  have expected : (TreeOperation.nested.foldl Document.operate Document.new).arena.Spells
      (some ⟨1⟩) [⟨2⟩] (.tree ⟨.rule ".a", {}, none⟩ (.tree ⟨.declaration "x" "y", {}, none⟩ .nil))
      [⟨2⟩, ⟨3⟩] :=
    .cons rfl (.cons rfl (.nil _) (.nil _)) (.nil _)
  cases spells with
  | cons stored inside beside =>
      cases stored
      exact (Arena.Spells.unique (.cons rfl inside beside) expected).1 ▸ duplicated

end ApplyRule
