/-
# ApplyRule.Proofs.Insertion -- where a node goes that is put somewhere

A node can be put below a parent, or next to an anchor that has one, exactly where
`Arena.MayHold` says so: the parent is there and holds others, and the node is there
and neither is the parent nor above it (`mayHold_iff`).

What such a move leaves is told link by link (`Arena.MovedTo`): the node names its new
parent, that parent has the children it is said to have, the node's former parent has
lost the node, and no other link or item is changed.  The children of the new parent
are the old ones without the node, and the node last among them or directly before or
after the anchor, wherever it stood before (`insertion_places`).
-/
import ApplyRule.Proofs.Refusal

namespace ApplyRule

set_option autoImplicit false

variable {document after : Document} {anchor node parent id : NodeId} {item : Item}
  {children : Forest Node}

/-! ## Above and below -/

namespace Document

/-- Whatever is below a node has that node above it. -/
theorem under_of_mem_below (nodup : document.forest.ids.Nodup)
    (found : document.find? id = some (item, children)) {inner : NodeId}
    (member : inner ∈ children.ids) : Relation.TransGen document.arena.Under inner id := by
  induction eq : children.size using Nat.strong_induction_on
    generalizing id item children with
  | _ size ih =>
    obtain ⟨top, topItem, below, isTop, inside, inTree⟩ :=
      Forest.exists_tree (Forest.nodup_below nodup found).2 member
    have child : document.arena.Under top id :=
      (under_iff nodup).mpr ⟨item, children, found, isTop⟩
    rcases inTree with rfl | deeper
    · exact .single child
    · have topFound := (Forest.find?_eq_find? nodup found (Forest.mem_ids_of_mem_tops isTop)).trans
        inside
      have shorter := (Forest.labels_sublist_of_find? inside).length_le
      rw [List.length_cons, Forest.length_labels, Forest.length_labels, eq] at shorter
      exact (ih below.size shorter topFound deeper rfl).tail child

/-- Whatever has a node above it, or is that node, is in its tree. -/
theorem mem_below_of_under (nodup : document.forest.ids.Nodup) {lower upper : NodeId}
    (path : Relation.ReflTransGen document.arena.Under lower upper)
    (found : document.find? upper = some (item, children)) : lower ∈ upper :: children.ids := by
  induction path generalizing item children with
  | refl => exact List.mem_cons_self
  | tail _ under ih =>
      obtain ⟨_, siblings, foundUpper, child⟩ := (under_iff nodup).mp under
      cases found.symm.trans foundUpper
      have within := Forest.mem_ids_of_mem_tops child
      obtain ⟨_, below, inside⟩ := Forest.exists_find? within
      have foundMid := (Forest.find?_eq_find? nodup found within).trans inside
      refine List.mem_cons_of_mem _ ?_
      exact (Forest.ids_sublist_of_find? inside).subset (ih foundMid)

end Document

/-- A node may be put below a parent: the parent is there and holds others, and the node
is there and neither is the parent nor above it. -/
structure Arena.MayHold (arena : Arena) (parent node : NodeId) : Prop where
  houses : ∃ slot, arena.slots parent = some slot ∧ slot.item.kind.isContainer = true
  live : (arena.slots node).isSome
  notAbove : ¬ Relation.ReflTransGen arena.Under parent node

/-- A document lets a node stand below a parent just when its links do. -/
theorem Document.mayHold_iff (nodup : document.forest.ids.Nodup) :
    document.arena.MayHold parent node ↔ document.Insertable parent node := by
  constructor
  · rintro ⟨⟨slot, stored, container⟩, live, notAbove⟩
    obtain ⟨siblings, foundParent, -⟩ := Forest.find?_of_slot? stored
    refine ⟨⟨slot.item, siblings, foundParent, container⟩, ?_⟩
    obtain ⟨own, held⟩ := Option.isSome_iff_exists.mp live
    obtain ⟨children, found, -⟩ := Forest.find?_of_slot? held
    refine ⟨own.item, children, found, fun member => notAbove ?_⟩
    rcases List.mem_cons.mp member with rfl | below
    · exact .refl
    · exact (under_of_mem_below nodup found below).to_reflTransGen
  · rintro ⟨⟨upper, siblings, foundParent, container⟩, item, children, found, outside⟩
    obtain ⟨_, stored⟩ := slots_of_find? foundParent
    obtain ⟨_, held⟩ := slots_of_find? found
    refine ⟨⟨_, stored, container⟩, Option.isSome_of_eq_some held, fun path => outside ?_⟩
    exact mem_below_of_under nodup path found

/-! ## What a move leaves -/

/-- What an arena is after a node was put below a parent, whose children are then
`children`: the node's former parent has lost it, and nothing else is changed. -/
structure Arena.MovedTo (arena after : Arena) (node parent : NodeId) (children : List NodeId) :
    Prop where
  moved : ∃ slot, arena.slots node = some slot ∧
    after.slots node = some { slot with parent := some parent }
  held : ∃ slot, arena.slots parent = some slot ∧ after.slots parent = some { slot with children }
  former : ∀ other holder, arena.Under node other → other ≠ parent →
    arena.slots other = some holder →
      after.slots other = some { holder with children := holder.children.filter (· ≠ node) }
  elsewhere : ∀ other, other ≠ node → other ≠ parent → ¬ arena.Under node other →
    after.slots other = arena.slots other
  root : after.root = arena.root
  fresh : after.fresh = arena.fresh

section Moved

variable {insert : Forest Node → Forest Node → Forest Node} {slot holder : Slot}

/-- Every other node loses the one that is taken out, if that is its child. -/
theorem Document.slots_apart (nodup : document.forest.ids.Nodup)
    (found : document.find? node = some (item, children))
    (stored : document.arena.slots node = some slot) (ne : id ≠ node) :
    (document.apart node item children).arena.slots id =
      if slot.parent = some id then (document.arena.slots id).map fun holder =>
        { holder with children := holder.children.filter (· ≠ node) }
      else document.arena.slots id := by
  refine (Forest.slot?_apart nodup found stored).trans ?_
  have loses : Slot.exchange node [] = fun holder =>
      { holder with children := holder.children.filter (· ≠ node) } :=
    funext fun holder => by rw [Slot.exchange, NodeId.exchange_nil]
  rw [if_neg ne, loses]
  rfl

/-- The parent of a node that is moved within it keeps its other children, and another
node's children do not hold that node. -/
theorem Document.slots_apart_parent (numbered : document.Numbered)
    (found : document.find? node = some (item, children))
    (stored : document.arena.slots node = some slot) (ne : parent ≠ node)
    (held : document.arena.slots parent = some holder) :
    (document.apart node item children).arena.slots parent =
      some { holder with children := holder.children.filter (· ≠ node) } := by
  rw [slots_apart numbered.nodup found stored ne, held]
  split
  · rfl
  · rename_i other
    have absent : node ∉ holder.children := fun member =>
      other ((numbered.linked.mutually node slot stored parent).mpr ⟨holder, held, member⟩)
    have same : holder.children.filter (· ≠ node) = holder.children :=
      List.filter_eq_self.mpr fun child member => by
        simpa using fun eq : child = node => absent (eq ▸ member)
    rw [same]

/-- A move leaves what it should where the new forest has the slots of the place. -/
theorem Document.movedTo (numbered : document.Numbered) (may : document.Insertable parent node)
    (found : document.find? node = some (item, children)) (list : List NodeId → List NodeId)
    (held : document.arena.slots parent = some holder)
    (fits : ∀ other, (document.moved node item children insert).arena.slots other =
      if other = node then some ⟨item, some parent, children.tops⟩
      else if other = parent then
        ((document.apart node item children).arena.slots other).map fun slot =>
          { slot with children := list slot.children }
      else (document.apart node item children).arena.slots other) :
    document.arena.MovedTo (document.moved node item children insert).arena node parent
      (list (holder.children.filter (· ≠ node))) := by
  obtain ⟨above, stored⟩ := slots_of_find? found
  obtain ⟨-, _, _, foundToo, outside⟩ := may
  cases found.symm.trans foundToo
  have ne : parent ≠ node := fun eq => outside (eq ▸ List.mem_cons_self)
  have apart := slots_apart_parent numbered found stored ne held
  refine ⟨⟨_, stored, ?_⟩, ⟨holder, held, ?_⟩, ?_, ?_, rfl, rfl⟩
  · rw [fits, if_pos rfl]
  · rw [fits, if_neg ne, if_pos rfl, apart]
    rfl
  · rintro other former ⟨own, storedToo, under⟩ elsewhere heldOther
    cases stored.symm.trans storedToo
    have notSelf : other ≠ node := by
      rintro rfl
      exact numbered.linked.acyclic other (.single ⟨_, stored, under⟩)
    rw [fits, if_neg notSelf, if_neg elsewhere, slots_apart numbered.nodup found stored notSelf,
      if_pos under, heldOther]
    rfl
  · intro other notSelf elsewhere notUnder
    rw [fits, if_neg notSelf, if_neg elsewhere, slots_apart numbered.nodup found stored notSelf,
      if_neg fun under => notUnder ⟨_, stored, under⟩]

/-- Outside a node's tree nothing is changed when the tree is put apart. -/
theorem Document.slots_pruned (outside : parent ∉ node :: children.ids) :
    (document.forest.prune node).slot? parent none =
      (document.apart node item children).arena.slots parent := by
  have notThere : parent ∉ (Forest.tree ⟨node, item⟩ children).ids := by
    rwa [Forest.ids_tree]
  refine Eq.symm ((Forest.slot?_append ..).trans ?_)
  rw [Forest.slot?_eq_none notThere, Option.or_none]

/-- A node that is appended is the last child. -/
theorem Document.movedTo_append (numbered : document.Numbered)
    (may : document.Insertable parent node)
    (found : document.find? node = some (item, children))
    (held : document.arena.slots parent = some holder) :
    document.arena.MovedTo (document.moved node item children (Forest.adopt parent)).arena
      node parent (holder.children.filter (· ≠ node) ++ [node]) := by
  obtain ⟨⟨upper, siblings, foundParent, -⟩, _, _, foundToo, outside⟩ := id may
  cases found.symm.trans foundToo
  obtain ⟨nodup, members⟩ := prune_parts numbered.nodup found
  obtain ⟨left, stays, -⟩ := stays_of_outside numbered.nodup found outside foundParent
  refine movedTo numbered may found (· ++ [node]) held fun other => ?_
  refine (Forest.slot?_adopt nodup stays fun id inside kept =>
    ((members id).mp kept).2 inside).trans ?_
  split
  · rfl
  · split
    · rename_i here
      rw [here, slots_pruned outside]
    · rfl

/-- A node that is put next to another is directly before or after it among the children of
their parent. -/
theorem Document.movedTo_beside {offset : Nat}
    {insert : NodeId → Forest Node → Forest Node → Forest Node} {order : List NodeId}
    (beside : Beside offset insert)
    (ordered : offset = 0 ∧ order = [node, anchor] ∨ offset = 1 ∧ order = [anchor, node])
    (numbered : document.Numbered) (ne : anchor ≠ node)
    (under : document.arena.Under anchor parent) (may : document.Insertable parent node)
    (found : document.find? node = some (item, children))
    (held : document.arena.slots parent = some holder) :
    document.arena.MovedTo (document.moved node item children (insert anchor)).arena node parent
      (anchor.exchange order (holder.children.filter (· ≠ node))) := by
  obtain ⟨⟨upper, siblings, foundParent, -⟩, _, _, foundToo, outside⟩ := id may
  cases found.symm.trans foundToo
  obtain ⟨nodup, members⟩ := prune_parts numbered.nodup found
  -- The anchor stays a child of the parent when the node is gone.
  obtain ⟨left, stays, tops⟩ := stays_of_outside numbered.nodup found outside foundParent
  obtain ⟨_, _, foundAgain, child⟩ := (under_iff numbered.nodup).mp under
  cases foundParent.symm.trans foundAgain
  have childLeft : anchor ∈ left.tops := by
    rw [tops]
    exact List.mem_filter.mpr ⟨child, by simpa using ne⟩
  obtain ⟨slotLeft, storedLeft, aboveLeft⟩ := Forest.parent_of_child nodup stays childLeft
  obtain ⟨below, foundLeft, -⟩ := Forest.find?_of_slot? storedLeft
  obtain ⟨more, put, placed⟩ := @beside anchor _ (.tree ⟨node, item⟩ children) _ _ nodup foundLeft
  have same : more.tops = order := by
    rcases ordered with ⟨first, rfl⟩ | ⟨second, rfl⟩
    · rcases placed with ⟨-, rfl⟩ | ⟨other, -⟩
      · rfl
      · exact absurd (first.symm.trans other) Nat.zero_ne_one
    · rcases placed with ⟨other, -⟩ | ⟨-, rfl⟩
      · exact absurd (other.symm.trans second) Nat.zero_ne_one
      · rfl
  refine movedTo numbered may found (anchor.exchange order) held fun other => ?_
  show (insert anchor _ _).slot? other none = _
  rw [put]
  refine (Forest.slot?_beside nodup foundLeft storedLeft aboveLeft
    (fun id inside kept => ((members id).mp kept).2 inside)
    (placed.imp And.right And.right)).trans ?_
  split
  · rfl
  · split
    · rename_i here
      rw [here, slots_pruned outside, same]
      rfl
    · rfl

end Moved

/-! ## Success -/

/-- Where a node stands once in a list, others come in its place. -/
theorem NodeId.exists_exchange {list : List NodeId} (nodup : list.Nodup) (member : id ∈ list) :
    ∃ first rest, list = first ++ id :: rest ∧
      ∀ ids, id.exchange ids list = first ++ ids ++ rest := by
  obtain ⟨first, rest, rfl⟩ := List.append_of_mem member
  obtain ⟨-, later, apart⟩ := List.nodup_append'.mp nodup
  have notFirst : id ∉ first := fun both => apart both List.mem_cons_self
  refine ⟨first, rest, rfl, fun ids => ?_⟩
  rw [exchange_append, exchange_cons, if_pos rfl, exchange_of_not_mem notFirst,
    exchange_of_not_mem (List.nodup_cons.mp later).1, List.append_assoc]

namespace Edit

/-- Where a node may not stand nothing is done. -/
theorem outcome_not_insertable (numbered : document.Numbered)
    (mayNot : ¬ document.Insertable parent node) (next : Unit → Edit Unit)
    {done : Unit → Document → Prop} {failed : TreeError → Document → Prop}
    (fails : ∀ error after, failed error after) :
    Outcome (checkInsertable parent node >>= next) document done failed := by
  have checked := outcome_checkInsertable parent node numbered.nodup
  refine (checked.imp (fun _ _ => id) fun _ _ _ => fails _ _).bind ?_
  exact fun _ _ passed => absurd passed.2 mayNot

/-- A node can be appended where it may stand, and only there. -/
theorem outcome_append (numbered : document.Numbered) (parent node : NodeId) :
    Outcome (append parent node) document
      (fun _ after => document.Insertable parent node ∧ ∃ item children,
        document.find? node = some (item, children) ∧
          after = document.moved node item children (Forest.adopt parent))
      (fun _ _ => ¬ document.Insertable parent node) := by
  by_cases may : document.Insertable parent node
  · obtain ⟨-, item, children, found, -⟩ := id may
    exact Outcome.bind_of_ok (may.check numbered.nodup)
      (Outcome.of_ok (move_ok found) ⟨may, item, children, found, rfl⟩)
  · exact outcome_not_insertable numbered may _ fun _ _ => may

/-- A node can be put next to another where it may stand below that one's parent, and only
there. -/
theorem outcome_beside (numbered : document.Numbered) (ne : anchor ≠ node)
    (insert : NodeId → Forest Node → Forest Node → Forest Node) :
    Outcome (insertBeside anchor node insert) document
      (fun _ after => ∃ parent item children, document.arena.Under anchor parent ∧
        document.Insertable parent node ∧ document.find? node = some (item, children) ∧
          after = document.moved node item children (insert anchor))
      (fun _ _ => ∀ parent, document.arena.Under anchor parent →
        ¬ document.Insertable parent node) := by
  have asked := document.parent?_eq_slots anchor
  cases stored : document.arena.slots anchor with
  | none =>
      rw [stored, Option.map_none] at asked
      refine Outcome.of_error (bind_error (ask_error asked)) ?_
      rintro parent ⟨slot, held, -⟩
      cases stored.symm.trans held
  | some slot =>
      rw [stored, Option.map_some] at asked
      refine Outcome.bind_of_ok (ask_ok asked) ?_
      have only : ∀ {parent}, document.arena.Under anchor parent → slot.parent = some parent := by
        rintro parent ⟨_, held, above⟩
        cases stored.symm.trans held
        exact above
      cases above : slot.parent with
      | none =>
          refine Outcome.of_error rfl fun parent under => ?_
          cases above.symm.trans (only under)
      | some parent =>
          have under : document.arena.Under anchor parent := ⟨slot, stored, above⟩
          by_cases may : document.Insertable parent node
          · obtain ⟨-, item, children, found, -⟩ := id may
            refine Outcome.bind_of_ok (may.check numbered.nodup) ?_
            rw [if_neg ne]
            exact Outcome.of_ok (move_ok found) ⟨parent, item, children, under, may, found, rfl⟩
          · refine outcome_not_insertable numbered may _ fun _ _ other under => ?_
            cases above.symm.trans (only under)
            exact may

end Edit

/-! ## Placing -/

/-- An edit puts a node next to another, in this order.  It succeeds just where the anchor
has a parent below which the node may stand; then the two are next to each other among that
parent's children, which are otherwise as they were without the node. -/
def Document.PutsBeside (document : Document) (edit : NodeId → NodeId → Edit Unit)
    (link : NodeId → NodeId → Linking Unit) (order : NodeId → NodeId → List NodeId) : Prop :=
  ∀ anchor node, anchor ≠ node →
    Follows (link anchor node) (edit anchor node) document ∧
    ((∃ after, edit anchor node document = .ok () after) ↔
      ∃ parent, document.arena.Under anchor parent ∧ document.arena.MayHold parent node) ∧
    ∀ after parent, edit anchor node document = .ok () after →
      document.arena.Under anchor parent →
        ∃ holder first rest, document.arena.slots parent = some holder ∧
          holder.children.filter (· ≠ node) = first ++ anchor :: rest ∧
          document.arena.MovedTo after.arena node parent (first ++ order anchor node ++ rest)

/-- An edit makes a node the last child of a parent, whether it was a child before or not.
It succeeds just where the node may stand below the parent. -/
def Document.PutsLast (document : Document) (edit : NodeId → NodeId → Edit Unit)
    (link : NodeId → NodeId → Linking Unit) : Prop :=
  ∀ parent node, Follows (link parent node) (edit parent node) document ∧
    ((∃ after, edit parent node document = .ok () after) ↔
      document.arena.MayHold parent node) ∧
    ∀ after, edit parent node document = .ok () after →
      ∃ holder, document.arena.slots parent = some holder ∧
        document.arena.MovedTo after.arena node parent
          (holder.children.filter (· ≠ node) ++ [node])

theorem Document.Numbered.putsLast (numbered : document.Numbered) :
    document.PutsLast Edit.append Linking.append := by
  intro parent node
  have outcome := Edit.outcome_append numbered parent node
  refine ⟨follows_append numbered parent node, ?_, ?_⟩
  · rw [Document.mayHold_iff numbered.nodup]
    constructor
    · rintro ⟨after, ran⟩
      rw [Outcome, ran] at outcome
      exact outcome.1
    · intro may
      rcases outcome.cases with ⟨_, after, ran, -⟩ | ⟨_, _, -, refused⟩
      · exact ⟨after, ran⟩
      · exact absurd may refused
  · intro after ran
    rw [Outcome, ran] at outcome
    obtain ⟨may, item, children, found, rfl⟩ := outcome
    obtain ⟨⟨upper, siblings, foundParent, -⟩, -⟩ := id may
    obtain ⟨_, held⟩ := Document.slots_of_find? foundParent
    exact ⟨_, held, Document.movedTo_append numbered may found held⟩

theorem Document.Numbered.putsBeside {offset : Nat}
    {insert : NodeId → Forest Node → Forest Node → Forest Node}
    {order : NodeId → NodeId → List NodeId} (beside : Beside offset insert)
    (ordered : offset = 0 ∧ order = (fun anchor node => [node, anchor]) ∨
      offset = 1 ∧ order = fun anchor node => [anchor, node])
    (numbered : document.Numbered) :
    document.PutsBeside (fun anchor node => Edit.insertBeside anchor node insert)
      (Linking.insertBeside offset) order := by
  intro anchor node ne
  have outcome := Edit.outcome_beside numbered ne insert
  refine ⟨follows_insertBeside beside numbered anchor node, ?_, ?_⟩
  · constructor
    · rintro ⟨after, ran⟩
      rw [Outcome, show Edit.insertBeside anchor node insert document = _ from ran] at outcome
      obtain ⟨parent, _, _, under, may, -⟩ := outcome
      exact ⟨parent, under, (Document.mayHold_iff numbered.nodup).mpr may⟩
    · rintro ⟨parent, under, may⟩
      rcases outcome.cases with ⟨_, after, ran, -⟩ | ⟨_, _, -, refused⟩
      · exact ⟨after, ran⟩
      · exact absurd ((Document.mayHold_iff numbered.nodup).mp may) (refused parent under)
  · intro after parent ran under
    rw [Outcome, show Edit.insertBeside anchor node insert document = _ from ran] at outcome
    obtain ⟨parent', item, children, under', may, found, rfl⟩ := outcome
    obtain ⟨slot, stored, above⟩ := under
    obtain ⟨_, storedToo, above'⟩ := id under'
    cases stored.symm.trans storedToo
    cases above.symm.trans above'
    obtain ⟨⟨upper, siblings, foundParent, -⟩, -⟩ := id may
    obtain ⟨_, held⟩ := Document.slots_of_find? foundParent
    obtain ⟨_, _, foundToo, child⟩ := (Document.under_iff numbered.nodup).mp under'
    cases foundParent.symm.trans foundToo
    have stays : anchor ∈ siblings.tops.filter (· ≠ node) :=
      List.mem_filter.mpr ⟨child, by simpa using ne⟩
    obtain ⟨first, rest, split, exchanged⟩ :=
      NodeId.exists_exchange ((numbered.linked.once parent _ held).filter _) stays
    refine ⟨_, first, rest, held, split, exchanged _ ▸ ?_⟩
    refine Document.movedTo_beside beside ?_ numbered ne under' may found held
    rcases ordered with ⟨before, rfl⟩ | ⟨after, rfl⟩
    · exact .inl ⟨before, rfl⟩
    · exact .inr ⟨after, rfl⟩

/-- **A node is put exactly where it is asked to.**  After any operations, putting a node
next to another one, or below a node, succeeds just where the node may stand there, and then
only its links, those of its former parent and those of its new parent are changed, as they
have to be. -/
theorem insertion_places (operations : List TreeOperation) :
    ∃ document, document = operations.foldl Document.operate Document.new ∧
      operations.foldlM Arena.operate Arena.new = some document.arena ∧
      document.PutsBeside Edit.insertBefore Linking.insertBefore
        (fun anchor node => [node, anchor]) ∧
      document.PutsBeside Edit.insertAfter Linking.insertAfter
        (fun anchor node => [anchor, node]) ∧
      document.PutsLast Edit.append Linking.append := by
  obtain ⟨numbered, reached⟩ := Document.numbered_new.operations operations
  rw [Document.arena_new] at reached
  exact ⟨_, rfl, reached, numbered.putsBeside beside_before (.inl ⟨rfl, rfl⟩),
    numbered.putsBeside beside_after (.inr ⟨rfl, rfl⟩), numbered.putsLast⟩

/-- A rule is put before the sibling in front of it, and a rule that is the first child of
the root is appended to the root.  It cannot be put next to a declaration that it holds. -/
theorem insertion_places_siblings : ∃ document,
    document = TreeOperation.nested.foldl Document.operate Document.new ∧
    (∃ after, Edit.insertBefore ⟨2⟩ ⟨4⟩ document = .ok () after ∧
      document.arena.MovedTo after.arena ⟨4⟩ ⟨1⟩ [⟨4⟩, ⟨2⟩]) ∧
    (∃ after, Edit.append ⟨1⟩ ⟨2⟩ document = .ok () after ∧
      document.arena.MovedTo after.arena ⟨2⟩ ⟨1⟩ [⟨4⟩, ⟨2⟩]) ∧
    ¬ ∃ after, Edit.insertAfter ⟨3⟩ ⟨2⟩ document = .ok () after := by
  obtain ⟨document, built, -, before, after, last⟩ := insertion_places TreeOperation.nested
  have root : ∃ item, document.arena.slots ⟨1⟩ = some ⟨item, none, [⟨2⟩, ⟨4⟩]⟩ := by
    subst built
    exact ⟨_, rfl⟩
  obtain ⟨item, stored⟩ := root
  refine ⟨document, built, ?_, ?_, ?_⟩
  · obtain ⟨moved, ran⟩ : ∃ after, Edit.insertBefore ⟨2⟩ ⟨4⟩ document = .ok () after := by
      subst built
      exact ⟨_, rfl⟩
    have under : document.arena.Under ⟨2⟩ ⟨1⟩ := by
      subst built
      exact ⟨_, rfl, rfl⟩
    obtain ⟨holder, first, rest, held, split, movedTo⟩ :=
      (before ⟨2⟩ ⟨4⟩ (by decide)).2.2 moved ⟨1⟩ ran under
    cases stored.symm.trans held
    have alone : [(⟨2⟩ : NodeId)] = first ++ ⟨2⟩ :: rest := split
    obtain ⟨rfl, rfl⟩ : first = [] ∧ rest = [] := by
      cases first <;> simp_all
    exact ⟨moved, ran, movedTo⟩
  · obtain ⟨moved, ran⟩ : ∃ after, Edit.append ⟨1⟩ ⟨2⟩ document = .ok () after := by
      subst built
      exact ⟨_, rfl⟩
    obtain ⟨holder, held, movedTo⟩ := (last ⟨1⟩ ⟨2⟩).2.2 moved ran
    cases stored.symm.trans held
    exact ⟨moved, ran, movedTo⟩
  · rintro ⟨moved, ran⟩
    obtain ⟨parent, under, may⟩ := (after ⟨3⟩ ⟨2⟩ (by decide)).2.1.mp ⟨moved, ran⟩
    have parent_ : parent = ⟨2⟩ := by
      subst built
      obtain ⟨slot, held, above⟩ := under
      cases held
      cases above
      rfl
    exact may.notAbove (parent_ ▸ .refl)

end ApplyRule
