/-
# ApplyRule.Proofs.SoundDocument -- documents that edits keep sound

`Document.Sound document tops` says that a document is in order and which trees it
has: every identity stands once and was given out, only a container holds others,
and the root is the one node of its kind.  Each change that a pass makes keeps it,
with the tops it adds or takes away:

* `Sound.beside` adds trees that stand apart, `Sound.plant` a new one, and `Sound.fell` drops
  one;
* `Sound.splice` puts trees in the place of a node inside a tree;
* `Sound.retouch` changes an item and not its kind.

The lemmas `find?_…` beside them say what becomes of the other trees: nothing.
-/
import ApplyRule.Document.Edit
import ApplyRule.Proofs.Replacement

namespace ApplyRule

set_option autoImplicit false

/-! ## Only containers hold others -/

namespace Forest

/-- Every item that holds others is a container. -/
def Housed : Forest Item → Prop
  | .nil => True
  | .cons item children rest =>
      (children = .nil ∨ item.kind.isContainer = true) ∧ children.Housed ∧ rest.Housed

/-- No item has the kind of a root. -/
def Rootless (items : Forest Item) : Prop :=
  ∀ item ∈ items.labels, item.kind.isRoot = false

/-- Items that can stand below any container. -/
structure Proper (items : Forest Item) : Prop where
  housed : items.Housed
  rootless : items.Rootless

theorem proper_nil : (.nil : Forest Item).Proper :=
  ⟨trivial, fun _ member => nomatch member⟩

theorem Proper.cons {item : Item} {children rest : Forest Item} (own : item.kind.isRoot = false)
    (holds : children = .nil ∨ item.kind.isContainer = true) (inside : children.Proper)
    (later : rest.Proper) : (Forest.cons item children rest).Proper := by
  refine ⟨⟨holds, inside.housed, later.housed⟩, ?_⟩
  intro label member
  rcases List.mem_cons.mp member with rfl | deeper
  · exact own
  · rcases List.mem_append.mp deeper with below | after
    · exact inside.rootless label below
    · exact later.rootless label after

theorem proper_cons {item : Item} {children rest : Forest Item}
    (proper : (Forest.cons item children rest).Proper) :
    item.kind.isRoot = false ∧ (children = .nil ∨ item.kind.isContainer = true) ∧
      children.Proper ∧ rest.Proper := by
  obtain ⟨⟨holds, inside, later⟩, rootless⟩ := proper
  refine ⟨rootless item (by simp [labels]), holds, ⟨inside, ?_⟩, ⟨later, ?_⟩⟩
  · exact fun label member => rootless label (by simp [labels, member])
  · exact fun label member => rootless label (by simp [labels, member])

@[simp] theorem items_nil : (.nil : Forest Node).items = .nil := rfl

@[simp] theorem items_cons (node : Node) (children rest : Forest Node) :
    (Forest.cons node children rest).items = .cons node.item children.items rest.items := rfl

@[simp] theorem housed_append (first second : Forest Item) :
    (first ++ second).Housed ↔ first.Housed ∧ second.Housed := by
  induction first with
  | nil => simp [Housed]
  | cons item children rest _ ih => simp [Housed, ih, and_assoc]

theorem eq_nil_of_items {forest : Forest Node} (empty : forest.items = .nil) : forest = .nil := by
  cases forest with
  | nil => rfl
  | cons _ _ _ => cases empty

/-- A forest is proper where each of its trees is. -/
theorem proper_of_tops {forest : Forest Node} (nodup : forest.ids.Nodup)
    (each : ∀ top ∈ forest.tops, ∃ item children, forest.find? top = some (item, children) ∧
      (Forest.tree item children.items).Proper) : forest.items.Proper := by
  induction forest with
  | nil => exact proper_nil
  | cons node below rest _ ih =>
      obtain ⟨-, -, nodupRest, -⟩ := nodup_parts nodup
      have later : rest.items.Proper := by
        refine ih nodupRest fun top member => ?_
        obtain ⟨item, children, found, proper⟩ := each top (List.mem_cons_of_mem _ member)
        rw [find?_cons_rest nodup (mem_ids_of_mem_tops member)] at found
        exact ⟨item, children, found, proper⟩
      obtain ⟨item, children, found, proper⟩ := each node.id List.mem_cons_self
      rw [find?_cons_self] at found
      cases found
      obtain ⟨own, holds, inside, -⟩ := proper_cons proper
      exact .cons own holds inside later

variable {forest children more : Forest Node} {id : NodeId} {item : Item}

theorem housed_of_find? (housed : forest.items.Housed)
    (found : forest.find? id = some (item, children)) :
    (children = .nil ∨ item.kind.isContainer = true) ∧ children.items.Housed := by
  induction forest with
  | nil => cases found
  | cons node below rest ihc ihr =>
      obtain ⟨here, inside, after⟩ := housed
      rw [find?] at found
      split at found
      · cases found
        exact ⟨here.imp_left eq_nil_of_items, inside⟩
      · rcases Option.or_eq_some_iff.mp found with within | ⟨-, later⟩
        · exact ihc inside within
        · exact ihr after later

theorem housed_replace (housed : forest.items.Housed) (moreHoused : more.items.Housed) :
    (replace id more forest).items.Housed := by
  induction forest with
  | nil => trivial
  | cons node below rest ihc ihr =>
      obtain ⟨here, inside, after⟩ := housed
      rw [replace]
      split
      · rw [items_append, housed_append]
        exact ⟨moreHoused, after⟩
      · refine ⟨here.imp_left fun empty => ?_, ihc inside, ihr after⟩
        rw [eq_nil_of_items empty]
        rfl

theorem housed_update {change : Item → Item} (keeps : ∀ item, (change item).kind = item.kind)
    (housed : forest.items.Housed) : (forest.update id change).items.Housed := by
  induction forest with
  | nil => trivial
  | cons node below rest ihc ihr =>
      obtain ⟨here, inside, after⟩ := housed
      rw [update, items_cons]
      refine ⟨?_, ihc inside, ihr after⟩
      refine here.imp (fun empty => ?_) fun container => ?_
      · rw [eq_nil_of_items empty]
        rfl
      · split
        · rw [keeps]
          exact container
        · exact container

theorem mem_labels_items {item : Item} :
    item ∈ forest.items.labels ↔ ∃ node ∈ forest.labels, node.item = item := by
  simp [items]

end Forest

/-! ## Sound documents -/

namespace Document

/-- The document with other trees in the place of a node and all below it. -/
def splice (document : Document) (id : NodeId) (more : Forest Node) : Document :=
  { document with forest := Forest.replace id more document.forest }

/-- The document with a node's item changed. -/
def retouch (document : Document) (id : NodeId) (change : Item → Item) : Document :=
  { document with forest := document.forest.update id change }

/-- Every identity stands once, and it was given out. -/
structure Numbered (document : Document) : Prop where
  nodup : document.forest.ids.Nodup
  given : ∀ id ∈ document.forest.ids, id.index < document.fresh

namespace Numbered

variable {document : Document}

theorem new_not_mem (numbered : document.Numbered) :
    (⟨document.fresh⟩ : NodeId) ∉ document.forest.ids :=
  fun member => Nat.lt_irrefl _ (numbered.given _ member)

theorem find?_plant_self (numbered : document.Numbered) (item : Item) (items : Forest Item) :
    (document.plant item items).find? ⟨document.fresh⟩ =
      some (item, items.number (document.fresh + 1)) := by
  rw [find?, plant, Forest.find?_append, Forest.find?_of_not_mem numbered.new_not_mem,
    Option.none_or]
  simp [Forest.tree, Forest.number, Forest.find?]

theorem plant (numbered : document.Numbered) (item : Item) (items : Forest Item) :
    (document.plant item items).Numbered := by
  refine ⟨?_, ?_⟩
  · rw [Document.plant, Forest.ids_append]
    refine List.nodup_append'.mpr ⟨numbered.nodup, Forest.nodup_number _ _, fun id old new => ?_⟩
    exact Nat.lt_irrefl _
      (Nat.lt_of_lt_of_le (numbered.given id old) (Forest.mem_ids_number.mp new).1)
  · intro id member
    rw [Document.plant, Forest.ids_append] at member
    rcases List.mem_append.mp member with old | new
    · exact Nat.lt_of_lt_of_le (numbered.given id old) (Nat.le_add_right ..)
    · exact (Forest.mem_ids_number.mp new).2

end Numbered

/-- A document in order, with the trees it has. -/
structure Sound (document : Document) (tops : List NodeId) : Prop where
  nodup : document.forest.ids.Nodup
  given : ∀ id ∈ document.forest.ids, id.index < document.fresh
  tops : document.forest.tops.Perm tops
  housed : document.forest.items.Housed
  root : ∃ item children, document.find? document.root = some (item, children) ∧ item.kind = .root
  standing : document.root ∈ document.forest.tops
  alone : ∀ node ∈ document.forest.labels, node.item.kind.isRoot = true → node.id = document.root

variable {document : Document} {tops : List NodeId} {id top : NodeId} {item : Item}
  {children more : Forest Node}

theorem find?_retouch (document : Document) (id other : NodeId) (change : Item → Item) :
    (document.retouch id change).find? other = (document.find? other).map fun pair =>
      (if other = id then change pair.1 else pair.1, pair.2.update id change) :=
  Forest.find?_update id other change document.forest

theorem find?_plant (item : Item) (children : Forest Item) (old : id ∈ document.forest.ids) :
    (document.plant item children).find? id = document.find? id := by
  obtain ⟨_, _, found⟩ := Forest.exists_find? old
  rw [find?, find?, plant, Forest.find?_append, found, Option.some_or]

namespace Sound

theorem perm (sound : document.Sound tops) {others : List NodeId} (same : tops.Perm others) :
    document.Sound others :=
  { sound with tops := sound.tops.trans same }

theorem mem_tops (sound : document.Sound tops) : id ∈ document.forest.tops ↔ id ∈ tops :=
  sound.tops.mem_iff

theorem mem_ids (sound : document.Sound tops) (member : top ∈ tops) :
    top ∈ document.forest.ids :=
  Forest.mem_ids_of_mem_tops (sound.mem_tops.mpr member)

theorem nodup_tops (sound : document.Sound tops) : tops.Nodup :=
  sound.tops.nodup_iff.mp (document.forest.tops_sublist.nodup sound.nodup)

/-- A tree is found at its top. -/
theorem exists_tree (sound : document.Sound tops) (member : top ∈ tops) :
    ∃ item children, document.find? top = some (item, children) :=
  Forest.exists_find? (sound.mem_ids member)

/-- A node below another is no top. -/
theorem not_top_of_below (sound : document.Sound tops)
    (found : document.find? top = some (item, children)) (below : id ∈ children.ids) :
    id ∉ tops := by
  intro member
  obtain ⟨other, inner, itself⟩ := sound.exists_tree member
  obtain ⟨upper, upperItem, upperChildren, upperTop, upperFound, holds⟩ :=
    Forest.exists_tree sound.nodup (Forest.mem_ids_of_find? found)
  have within : id ∈ upperChildren.ids := by
    rcases holds with rfl | deeper
    · have same := found.symm.trans upperFound
      simp only [Option.some.injEq, Prod.mk.injEq] at same
      exact same.2 ▸ below
    · have inside := Forest.find?_eq_find? sound.nodup upperFound deeper
      exact Forest.mem_ids_below (inside.symm.trans found) below
  by_cases same : id = upper
  · subst same
    exact (Forest.nodup_below sound.nodup upperFound).1 within
  · exact Forest.disjoint_trees sound.nodup (sound.mem_tops.mpr member) upperTop same itself
      upperFound List.mem_cons_self (List.mem_cons_of_mem _ within)

/-- A top is not in what stands inside a tree. -/
theorem top_outside (sound : document.Sound tops)
    (found : document.find? id = some (item, children)) (inner : id ∉ tops) (member : top ∈ tops) :
    top ∉ id :: children.ids := by
  intro holds
  rcases List.mem_cons.mp holds with rfl | below
  · exact inner member
  · exact sound.not_top_of_below found below member

/-- A node in the trees of two tops shows that they are one. -/
theorem top_unique (sound : document.Sound tops) {first second : NodeId} {item₁ item₂ : Item}
    {children₁ children₂ : Forest Node} (firstTop : first ∈ tops) (secondTop : second ∈ tops)
    (found₁ : document.find? first = some (item₁, children₁))
    (found₂ : document.find? second = some (item₂, children₂))
    (member₁ : id ∈ first :: children₁.ids) (member₂ : id ∈ second :: children₂.ids) :
    first = second := by
  by_contra ne
  exact Forest.disjoint_trees sound.nodup (sound.mem_tops.mpr firstTop)
    (sound.mem_tops.mpr secondTop) ne found₁ found₂ member₁ member₂

/-! ### A new tree -/

theorem numbered (sound : document.Sound tops) : document.Numbered :=
  ⟨sound.nodup, sound.given⟩

/-- Trees that stand beside those of a document are more tops. -/
theorem beside (sound : document.Sound tops) {fresh : Nat}
    (numbered : Numbered { document with forest := document.forest ++ more, fresh })
    (proper : more.items.Proper) :
    Sound { document with forest := document.forest ++ more, fresh } (more.tops ++ tops) := by
  refine ⟨numbered.nodup, numbered.given, ?_, ?_, ?_, ?_, ?_⟩
  · rw [Forest.tops_append]
    exact (sound.tops.append_right _).trans List.perm_append_comm
  · rw [Forest.items_append, Forest.housed_append]
    exact ⟨sound.housed, proper.housed⟩
  · obtain ⟨rootItem, below, found, kind⟩ := sound.root
    refine ⟨rootItem, below, ?_, kind⟩
    rw [find?] at found ⊢
    rw [Forest.find?_append, found, Option.some_or]
  · rw [Forest.tops_append]
    exact List.mem_append_left _ sound.standing
  · intro node member isRoot
    rw [Forest.labels_append] at member
    rcases List.mem_append.mp member with old | new
    · exact sound.alone node old isRoot
    · rw [proper.rootless _ (Forest.mem_labels_items.mpr ⟨node, new, rfl⟩)] at isRoot
      cases isRoot

/-- A new tree is one more top. -/
theorem plant (sound : document.Sound tops) {item : Item} {children : Forest Item}
    (proper : (Forest.tree item children).Proper) :
    (document.plant item children).Sound (⟨document.fresh⟩ :: tops) :=
  sound.beside (sound.numbered.plant item children) ((Forest.items_number _ _).symm ▸ proper)

/-! ### Other trees in a node's place -/

theorem root_not_below (sound : document.Sound tops)
    (found : document.find? id = some (item, children)) (ne : id ≠ document.root) :
    document.root ∉ id :: children.ids := by
  intro member
  rcases List.mem_cons.mp member with same | below
  · exact ne same.symm
  · exact sound.not_top_of_below found below (sound.mem_tops.mp sound.standing)

/-- What a change in a node's place leaves of a document, whatever becomes of its
tops. -/
theorem splice_of_tops (sound : document.Sound tops)
    (found : document.find? id = some (item, children)) (ne : id ≠ document.root)
    (moreNodup : more.ids.Nodup)
    (apart : ∀ other ∈ more.ids, other ∈ document.forest.ids → other ∈ id :: children.ids)
    (given : ∀ other ∈ more.ids, other.index < document.fresh)
    (proper : more.items.Proper) {left : List NodeId}
    (standing : document.root ∈ (Forest.replace id more document.forest).tops)
    (same : (Forest.replace id more document.forest).tops.Perm left) :
    (document.splice id more).Sound left := by
  have rootOut := sound.root_not_below found ne
  refine ⟨Forest.nodup_replace sound.nodup found moreNodup apart, ?_, same,
    Forest.housed_replace sound.housed proper.housed, ?_, standing, ?_⟩
  · intro other member
    rcases (Forest.mem_ids_replace sound.nodup found).mp member with new | ⟨old, -⟩
    · exact given other new
    · exact sound.given other old
  · obtain ⟨rootItem, below, rootFound, kind⟩ := sound.root
    refine ⟨rootItem, Forest.replace id more below, ?_, kind⟩
    have new : document.root ∉ more.ids :=
      fun member => rootOut (apart _ member (Forest.mem_ids_of_find? rootFound))
    exact (Forest.find?_replace sound.nodup found rootOut new).trans
      (by rw [← Document.find?, rootFound, Option.map_some])
  · intro node member isRoot
    rcases Forest.mem_labels_of_mem_replace member with old | new
    · exact sound.alone node old isRoot
    · rw [proper.rootless _ (Forest.mem_labels_items.mpr ⟨node, new, rfl⟩)] at isRoot
      cases isRoot

/-- A change in the place of a node inside a tree keeps the tops. -/
theorem splice (sound : document.Sound tops)
    (found : document.find? id = some (item, children)) (inner : id ∉ tops)
    (moreNodup : more.ids.Nodup)
    (apart : ∀ other ∈ more.ids, other ∈ document.forest.ids → other ∈ id :: children.ids)
    (given : ∀ other ∈ more.ids, other.index < document.fresh)
    (proper : more.items.Proper) :
    (document.splice id more).Sound tops := by
  have notTop : id ∉ document.forest.tops := fun member => inner (sound.mem_tops.mp member)
  have ne : id ≠ document.root := fun eq => notTop (eq ▸ sound.standing)
  have keeps : (Forest.replace id more document.forest).tops = document.forest.tops :=
    Forest.tops_replace_of_not_mem notTop
  refine sound.splice_of_tops found ne moreNodup apart given proper ?_ ?_
  · rw [keeps]
    exact sound.standing
  · rw [keeps]
    exact sound.tops

/-- A node inside a tree can be dropped. -/
theorem drop (sound : document.Sound tops)
    (found : document.find? id = some (item, children)) (inner : id ∉ tops) :
    (document.splice id .nil).Sound tops :=
  sound.splice found inner List.nodup_nil (by simp) (by simp) Forest.proper_nil

/-- A tree other than the root's can be dropped. -/
theorem fell (sound : document.Sound (top :: tops)) (ne : top ≠ document.root) :
    (document.splice top .nil).Sound tops := by
  obtain ⟨item, children, found⟩ := sound.exists_tree List.mem_cons_self
  obtain ⟨before, after, old, new⟩ :=
    Forest.tops_replace_of_mem sound.nodup (sound.mem_tops.mpr List.mem_cons_self)
  have emptyNodup : (.nil : Forest Node).ids.Nodup := List.nodup_nil
  refine sound.splice_of_tops found ne emptyNodup (by simp) (by simp) Forest.proper_nil
    ?_ ?_
  · have standing := sound.standing
    rw [old] at standing
    rw [new]
    rcases List.mem_append.mp standing with first | later
    · simp [first]
    · simp [(List.mem_cons.mp later).resolve_left (Ne.symm ne)]
  · rw [new, Forest.tops_nil, List.append_nil]
    exact List.Perm.cons_inv (List.perm_middle.symm.trans (old ▸ sound.tops))

/-- The trees that are not changed. -/
theorem find?_splice_elsewhere (sound : document.Sound tops) {other : NodeId}
    (member : top ∈ tops) (found : document.find? top = some (item, children))
    (within : id ∈ top :: children.ids) (otherTop : other ∈ tops) (ne : other ≠ top)
    (new : other ∉ more.ids) : (document.splice id more).find? other = document.find? other := by
  obtain ⟨otherItem, otherChildren, otherFound⟩ := sound.exists_tree otherTop
  have apart := Forest.disjoint_trees sound.nodup (sound.mem_tops.mpr otherTop)
    (sound.mem_tops.mpr member) ne otherFound found
  have inTree : ∃ inner innerChildren, document.find? id = some (inner, innerChildren) ∧
      (id :: innerChildren.ids) ⊆ (top :: children.ids) := by
    rcases List.mem_cons.mp within with rfl | below
    · exact ⟨item, children, found, fun _ member => member⟩
    · obtain ⟨inner, innerChildren, inside⟩ := Forest.exists_find? below
      exact ⟨inner, innerChildren, (Forest.find?_eq_find? sound.nodup found below).trans inside,
        fun _ member => List.mem_cons_of_mem _ ((Forest.ids_sublist_of_find? inside).subset member)⟩
  obtain ⟨inner, innerChildren, foundInner, subset⟩ := inTree
  have outside : other ∉ id :: innerChildren.ids :=
    fun both => apart List.mem_cons_self (subset both)
  have absent : id ∉ otherChildren.ids :=
    fun both => apart (List.mem_cons_of_mem _ both) within
  refine (Forest.find?_replace sound.nodup foundInner outside new).trans ?_
  rw [← Document.find?, otherFound, Option.map_some, Forest.replace_of_not_mem absent]

/-- The trees that stay when one is dropped. -/
theorem find?_fell (sound : document.Sound (top :: tops)) {other : NodeId} (member : other ∈ tops) :
    (document.splice top .nil).find? other = document.find? other := by
  obtain ⟨item, children, found⟩ := sound.exists_tree List.mem_cons_self
  refine sound.find?_splice_elsewhere List.mem_cons_self found List.mem_cons_self
    (List.mem_cons_of_mem _ member) (fun eq => ?_) List.not_mem_nil
  exact (List.nodup_cons.mp sound.nodup_tops).1 (eq ▸ member)

/-! ### Another item -/

theorem retouch (sound : document.Sound tops) {change : Item → Item}
    (keeps : ∀ item, (change item).kind = item.kind) :
    (document.retouch id change).Sound tops := by
  refine ⟨?_, ?_, ?_, Forest.housed_update keeps sound.housed, ?_, ?_, ?_⟩
  · rw [Document.retouch, Forest.ids_update]
    exact sound.nodup
  · rw [Document.retouch, Forest.ids_update]
    exact sound.given
  · rw [Document.retouch, Forest.tops_update]
    exact sound.tops
  · obtain ⟨rootItem, below, found, kind⟩ := sound.root
    refine ⟨_, _, (find?_retouch document id document.root change).trans (by
      rw [found, Option.map_some]), ?_⟩
    split
    · rw [keeps, kind]
    · exact kind
  · rw [Document.retouch, Forest.tops_update]
    exact sound.standing
  · intro node member isRoot
    rw [Document.retouch, Forest.labels_update] at member
    obtain ⟨old, oldMember, rfl⟩ := List.mem_map.mp member
    have kind : (if old.id = id then { old with item := change old.item } else old).item.kind =
        old.item.kind := by
      split
      · exact keeps old.item
      · rfl
    rw [kind] at isRoot
    have := sound.alone old oldMember isRoot
    split <;> exact this

end Sound

end Document

end ApplyRule
