/-
# ApplyRule.Proofs.Replacing -- references, node by node

A reference gives way to the copies of a set's items one node after the other: the
set's rule is copied, the declarations below the copy are indented one by one, each by
what its parent has before it then, the copy's children are put before the reference
in order, and the reference and the copy go.

No edit of this is refused, and it leaves what `Step.substitute` leaves at once
(`Step.substitute_nodewise`): `Edit.cleanIndent_ok` is the indenting, and
`Edit.replaceWith_aside` the rest.
-/
import ApplyRule.Proofs.Aside
import ApplyRule.Proofs.ScopeTree
import ApplyRule.Proofs.Substitution

namespace ApplyRule

set_option autoImplicit false

open Document

theorem forM_append_ok {ε σ β : Type} {first second : List β} {round : β → EStateM ε σ PUnit}
    {state mid : σ} (ran : first.forM round state = .ok () mid) :
    (first ++ second).forM round state = second.forM round mid := by
  have whole : (first ++ second).forM round = (first.forM round >>= fun _ => second.forM round) :=
    List.forM_append
  rw [whole]
  exact bind_ok ran

/-! ## Indenting -/

/-- An item below one that has `outer` before it, indented anew if it is a declaration. -/
def Item.reindent (outer : String) (item : Item) : Item :=
  if item.kind.isDeclaration then
    { item with raws.before := ApplyRule.reindent outer item.raws.before }
  else item

namespace Forest

/-- A forest of nodes below an item that has `outer` before it, with its declarations
indented anew. -/
def indented (outer : String) : Forest Node → Forest Node
  | .nil => .nil
  | .cons node children rest =>
      .cons { node with item := node.item.reindent outer }
        (children.indented (node.item.reindent outer).raws.before) (rest.indented outer)

@[simp] theorem ids_indented (outer : String) (forest : Forest Node) :
    (forest.indented outer).ids = forest.ids := by
  induction forest generalizing outer with
  | nil => rfl
  | cons node below rest ihc ihr => rw [indented, ids_cons, ids_cons, ihc, ihr]

theorem size_reindent (outer : String) (items : Forest Item) :
    (items.reindent outer).size = items.size := by
  induction items generalizing outer with
  | nil => rfl
  | cons item below rest ihc ihr => simp only [reindent, size, ihc, ihr]

/-- Items can be numbered before they are indented. -/
theorem number_reindent (outer : String) (items : Forest Item) (next : Nat) :
    (items.reindent outer).number next = (items.number next).indented outer := by
  induction items generalizing outer next with
  | nil => rfl
  | cons item below rest ihc ihr =>
      simp only [reindent, number, indented, ihc, ihr, size_reindent]
      rfl

end Forest

namespace Edit

/-- Indent a declaration by what its parent has before it. -/
def indent (id : NodeId) : Edit Unit := do
  let some parent := ← ask (·.parent? id) | return
  let above ← ask (·.item? parent)
  updateItem id fun item =>
    { item with raws.before := ApplyRule.reindent above.raws.before item.raws.before }

/-- Indent the declarations below a node, one after the other. -/
def cleanIndent (id : NodeId) : Edit Unit := do
  let declarations ← ask (·.select? Kind.isDeclaration id)
  declarations.forM indent

end Edit

namespace Document

variable {document : Document} {parent : NodeId} {holder : Item}
  {front below rest more : Forest Node} {node : Node}

/-- A change in the place of a child, as a change of its parent. -/
theorem splice_child (nodup : document.forest.ids.Nodup)
    (found : document.find? parent = some (holder, front ++ .cons node below rest)) :
    document.splice node.id more =
      document.splice parent (.tree ⟨parent, holder⟩ (front ++ (more ++ rest))) := by
  have inner := (Forest.nodup_below nodup found).2
  rw [splice, splice, Forest.replace_within nodup found (by simp), Forest.replace_split inner]

theorem splice_self (nodup : document.forest.ids.Nodup)
    (found : document.find? parent = some (holder, below)) :
    document.splice parent (.tree ⟨parent, holder⟩ below) = document := by
  rw [splice, Forest.replace_self nodup found]

theorem splice_splice (document : Document) (parent : NodeId) (holder : Item)
    (below more : Forest Node) :
    (document.splice parent (.tree ⟨parent, holder⟩ below)).splice parent more =
      document.splice parent more := by
  rw [splice, splice, splice, Forest.replace_replace]

theorem find?_splice_self (found : document.find? parent = some (holder, below))
    (more : Forest Node) : (document.splice parent (.tree ⟨parent, holder⟩ more)).find? parent =
      some (holder, more) :=
  Forest.find?_replace_self _ _ (Forest.mem_ids_of_find? found)

/-- Other children with the same identities keep every identity in one place. -/
theorem nodup_splice_self (nodup : document.forest.ids.Nodup)
    (found : document.find? parent = some (holder, below)) (same : more.ids = below.ids) :
    (document.splice parent (.tree ⟨parent, holder⟩ more)).forest.ids.Nodup := by
  refine Forest.nodup_replace nodup found ?_ fun other member _ => ?_
  · rw [Forest.ids_tree, same]
    exact (Forest.ids_sublist_of_find? found).nodup nodup
  · rwa [Forest.ids_tree, same] at member

end Document

namespace Edit

variable {document : Document} {parent : NodeId} {holder : Item}
  {front below rest part : Forest Node} {node : Node}

theorem indent_ok (nodup : document.forest.ids.Nodup)
    (found : document.find? parent = some (holder, front ++ .cons node below rest))
    (declares : node.item.kind.isDeclaration = true) :
    indent node.id document = .ok () (document.splice parent (.tree ⟨parent, holder⟩ (front ++
      .cons { node with item := node.item.reindent holder.raws.before } below rest))) := by
  have child : node.id ∈ (front ++ .cons node below rest).tops := by simp
  obtain ⟨path, lineage⟩ := Forest.lineage?_of_child nodup found child []
  have above : document.parent? node.id = some (some parent) := by
    rw [parent?, Document.lineage?, lineage]
    rfl
  have inside : document.find? node.id = some (node.item, below) :=
    (Forest.find?_eq_find? nodup found (Forest.mem_ids_of_mem_tops child)).trans
      (Forest.find?_split (Forest.nodup_below nodup found).2)
  refine (bind_ok (ask_ok above)).trans ((bind_ok (ask_ok (item?_of_find? found))).trans ?_)
  refine (updateItem_ok inside).trans ?_
  rw [Document.retouch, Forest.update_eq_replace nodup inside]
  show EStateM.Result.ok () (document.splice node.id _) = _
  rw [splice_child nodup found, Item.reindent, if_pos declares]
  rfl

/-- The declarations among the children of a node and below them are indented one by
one, each after those above it. -/
theorem forM_indent (nodup : document.forest.ids.Nodup)
    (found : document.find? parent = some (holder, front ++ part)) :
    ((part.labels.filter fun node => node.item.kind.isDeclaration).map Node.id).forM indent
        document =
      .ok () (document.splice parent (.tree ⟨parent, holder⟩
        (front ++ part.indented holder.raws.before))) := by
  induction part generalizing document parent holder front with
  | nil =>
      rw [Forest.indented, splice_self nodup found]
      rfl
  | cons node below rest ihc ihr =>
      let first : Node := { node with item := node.item.reindent holder.raws.before }
      let one := document.splice parent (.tree ⟨parent, holder⟩ (front ++ .cons first below rest))
      have foundOne : one.find? parent = some (holder, front ++ .cons first below rest) :=
        find?_splice_self found _
      have nodupOne : one.forest.ids.Nodup := nodup_splice_self nodup found (by simp [first])
      -- The first child is indented if it is a declaration.
      have indents : ((if node.item.kind.isDeclaration then [node.id] else []).forM indent)
          document = .ok () one := by
        split
        · rename_i declares
          exact (bind_ok (indent_ok nodup found declares)).trans rfl
        · rename_i other
          have same : first = node := by simp only [first, Item.reindent, if_neg other]
          rw [show one = document by simp only [one, same]; exact splice_self nodup found]
          rfl
      have inside : one.find? first.id = some (first.item, .nil ++ below) :=
        (Forest.find?_eq_find? nodupOne foundOne (by simp)).trans
          (Forest.find?_split (Forest.nodup_below nodupOne foundOne).2)
      -- What is below it follows, by what it has before it now, and then the other children.
      have ranBelow := ihc nodupOne inside
      rw [splice_child nodupOne foundOne, splice_splice] at ranBelow
      let grown := front ++ Forest.tree first (below.indented first.item.raws.before)
      have foundTwo : (document.splice parent (.tree ⟨parent, holder⟩ (grown ++ rest))).find?
          parent = some (holder, grown ++ rest) := find?_splice_self found _
      have nodupTwo : (document.splice parent
          (.tree ⟨parent, holder⟩ (grown ++ rest))).forest.ids.Nodup :=
        nodup_splice_self nodup found (by simp [grown, Forest.ids_tree, first])
      have ranRest := ihr nodupTwo foundTwo
      rw [splice_splice] at ranRest
      have order : ((Forest.cons node below rest).labels.filter
          fun node => node.item.kind.isDeclaration).map Node.id =
            (if node.item.kind.isDeclaration then [node.id] else []) ++
              (((below.labels.filter fun node => node.item.kind.isDeclaration).map Node.id) ++
                ((rest.labels.filter fun node => node.item.kind.isDeclaration).map Node.id)) := by
        rw [Forest.labels, List.filter_cons, List.filter_append]
        split <;> simp
      rw [order, forM_append_ok indents, forM_append_ok ranBelow]
      have assoc :
          front ++ (Forest.tree first (.nil ++ below.indented first.item.raws.before) ++ rest) =
            grown ++ rest := (Forest.append_assoc ..).symm
      refine (congrArg _ (congrArg _ (congrArg _ assoc))).trans (ranRest.trans ?_)
      rw [Forest.append_assoc]
      rfl

/-- Below a node the declarations are indented as the whole tree is. -/
theorem cleanIndent_ok {id : NodeId} {item : Item} {children : Forest Node}
    (nodup : document.forest.ids.Nodup) (found : document.find? id = some (item, children)) :
    cleanIndent id document =
      .ok () (document.splice id (.tree ⟨id, item⟩ (children.indented item.raws.before))) := by
  have listed : document.select? Kind.isDeclaration id =
      some ((children.labels.filter fun node => node.item.kind.isDeclaration).map Node.id) := by
    rw [select?, below?, found]
    rfl
  exact (bind_ok (ask_ok listed)).trans (forM_indent nodup (Forest.nil_append children ▸ found))

end Edit

/-! ## Putting nodes in a node's place -/

namespace Document

variable {document : Document} {reference parent : NodeId} {item holder : Item}
  {below siblings done left : Forest Node} {donor : Node} {fresh : Nat}

theorem Numbered.of_subperm {after : Document} (numbered : document.Numbered)
    (fewer : after.forest.ids.Subperm document.forest.ids) (later : document.fresh ≤ after.fresh) :
    after.Numbered := by
  obtain ⟨list, perm, sublist⟩ := fewer
  refine ⟨perm.nodup_iff.mp (sublist.nodup numbered.nodup), fun id member => ?_⟩
  exact Nat.lt_of_lt_of_le (numbered.given id (sublist.subset (perm.mem_iff.mpr member))) later

/-- A document in which some trees stand before a node, and others wait below a node
that stands apart. -/
def underway (document : Document) (reference : NodeId) (item : Item) (below : Forest Node)
    (donor : Node) (fresh : Nat) (done left : Forest Node) : Document :=
  (document.splice reference (done ++ .tree ⟨reference, item⟩ below)).aside (.tree donor left) fresh

theorem Numbered.underway (numbered : (document.aside (.tree donor (done ++ left)) fresh).Numbered)
    (nodup : document.forest.ids.Nodup) (found : document.find? reference = some (item, below)) :
    (document.underway reference item below donor fresh done left).Numbered := by
  refine numbered.of_subperm (List.Perm.subperm ?_) (Nat.le_refl _)
  obtain ⟨before, after, old, new⟩ := Forest.labels_replace nodup found
  have oldIds : document.forest.ids =
      before.map Node.id ++ (reference :: below.ids) ++ after.map Node.id := by
    simp [Forest.ids, old]
  have newIds : (document.splice reference (done ++ .tree ⟨reference, item⟩ below)).forest.ids =
      before.map Node.id ++ (done.ids ++ reference :: below.ids) ++ after.map Node.id := by
    rw [splice, Forest.ids, new]
    simp [Forest.ids, Forest.tree, Forest.labels]
  rw [List.perm_iff_count]
  intro other
  rw [Document.underway, aside, aside, Forest.ids_append, Forest.ids_append, newIds, oldIds]
  simp only [Forest.ids_tree, Forest.ids_append, List.count_append, List.count_cons]
  omega

/-- A node is not below its own child. -/
theorem parent_not_below (nodup : document.forest.ids.Nodup)
    (found : document.find? reference = some (item, below))
    (held : document.find? parent = some (holder, siblings)) (child : reference ∈ siblings.tops) :
    parent ∉ reference :: below.ids := by
  have within := Forest.mem_ids_of_mem_tops child
  have inside := (Forest.find?_eq_find? nodup held within).symm.trans found
  exact fun member => (Forest.nodup_below nodup held).1
    ((Forest.ids_sublist_of_find? inside).subset member)

theorem find?_underway (numbered : (document.aside (.tree donor (done ++ left)) fresh).Numbered)
    (nodup : document.forest.ids.Nodup) (found : document.find? reference = some (item, below))
    (held : document.find? parent = some (holder, siblings)) (child : reference ∈ siblings.tops) :
    (document.underway reference item below donor fresh done left).find? parent =
      some (holder, Forest.replace reference (done ++ .tree ⟨reference, item⟩ below) siblings) := by
  have outside := parent_not_below nodup found held child
  have old := Forest.mem_ids_of_find? held
  have new : parent ∉ (done ++ .tree ⟨reference, item⟩ below).ids := by
    rw [Forest.ids_append, List.mem_append, not_or, Forest.ids_tree]
    refine ⟨fun member => numbered.apart_aside ?_ old, outside⟩
    rw [Forest.ids_tree, Forest.ids_append]
    exact List.mem_cons_of_mem _ (List.mem_append_left _ member)
  have changed : (document.splice reference (done ++ .tree ⟨reference, item⟩ below)).find? parent =
      some (holder, Forest.replace reference (done ++ .tree ⟨reference, item⟩ below) siblings) :=
    (Forest.find?_replace nodup found outside new).trans (by rw [← find?, held, Option.map_some])
  exact (find?_aside_old (Forest.mem_ids_of_find? changed)).trans changed

theorem parent?_underway (numbered : (document.aside (.tree donor (done ++ left)) fresh).Numbered)
    (nodup : document.forest.ids.Nodup) (found : document.find? reference = some (item, below))
    (held : document.find? parent = some (holder, siblings)) (child : reference ∈ siblings.tops) :
    (document.underway reference item below donor fresh done left).parent? reference =
      some (some parent) := by
  obtain ⟨before, after, -, new⟩ :=
    Forest.tops_replace_of_mem (Forest.nodup_below nodup held).2 child
  have stays : reference ∈
      (Forest.replace reference (done ++ .tree ⟨reference, item⟩ below) siblings).tops := by
    rw [new]
    simp [Forest.tree]
  obtain ⟨path, lineage⟩ := Forest.lineage?_of_child (numbered.underway nodup found).nodup
    (find?_underway numbered nodup found held child) stays []
  rw [parent?, lineage?, lineage]
  rfl

/-- The first tree that waits goes before the node. -/
theorem moved_underway {node : Node} {inner rest : Forest Node}
    (numbered : (document.aside (.tree donor (done ++ .cons node inner rest)) fresh).Numbered)
    (nodup : document.forest.ids.Nodup) (found : document.find? reference = some (item, below)) :
    (document.underway reference item below donor fresh done (.cons node inner rest)).moved node.id
        node.item inner (Forest.insertBefore reference) =
      document.underway reference item below donor fresh (done ++ .tree node inner) rest := by
  let placed := document.splice reference (done ++ .tree ⟨reference, item⟩ below)
  have member : reference ∈ document.forest.ids := Forest.mem_ids_of_find? found
  have among := numbered.underway nodup found
  have apart := among.nodup_aside
  rw [Forest.ids_tree, Forest.ids_cons, List.nodup_cons, List.mem_cons, not_or,
    List.nodup_cons] at apart
  have notRest : node.id ∉ rest.ids := fun both => apart.2.1 (List.mem_append_right _ both)
  have notDone : reference ∉ done.ids := fun both =>
    numbered.apart_aside (by simp [Forest.ids_tree, both]) member
  have notWaiting : reference ∉ (Forest.tree donor rest).ids := fun both => by
    refine numbered.apart_aside ?_ member
    rw [Forest.ids_tree, Forest.ids_append, Forest.ids_cons]
    rcases List.mem_cons.mp (Forest.mem_ids_tree.mp both) with rfl | later
    · exact List.mem_cons_self
    · simp [later]
  -- It leaves the trees that wait, and is put before the node where that stands.
  have pruned : (placed.aside (.tree donor (.cons node inner rest)) fresh).forest.prune node.id =
      placed.forest ++ .tree donor rest := by
    have waits : (Forest.tree donor (.cons node inner rest)).prune node.id = .tree donor rest := by
      simp [Forest.tree, Forest.prune, apart.1.1, Forest.prune_of_not_mem notRest]
    rw [← waits]
    exact Forest.prune_append_right (among.apart_aside (by simp [Forest.ids_tree]))
  have acts := Forest.local_insertBefore reference (.tree node inner)
  have put : Forest.insertBefore reference (.tree node inner) placed.forest =
      (document.splice reference
        ((done ++ .tree node inner) ++ .tree ⟨reference, item⟩ below)).forest := by
    show Forest.insertBefore _ _ (Forest.replace _ _ _) = _
    rw [acts.replace nodup, acts.append_right notDone, Forest.append_assoc done]
    simp only [Forest.tree, Forest.insertBefore, if_true]
    rfl
  rw [moved, underway, pruned, acts.append_left notWaiting, put]
  rfl

end Document

namespace Edit

variable {document : Document} {reference parent : NodeId} {item holder : Item}
  {below siblings done inner rest : Forest Node} {donor node : Node} {fresh : Nat}

/-- The first child that waits is put before the node. -/
theorem insertBefore_underway
    (numbered : (document.aside (.tree donor (done ++ .cons node inner rest)) fresh).Numbered)
    (nodup : document.forest.ids.Nodup) (found : document.find? reference = some (item, below))
    (held : document.find? parent = some (holder, siblings)) (child : reference ∈ siblings.tops)
    (houses : holder.kind.isContainer = true) :
    insertBefore reference node.id
        (document.underway reference item below donor fresh done (.cons node inner rest)) =
      .ok ()
        (document.underway reference item below donor fresh (done ++ .tree node inner) rest) := by
  let before := document.underway reference item below donor fresh done (.cons node inner rest)
  have among := numbered.underway nodup found
  have aside : ∀ id ∈ node.id :: inner.ids, id ∉ document.forest.ids := by
    intro id member
    refine numbered.apart_aside ?_
    rw [Forest.ids_tree, Forest.ids_append, Forest.ids_cons]
    rcases List.mem_cons.mp member with rfl | deeper
    · simp
    · simp [deeper]
  have foundNode : before.find? node.id = some (node.item, inner) := by
    have waits : (Forest.tree donor (.cons node inner rest)).find? node.id =
        some (node.item, inner) := by
      have apart := among.nodup_aside
      rw [Forest.ids_tree, Forest.ids_cons, List.nodup_cons, List.mem_cons, not_or] at apart
      rw [Forest.tree, Forest.find?, if_neg apart.1.1, Forest.find?_cons_self]
      rfl
    exact (among.find?_aside (Forest.mem_ids_of_find? waits)).trans waits
  have ne : reference ≠ node.id := fun eq =>
    aside node.id List.mem_cons_self (eq ▸ Forest.mem_ids_of_find? found)
  have may : before.Insertable parent node.id :=
    ⟨⟨holder, _, find?_underway numbered nodup found held child, houses⟩, node.item, inner,
      foundNode, fun member => aside parent member (Forest.mem_ids_of_find? held)⟩
  refine (bind_ok (ask_ok (parent?_underway numbered nodup found held child))).trans ?_
  refine (bind_ok (may.check among.nodup)).trans ?_
  rw [if_neg ne]
  exact (move_ok foundNode).trans (by rw [moved_underway numbered nodup found])

/-- All children that wait are put before the node, in order. -/
theorem forM_insertBefore {left : Forest Node}
    (numbered : (document.aside (.tree donor (done ++ left)) fresh).Numbered)
    (nodup : document.forest.ids.Nodup) (found : document.find? reference = some (item, below))
    (held : document.find? parent = some (holder, siblings)) (child : reference ∈ siblings.tops)
    (houses : holder.kind.isContainer = true) :
    left.tops.forM (insertBefore reference)
        (document.underway reference item below donor fresh done left) =
      .ok () (document.underway reference item below donor fresh (done ++ left) .nil) := by
  induction left generalizing done with
  | nil =>
      rw [Forest.append_nil]
      rfl
  | cons node inner rest _ ih =>
      have first := insertBefore_underway numbered nodup found held child houses
      have assoc : done ++ .tree node inner ++ rest = done ++ .cons node inner rest :=
        Forest.append_assoc ..
      have others := ih (assoc.symm ▸ numbered)
      rw [assoc] at others
      exact (bind_ok first).trans others

/-- Behind another child, a node has no heir. -/
theorem heir?_of_not_first {first : NodeId} {tail : List NodeId} {holds : Forest Node}
    (above : document.parent? reference = some (some parent))
    (held : document.find? parent = some (holder, holds)) (order : holds.tops = first :: tail)
    (ne : first ≠ reference) : heir? document reference = none := by
  have listed : document.children? parent = some (first :: tail) := by
    rw [children?, held, Option.map_some]
    exact congrArg some order
  unfold heir?
  simp only [above, listed, Option.bind_eq_bind, Option.bind_some]
  cases tail with
  | nil => simp
  | cons second rest => simp [ne]

theorem outside_aside {left : Forest Node}
    (numbered : (document.aside (.tree donor left) fresh).Numbered)
    (found : document.find? reference = some (item, below)) :
    reference ∉ (Forest.tree donor left).ids :=
  fun member => numbered.apart_aside member (Forest.mem_ids_of_find? found)

/-- Without the node, those that were put before it are left. -/
theorem pruned_underway {children : Forest Node}
    (numbered : (document.aside (.tree donor children) fresh).Numbered)
    (nodup : document.forest.ids.Nodup) (found : document.find? reference = some (item, below)) :
    (document.underway reference item below donor fresh children .nil).pruned reference =
      (document.splice reference children).aside (.tree donor .nil) fresh := by
  have whole : (document.aside (.tree donor (children ++ .nil)) fresh).Numbered :=
    (Forest.append_nil children).symm ▸ numbered
  have numberedPut := whole.underway nodup found
  have apart := outside_aside numbered found
  rw [Forest.ids_tree, List.mem_cons, not_or] at apart
  have notDonor : reference ∉ (Forest.tree donor .nil).ids := by
    simpa [Forest.ids_tree] using apart.1
  have acts := Forest.local_replace reference .nil
  have placed : (document.underway reference item below donor fresh children .nil).forest =
      Forest.replace reference (children ++ .tree ⟨reference, item⟩ below) document.forest ++
        .tree donor .nil := rfl
  have left : Forest.replace reference .nil (children ++ .tree ⟨reference, item⟩ below) =
      children := by
    rw [acts.append_right apart.2]
    simp only [Forest.tree, Forest.replace, if_true, Forest.append_nil]
  rw [Document.pruned, Forest.prune_eq_replace numberedPut.nodup, placed, acts.append_left notDonor,
    acts.replace nodup, left]
  rfl

/-- Behind another child of its parent, a node is only dropped. -/
theorem remove_underway
    (numbered : (document.aside (.tree donor (.cons node inner rest)) fresh).Numbered)
    (nodup : document.forest.ids.Nodup) (found : document.find? reference = some (item, below))
    (held : document.find? parent = some (holder, siblings)) (child : reference ∈ siblings.tops) :
    let left := (document.splice reference (.cons node inner rest)).aside (.tree donor .nil) fresh
    remove reference
        (document.underway reference item below donor fresh (.cons node inner rest) .nil) =
      .ok () left ∧ left.Numbered := by
  let children : Forest Node := .cons node inner rest
  let put := document.underway reference item below donor fresh children .nil
  have whole : (document.aside (.tree donor (children ++ .nil)) fresh).Numbered :=
    (Forest.append_nil children).symm ▸ numbered
  have apart := outside_aside numbered found
  rw [Forest.ids_tree, List.mem_cons, not_or] at apart
  obtain ⟨before, after, old, new⟩ :=
    Forest.tops_replace_of_mem (Forest.nodup_below nodup held).2 child
  have notBefore : reference ∉ before := by
    have distinct := siblings.tops_sublist.nodup (Forest.nodup_below nodup held).2
    rw [old] at distinct
    exact fun both => (List.nodup_append'.mp distinct).2.2 both List.mem_cons_self
  have order : ∃ first tail, (Forest.replace reference (children ++ .tree ⟨reference, item⟩ below)
      siblings).tops = first :: tail ∧ first ≠ reference := by
    rw [new]
    cases before with
    | nil => exact ⟨node.id, _, rfl, fun eq => apart.2 (by simp [eq])⟩
    | cons first others => exact ⟨first, _, rfl, fun eq => notBefore (by simp [eq])⟩
  obtain ⟨first, tail, listed, ne⟩ := order
  have alone : heir? put reference = none :=
    heir?_of_not_first (parent?_underway whole nodup found held child)
      (find?_underway whole nodup found held child) listed ne
  have there : reference ∈ put.forest.ids := by
    show reference ∈ (Forest.replace _ _ document.forest ++ _).ids
    rw [Forest.ids_append, List.mem_append]
    exact .inl ((Forest.mem_ids_replace nodup found).mpr (.inl (by simp [Forest.ids_tree])))
  obtain ⟨own, inside, foundPut⟩ := Forest.exists_find? there
  have foundPut : put.find? reference = some (own, inside) := foundPut
  have left := pruned_underway numbered nodup found
  refine ⟨?_, left ▸ (whole.underway nodup found).pruned foundPut⟩
  refine (bind_ok (ask_ok (item?_of_find? foundPut))).trans ((bind_ok (get_ok put)).trans ?_)
  rw [alone]
  exact (destroy_eq foundPut).trans (by rw [left])

/-- **The children of a tree in a node's place, one by one.**  Putting them before the
node and dropping the node and the tree is what `replaceByChildren` does. -/
theorem replaceWith_aside {children : Forest Node}
    (numbered : (document.aside (.tree donor children) fresh).Numbered)
    (nodup : document.forest.ids.Nodup) (found : document.find? reference = some (item, below))
    (held : document.find? parent = some (holder, siblings)) (child : reference ∈ siblings.tops)
    (houses : holder.kind.isContainer = true) :
    (do replaceWith reference children.tops
        destroy donor.id) (document.aside (.tree donor children) fresh) =
      replaceByChildren reference donor.id (document.aside (.tree donor children) fresh) := by
  have foundDonor : (document.aside (.tree donor children) fresh).find? donor.id =
      some (donor.item, children) :=
    (numbered.find?_aside (Forest.mem_ids_tree.mpr List.mem_cons_self)).trans
      (Forest.find?_cons_self ..)
  unfold replaceByChildren
  rw [bind_ok (ask_ok foundDonor)]
  cases children with
  | nil => rfl
  | cons node inner rest =>
      let children : Forest Node := .cons node inner rest
      have begins : document.underway reference item below donor fresh .nil children =
          document.aside (.tree donor children) fresh := by
        rw [Document.underway, Forest.nil_append, splice_self nodup found]
      have whole : (document.aside (.tree donor (.nil ++ children)) fresh).Numbered := numbered
      have looped := forM_insertBefore whole nodup found held child houses
      have above := parent?_underway whole nodup found held child
      have holds := find?_underway whole nodup found held child
      rw [begins, Forest.nil_append] at looped
      rw [begins] at above holds
      obtain ⟨removed, numberedLeft⟩ := remove_underway numbered nodup found held child
      have dropped := destroy_aside numberedLeft (Forest.mem_ids_tree.mpr List.mem_cons_self)
      have gone : (Forest.tree donor .nil).prune donor.id = .nil := by
        simp [Forest.tree, Forest.prune]
      rw [gone] at dropped
      refine (bind_ok ((bind_ok looped).trans removed)).trans (dropped.trans ?_)
      refine Eq.symm ((bind_ok (ask_ok above)).trans ?_)
      refine (bind_ok (ask_ok (kind?_of_find? holds))).trans ?_
      simp only [houses, if_true]
      have left : (document.aside (.tree donor children) fresh).forest.prune donor.id =
          document.forest := by
        rw [aside, Forest.prune_append_right
          (numbered.apart_aside (Forest.mem_ids_tree.mpr List.mem_cons_self))]
        simp [Forest.tree, Forest.prune]
      show EStateM.Result.ok () (Document.mk (Forest.replace reference children
        (Forest.prune donor.id _)) _ _) = _
      rw [left, aside_nil]
      rfl

/-- Put copies of what a set's rule holds in a reference's place, node by node. -/
def substitute (reference set : NodeId) : Edit Unit := do
  let copied ← copy set
  cleanIndent copied
  let nodes ← ask (·.children? copied)
  replaceWith reference nodes
  destroy copied

/-- A copy that was indented node by node is one that was indented before. -/
theorem cleanIndent_plant {rule : Item} {body : Forest Item} (numbered : document.Numbered) :
    cleanIndent ⟨document.fresh⟩ (document.plant rule body) =
      .ok () (document.plant rule (body.reindent rule.raws.before)) := by
  have planted := numbered.plant rule body
  rw [cleanIndent_ok planted.nodup (numbered.find?_plant_self rule body), ← Forest.number_reindent]
  have acts := Forest.local_replace (⟨document.fresh⟩ : NodeId)
    (.tree ⟨⟨document.fresh⟩, rule⟩
      ((body.reindent rule.raws.before).number (document.fresh + 1)))
  have size : (Forest.tree rule (body.reindent rule.raws.before)).size =
      (Forest.tree rule body).size := by
    simp only [Forest.tree, Forest.size, Forest.size_reindent]
  refine congrArg (EStateM.Result.ok ()) ?_
  rw [Document.splice, Document.plant, acts.append_right numbered.new_not_mem, Document.plant, size]
  simp only [Forest.tree, Forest.number, Forest.replace, if_true, Forest.append_nil]

/-- **A reference gives way node by node.**  Where it has a parent that can hold nodes,
no edit is refused for what the copying and indenting leave. -/
theorem substitute_eq {set : NodeId} {rule : Item} {body : Forest Node}
    (numbered : document.Numbered) (setFound : document.find? set = some (rule, body))
    (found : document.find? reference = some (item, below))
    (held : document.find? parent = some (holder, siblings)) (child : reference ∈ siblings.tops)
    (houses : holder.kind.isContainer = true) :
    substitute reference set document = replaceByChildren reference ⟨document.fresh⟩
      (document.plant rule (body.items.reindent rule.raws.before)) := by
  let inner := body.items.reindent rule.raws.before
  have planted := numbered.plant rule inner
  have copied : copy set document = .ok ⟨document.fresh⟩ (document.plant rule body.items) :=
    (bind_ok (ask_ok setFound)).trans rfl
  have listed : (document.plant rule inner).children? ⟨document.fresh⟩ =
      some (inner.number (document.fresh + 1)).tops := by
    rw [children?, numbered.find?_plant_self rule inner]
    rfl
  refine (bind_ok copied).trans ((bind_ok (cleanIndent_plant numbered)).trans ?_)
  refine (bind_ok (ask_ok listed)).trans ?_
  exact replaceWith_aside planted numbered.nodup found held child houses

end Edit

/-- **References are resolved node by node.**  In a tidy pass, what a reference gives
way to is the same as that of `substitute`, and no edit is refused. -/
theorem Step.substitute_nodewise {pass : Pass} {reference set : NodeId} {item : Item}
    {below : Forest Node} (tidy : pass.Tidy [] [])
    (found : pass.document.find? reference = some (item, below))
    (inside : reference ∉ pass.document.root :: (pass.registry.ids ++ [] ++ []))
    (registered : set ∈ pass.registry.ids) :
    ∃ after, edit (Edit.substitute reference set) pass = .ok () after ∧
      substitute reference set pass = .ok () after := by
  obtain ⟨rule, body, setFound⟩ := tidy.sound.exists_tree (mem_tops_of_registered registered)
  obtain ⟨after, -, ran, -⟩ := resolved_substitute tidy found inside registered setFound
  rcases tidy.sound.parent?_cases (Forest.mem_ids_of_find? found) with
    ⟨top, -⟩ | ⟨parent, holder, siblings, -, held, child⟩
  · exact absurd top inside
  have houses : holder.kind.isContainer = true := by
    refine (Forest.housed_of_find? tidy.sound.housed held).1.resolve_left fun empty => ?_
    rw [empty] at child
    cases child
  have numbered := tidy.sound.numbered
  let copied : Pass :=
    { pass with document := pass.document.plant rule (body.items.reindent rule.raws.before) }
  have planted : edit (Edit.plant rule (body.items.reindent rule.raws.before)) pass =
      .ok ⟨pass.document.fresh⟩ copied := edit_ok rfl
  have atOnce : substitute reference set pass =
      edit (Edit.replaceByChildren reference ⟨pass.document.fresh⟩) copied :=
    (bind_ok (ask_ok setFound)).trans (bind_ok planted)
  refine ⟨after, ?_, ran⟩
  rw [← ran, atOnce, edit, Edit.substitute_eq numbered setFound found held child houses]
  rfl

end ApplyRule
