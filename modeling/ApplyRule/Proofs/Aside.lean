/-
# ApplyRule.Proofs.Aside -- trees that stand apart

New trees stand apart from a document's own until they are put somewhere.
`Document.aside document more fresh` is the document with the trees `more` beside its
own.  An edit of a node in `more` changes `more` and leaves the rest
(`destroy_aside`, `restamp_aside`, `detach_aside`, `append_aside`), and the document
keeps one identity for each node as long as `more` takes no other identities
(`Numbered.fewer`).
-/
import ApplyRule.Proofs.Building
import Mathlib.Data.List.Perm.Subperm

namespace ApplyRule

set_option autoImplicit false

namespace Forest

variable {first second : Forest Node} {id : NodeId}

theorem ids_prune_sublist (forest : Forest Node) (id : NodeId) :
    (forest.prune id).ids.Sublist forest.ids := by
  induction forest with
  | nil => exact List.Sublist.refl _
  | cons node below rest ihc ihr =>
      rw [prune, ids_cons]
      split
      · exact (ihr.trans (List.sublist_append_right _ _)).cons _
      · rw [ids_cons]
        exact (ihc.append ihr).cons_cons _

theorem prune_append_right (absent : id ∉ first.ids) :
    (first ++ second).prune id = first ++ second.prune id := by
  rw [prune_append, prune_of_not_mem absent]

end Forest

namespace Document

variable {document : Document} {more left : Forest Node} {fresh next : Nat} {id : NodeId}
  {item : Item} {children : Forest Node}

/-- The document with more trees that stand apart, and another identity to give out
next. -/
def aside (document : Document) (more : Forest Node) (fresh : Nat) : Document :=
  { document with forest := document.forest ++ more, fresh := fresh }

theorem aside_nil (document : Document) (fresh : Nat) :
    document.aside .nil fresh = { document with fresh := fresh } := by
  rw [aside, Forest.append_nil]

theorem aside_aside (document : Document) (first second : Forest Node) (fresh next : Nat) :
    (document.aside first fresh).aside second next = document.aside (first ++ second) next := by
  rw [aside, aside, aside, Forest.append_assoc]

theorem plant_eq_aside (document : Document) (item : Item) (items : Forest Item) :
    document.plant item items =
      document.aside ((Forest.tree item items).number document.fresh)
        (document.fresh + (Forest.tree item items).size) := rfl

/-! ## Identities -/

/-- Trees with no other identities can stand there instead. -/
theorem Numbered.fewer (numbered : (document.aside more fresh).Numbered)
    (fewer : left.ids.Subperm more.ids) (later : fresh ≤ next) :
    (document.aside left next).Numbered := by
  have nodup := numbered.nodup
  rw [aside, Forest.ids_append, List.nodup_append'] at nodup
  obtain ⟨own, others, apart⟩ := nodup
  obtain ⟨list, perm, sublist⟩ := fewer
  refine ⟨?_, fun id member => Nat.lt_of_lt_of_le (numbered.given id ?_) later⟩
  · rw [aside, Forest.ids_append, List.nodup_append']
    exact ⟨own, perm.nodup_iff.mp (sublist.nodup others), fun id old new =>
      apart old (sublist.subset (perm.mem_iff.mpr new))⟩
  · rw [aside, Forest.ids_append, List.mem_append] at member ⊢
    exact member.imp_right fun new => sublist.subset (perm.mem_iff.mpr new)

theorem Numbered.apart_aside (numbered : (document.aside more fresh).Numbered)
    (member : id ∈ more.ids) : id ∉ document.forest.ids := by
  have nodup := numbered.nodup
  rw [aside, Forest.ids_append, List.nodup_append'] at nodup
  exact fun old => nodup.2.2 old member

theorem Numbered.nodup_aside (numbered : (document.aside more fresh).Numbered) :
    more.ids.Nodup := by
  have nodup := numbered.nodup
  rw [aside, Forest.ids_append, List.nodup_append'] at nodup
  exact nodup.2.1

theorem Numbered.find?_aside (numbered : (document.aside more fresh).Numbered)
    (member : id ∈ more.ids) : (document.aside more fresh).find? id = more.find? id := by
  rw [find?, aside, Forest.find?_append, Forest.find?_of_not_mem (numbered.apart_aside member),
    Option.none_or]

theorem find?_aside_old (member : id ∈ document.forest.ids) :
    (document.aside more fresh).find? id = document.find? id := by
  obtain ⟨_, _, found⟩ := Forest.exists_find? member
  rw [find?, aside, Forest.find?_append, found, Option.some_or, find?, found]

end Document

/-! ## Edits -/

namespace Edit

open Document

variable {document : Document} {more : Forest Node} {fresh : Nat} {id : NodeId}
  {item : Item} {children : Forest Node}

theorem destroy_aside (numbered : (document.aside more fresh).Numbered) (member : id ∈ more.ids) :
    destroy id (document.aside more fresh) = .ok () (document.aside (more.prune id) fresh) := by
  obtain ⟨item, children, found⟩ := Forest.exists_find? member
  rw [destroy_eq ((numbered.find?_aside member).trans found), Document.pruned]
  simp only [aside, Forest.prune_append_right (numbered.apart_aside member)]

theorem restamp_aside (numbered : (document.aside more fresh).Numbered) (member : id ∈ more.ids)
    (source : Option Text.Location) :
    restamp id source (document.aside more fresh) =
      .ok () (document.aside (more.updateTree id (Item.stamp source)) fresh) := by
  obtain ⟨item, children, found⟩ := Forest.exists_find? member
  refine (bind_ok (ask_ok (item?_of_find? ((numbered.find?_aside member).trans found)))).trans ?_
  show EStateM.Result.ok () { document.aside more fresh with
    forest := (document.forest ++ more).updateTree id (Item.stamp source) } = _
  rw [(Forest.local_updateTree _ _).append_right (numbered.apart_aside member)]
  rfl

/-- A node that has a parent is taken out of its place. -/
theorem detach_aside (numbered : (document.aside more fresh).Numbered) {parent : NodeId}
    {holder : Item} {siblings : Forest Node} (held : more.find? parent = some (holder, siblings))
    (child : id ∈ siblings.tops) (found : siblings.find? id = some (item, children)) :
    detach id (document.aside more fresh) =
      .ok () (document.aside (more.prune id ++ Forest.tree ⟨id, item⟩ children) fresh) := by
  have within := Forest.mem_ids_of_mem_tops child
  have member := Forest.mem_ids_below held within
  have inside := (Forest.find?_eq_find? numbered.nodup_aside held within).trans found
  have parentFound := (numbered.find?_aside (Forest.mem_ids_of_find? held)).trans held
  obtain ⟨path, lineage⟩ := Forest.lineage?_of_child numbered.nodup parentFound child []
  have above : (document.aside more fresh).parent? id = some (some parent) := by
    rw [parent?, Document.lineage?, lineage]
    rfl
  have taken : detach id (document.aside more fresh) =
      .ok () ((document.aside more fresh).apart id item children) :=
    (bind_ok (ask_ok ((numbered.find?_aside member).trans inside))).trans
      ((bind_ok (ask_ok above)).trans rfl)
  rw [taken]
  simp only [Document.apart, aside, Forest.prune_append_right (numbered.apart_aside member),
    Forest.append_assoc]

/-- A node is put below another that is not below it. -/
theorem append_aside (numbered : (document.aside more fresh).Numbered) {parent : NodeId}
    {holder : Item} {siblings : Forest Node} (held : more.find? parent = some (holder, siblings))
    (houses : holder.kind.isContainer = true) (found : more.find? id = some (item, children))
    (outside : parent ∉ id :: children.ids) :
    append parent id (document.aside more fresh) =
      .ok () (document.aside (Forest.adopt parent (.tree ⟨id, item⟩ children) (more.prune id))
        fresh) := by
  have parentIn := Forest.mem_ids_of_find? held
  have member := Forest.mem_ids_of_find? found
  have whole := (numbered.find?_aside member).trans found
  have may : (document.aside more fresh).Insertable parent id :=
    ⟨⟨holder, siblings, (numbered.find?_aside parentIn).trans held, houses⟩, item, children, whole,
      outside⟩
  refine (bind_ok (may.check numbered.nodup)).trans ((move_ok whole).trans ?_)
  simp only [Document.moved, aside, Forest.prune_append_right (numbered.apart_aside member),
    (Forest.local_adopt _ _).append_right (numbered.apart_aside parentIn)]

end Edit

end ApplyRule
