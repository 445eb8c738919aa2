/-
# ApplyRule.Proofs.Editing -- edits of sound documents succeed

An edit of a sound document is refused only when its arguments are wrong.  Here
are the edits that a pass makes, each with what it needs and the document it
leaves: `destroy_ok`, `updateItem_ok`, `Sound.remove`, `Sound.insertAfter` and
`Sound.replaceByChildren`.

`Document.Scope document scope children` says that a rule with these children
stands in the tree under the root.
-/
import ApplyRule.Proofs.Outcome
import ApplyRule.Proofs.SoundDocument
import Mathlib.Data.Option.Basic

namespace ApplyRule

set_option autoImplicit false

theorem Kind.of_isRule {kind : Kind} (rule : kind.isRule = true) :
    kind.isRoot = false ∧ kind.isContainer = true := by
  cases kind with
  | rule selector => exact ⟨rfl, rfl⟩
  | _ => cases rule

namespace Document

variable {document : Document} {tops : List NodeId} {id top scope : NodeId} {item : Item}
  {children more : Forest Node}

/-! ## Questions -/

theorem item?_of_find? (found : document.find? id = some (item, children)) :
    document.item? id = some item := by
  rw [item?, found, Option.map_some]

theorem kind?_of_find? (found : document.find? id = some (item, children)) :
    document.kind? id = some item.kind := by
  rw [kind?, item?_of_find? found, Option.map_some]

theorem find?_of_kind? {kind : Kind} (known : document.kind? id = some kind) :
    ∃ item children, document.find? id = some (item, children) ∧ item.kind = kind := by
  cases found : document.find? id with
  | none => simp [kind?, item?, found] at known
  | some pair =>
      rw [kind?_of_find? found] at known
      exact ⟨pair.1, pair.2, rfl, Option.some.inj known⟩

theorem isKind_iff {p : Kind → Bool} : document.isKind p id = true ↔
    ∃ item children, document.find? id = some (item, children) ∧ p item.kind = true := by
  constructor
  · intro holds
    cases known : document.kind? id with
    | none => simp [isKind, known] at holds
    | some kind =>
        obtain ⟨item, children, found, rfl⟩ := find?_of_kind? known
        refine ⟨item, children, found, ?_⟩
        simpa [isKind, known] using holds
  · rintro ⟨item, children, found, holds⟩
    simp [isKind, kind?_of_find? found, holds]

namespace Sound

theorem parent?_top (sound : document.Sound tops) (member : top ∈ tops) :
    document.parent? top = some none := by
  rw [parent?, lineage?, Forest.lineage?_of_mem_tops sound.nodup (sound.mem_tops.mpr member)]
  rfl

theorem parent?_child (sound : document.Sound tops)
    (found : document.find? scope = some (item, children)) (child : id ∈ children.tops) :
    document.parent? id = some (some scope) := by
  obtain ⟨path, eq⟩ := Forest.lineage?_of_child sound.nodup found child []
  rw [parent?, lineage?, eq]
  rfl

/-- A node that is there is a top, or has a parent. -/
theorem parent?_cases (sound : document.Sound tops) (member : id ∈ document.forest.ids) :
    id ∈ tops ∧ document.parent? id = some none ∨
      ∃ parent item children, document.parent? id = some (some parent) ∧
        document.find? parent = some (item, children) ∧ id ∈ children.tops := by
  obtain ⟨path, lineage⟩ := Forest.exists_lineage? member []
  obtain ⟨within, eq, -, first, parent⟩ := Forest.held_of_lineage? sound.nodup lineage
  cases within with
  | nil =>
      have top := sound.mem_tops.mp (first rfl)
      exact .inl ⟨top, sound.parent?_top top⟩
  | cons node _ =>
      obtain ⟨children, found, child⟩ := parent node rfl
      exact .inr ⟨node.id, node.item, children, sound.parent?_child found child, found, child⟩

/-- An attached node is the root or stands below it. -/
theorem below_root_of_isAttached (sound : document.Sound tops)
    (attached : document.isAttached id = true) :
    ∃ item children, document.find? document.root = some (item, children) ∧
      id ∈ document.root :: children.ids := by
  rw [isAttached, Bool.or_eq_true] at attached
  obtain ⟨rootItem, below, rootFound, -⟩ := sound.root
  rcases attached with itself | under
  · rw [decide_eq_true_iff] at itself
    exact ⟨rootItem, below, rootFound, itself ▸ List.mem_cons_self⟩
  · cases lineage : document.lineage? id with
    | none =>
        rw [lineage] at under
        cases under
    | some path =>
        rw [lineage, Option.getD_some, List.any_eq_true] at under
        obtain ⟨node, member, isRoot⟩ := under
        rw [decide_eq_true_iff] at isRoot
        obtain ⟨within, eq, held, -⟩ := Forest.held_of_lineage? sound.nodup lineage
        rw [List.append_nil] at eq
        obtain ⟨children, found, holds⟩ := held node (eq ▸ member)
        rw [isRoot] at found
        exact ⟨node.item, children, found, List.mem_cons_of_mem _ holds⟩

end Sound

/-! ## Scopes -/

/-- A rule in the tree under the root, with its children. -/
def Scope (document : Document) (scope : NodeId) (children : Forest Node) : Prop :=
  ∃ rootItem below item, document.find? document.root = some (rootItem, below) ∧
    below.find? scope = some (item, children) ∧ item.kind.isRule = true

namespace Scope

theorem find? (stands : document.Scope scope children) (sound : document.Sound tops) :
    ∃ item, document.find? scope = some (item, children) ∧ item.kind.isRule = true := by
  obtain ⟨rootItem, below, item, rootFound, found, rule⟩ := stands
  have member := Forest.mem_ids_of_find? found
  exact ⟨item, (Forest.find?_eq_find? sound.nodup rootFound member).trans found, rule⟩

theorem not_top (stands : document.Scope scope children) (sound : document.Sound tops) :
    scope ∉ tops := by
  obtain ⟨rootItem, below, item, rootFound, found, -⟩ := stands
  exact sound.not_top_of_below rootFound (Forest.mem_ids_of_find? found)

/-- A child of a scope is found, stands in the tree under the root, and does not
hold the scope. -/
theorem child (stands : document.Scope scope children) (sound : document.Sound tops)
    (member : id ∈ children.tops) :
    ∃ rootItem below item inner, document.find? document.root = some (rootItem, below) ∧
      id ∈ below.ids ∧ children.find? id = some (item, inner) ∧
      document.find? id = some (item, inner) ∧ scope ∉ id :: inner.ids := by
  obtain ⟨scopeItem, scopeFound, -⟩ := stands.find? sound
  obtain ⟨rootItem, below, item, rootFound, found, -⟩ := stands
  have within := Forest.mem_ids_of_mem_tops member
  obtain ⟨inner, innerChildren, inside⟩ := Forest.exists_find? within
  refine ⟨rootItem, below, inner, innerChildren, rootFound, Forest.mem_ids_below found within,
    inside, (Forest.find?_eq_find? sound.nodup scopeFound within).trans inside, ?_⟩
  intro holds
  exact (Forest.nodup_below sound.nodup scopeFound).1
    ((Forest.ids_sublist_of_find? inside).subset holds)

theorem retouch (stands : document.Scope scope children) {change : Item → Item}
    (keeps : ∀ item, (change item).kind = item.kind) :
    (document.retouch id change).Scope scope (children.update id change) := by
  obtain ⟨rootItem, below, scopeItem, rootFound, found, rule⟩ := stands
  refine ⟨_, below.update id change, if scope = id then change scopeItem else scopeItem,
    (find?_retouch document id document.root change).trans (by
      rw [rootFound, Option.map_some]), ?_, ?_⟩
  · rw [Forest.find?_update, found, Option.map_some]
  · split
    · rw [keeps]
      exact rule
    · exact rule

/-- A change that does not take the scope away is made below it. -/
theorem splice (stands : document.Scope scope children) (sound : document.Sound tops)
    {inner : Forest Node} (found : document.find? id = some (item, inner)) (ne : id ≠ document.root)
    (outside : scope ∉ id :: inner.ids) (rootNew : document.root ∉ more.ids)
    (scopeNew : scope ∉ more.ids) :
    (document.splice id more).Scope scope (Forest.replace id more children) := by
  obtain ⟨scopeItem, scopeFound, -⟩ := stands.find? sound
  obtain ⟨rootItem, below, scopeItem, rootFound, scopeBelow, rule⟩ := stands
  have rootSame : (document.splice id more).find? document.root =
      some (rootItem, Forest.replace id more below) :=
    (Forest.find?_replace sound.nodup found (sound.root_not_below found ne) rootNew).trans
      (by rw [← Document.find?, rootFound, Option.map_some])
  refine ⟨rootItem, Forest.replace id more below, scopeItem, rootSame, ?_, rule⟩
  by_cases inTree : id ∈ below.ids
  · have foundBelow := (Forest.find?_eq_find? sound.nodup rootFound inTree).symm.trans found
    rw [Forest.find?_replace (Forest.nodup_below sound.nodup rootFound).2 foundBelow outside
      scopeNew, scopeBelow, Option.map_some]
  · have absent : id ∉ children.ids := fun member => inTree (Forest.mem_ids_below scopeBelow member)
    rw [Forest.replace_of_not_mem inTree, Forest.replace_of_not_mem absent]
    exact scopeBelow

end Scope

end Document

/-! ## Edits -/

namespace Edit

variable {document : Document} {tops : List NodeId} {id : NodeId} {item : Item}
  {children : Forest Node}

open Document

theorem get_ok (document : Document) : (get : Edit Document) document = .ok document document :=
  rfl

theorem ask_ok {α : Type} {question : Document → Option α} {answer : α}
    (known : question document = some answer) :
    ask question document = .ok answer document := by
  unfold ask
  rw [bind_ok (get_ok document), known]
  rfl

theorem destroy_ok (sound : document.Sound tops)
    (found : document.find? id = some (item, children)) :
    destroy id document = .ok () (document.splice id .nil) := by
  unfold destroy
  rw [bind_ok (ask_ok found)]
  show EStateM.Result.ok () { document with forest := document.forest.prune id } = _
  rw [Forest.prune_eq_replace sound.nodup]
  rfl

theorem updateItem_ok {change : Item → Item} (found : document.find? id = some (item, children)) :
    updateItem id change document = .ok () (document.retouch id change) := by
  unfold updateItem
  rw [bind_ok (ask_ok (item?_of_find? found))]
  rfl

/-- Below a root the first of several children has an heir, the next one. -/
theorem heir?_of_parent {parent : NodeId} (above : document.parent? id = some (some parent)) :
    heir? document id =
      if document.isKind Kind.isRoot parent = true then
        (document.children? parent).bind fun
          | first :: second :: _ => if first = id then some second else none
          | _ => none
      else none := by
  unfold heir?
  rw [above]
  show ((guard (document.isKind Kind.isRoot parent = true) : Option Unit).bind fun _ => _) = _
  cases document.isKind Kind.isRoot parent
  · rfl
  · rfl

/-- Only the first child of the root has an heir, and that is the next child. -/
theorem heir?_cases (sound : document.Sound tops) {heir : NodeId}
    (known : heir? document id = some heir) :
    ∃ rootItem below later, document.find? document.root = some (rootItem, below) ∧
      below.tops = id :: heir :: later := by
  unfold heir? at known
  simp only [Option.bind_eq_bind, Option.bind_eq_some_iff] at known
  obtain ⟨_, parent, scope, rfl, _, isRoot, list, listed, first⟩ := known
  obtain ⟨rootItem, below, found, kind⟩ := isKind_iff.mp ((Option.guard_eq_some' _).mp isRoot)
  have standing := sound.alone ⟨scope, rootItem⟩
    ((Forest.labels_sublist_of_find? found).subset List.mem_cons_self) kind
  simp only at standing
  subst standing
  rw [children?, found, Option.map_some, Option.some.injEq] at listed
  refine ⟨rootItem, below, ?_⟩
  split at first
  · rename_i one two later
    split at first
    · rename_i same
      cases first
      exact ⟨later, found, same ▸ listed⟩
    · cases first
  · cases first

/-- Removing a node drops it.  If it is the first of the root's children, the next
one takes the text before it. -/
theorem remove_cases (sound : document.Sound tops)
    (found : document.find? id = some (item, children)) :
    remove id document = .ok () (document.splice id .nil) ∨
      ∃ rootItem below heir change, document.find? document.root = some (rootItem, below) ∧
        id ∈ below.tops ∧ heir ∈ below.ids ∧ (∀ item, (change item).kind = item.kind) ∧
        (document.retouch heir change).find? id = some (item, children) ∧
        remove id document = .ok () ((document.retouch heir change).splice id .nil) := by
  unfold remove
  rw [bind_ok (ask_ok (item?_of_find? found)), bind_ok (get_ok document)]
  cases known : heir? document id with
  | none => exact .inl (destroy_ok sound found)
  | some heir =>
      obtain ⟨rootItem, below, later, rootFound, order⟩ := heir?_cases sound known
      obtain ⟨-, nodupBelow⟩ := Forest.nodup_below sound.nodup rootFound
      have idTop : id ∈ below.tops := order ▸ List.mem_cons_self
      have heirTop : heir ∈ below.tops := order ▸ List.mem_cons_of_mem _ List.mem_cons_self
      have ne : id ≠ heir := by
        have nodupTops := below.tops_sublist.nodup nodupBelow
        rw [order, List.nodup_cons] at nodupTops
        exact fun eq => nodupTops.1 (eq ▸ List.mem_cons_self)
      have heirIn := Forest.mem_ids_of_mem_tops heirTop
      obtain ⟨heirItem, heirChildren, heirInside⟩ := Forest.exists_find? heirIn
      have inside := (Forest.find?_eq_find? sound.nodup rootFound
        (Forest.mem_ids_of_mem_tops idTop)).symm.trans found
      have notBelow : heir ∉ children.ids := fun member =>
        Forest.disjoint_trees nodupBelow idTop heirTop ne inside heirInside
          (List.mem_cons_of_mem _ member) List.mem_cons_self
      have heirFound := (Forest.find?_eq_find? sound.nodup rootFound heirIn).trans heirInside
      let change (next : Item) : Item := { next with raws.before := item.raws.before }
      have kept : (document.retouch heir change).find? id = some (item, children) := by
        rw [find?_retouch, found, Option.map_some, if_neg ne, Forest.update_of_not_mem notBelow]
      refine .inr ⟨rootItem, below, heir, change, rootFound, idTop, heirIn, fun _ => rfl, kept, ?_⟩
      show (updateItem heir change >>= fun _ => destroy id) document = _
      rw [bind_ok (updateItem_ok heirFound)]
      exact destroy_ok (sound.retouch fun _ => rfl) kept

end Edit

namespace Document

variable {document : Document} {tops : List NodeId} {id scope : NodeId} {item : Item}
  {children more : Forest Node}

theorem Scope.mem_tops_replace (stands : document.Scope scope children)
    (sound : document.Sound tops) {other : NodeId} (child : other ∈ children.tops)
    (ne : other ≠ id) : other ∈ (Forest.replace id more children).tops := by
  obtain ⟨scopeItem, found, -⟩ := stands.find? sound
  obtain ⟨-, nodup⟩ := Forest.nodup_below sound.nodup found
  by_cases top : id ∈ children.tops
  · obtain ⟨before, after, old, new⟩ := Forest.tops_replace_of_mem nodup top
    rw [new]
    rcases List.mem_append.mp (old ▸ child) with first | later
    · simp [first]
    · simp [(List.mem_cons.mp later).resolve_left ne]
  · rw [Forest.tops_replace_of_not_mem top]
    exact child

/-- What a document is after other trees took the place of a node inside a tree:
the node and those below it are gone, and the same change was made in every tree.
Of the root's tree this is said only if the node is no child of the root: where a
child of the root is removed, the text before another may change. -/
structure Replaced (document : Document) (tops : List NodeId) (id : NodeId)
    (children more : Forest Node) (after : Document) : Prop where
  sound : after.Sound tops
  root : after.root = document.root
  fresh : document.fresh ≤ after.fresh
  trees : ∀ top ∈ tops, top ≠ document.root → after.find? top =
    (document.find? top).map fun pair => (pair.1, Forest.replace id more pair.2)
  under : ∀ rootItem below, document.find? document.root = some (rootItem, below) →
    id ∉ below.tops → after.find? document.root = some (rootItem, Forest.replace id more below)
  gone : ∀ other ∈ id :: children.ids, other ∉ after.forest.ids

namespace Sound

/-- The nodes below a node that was replaced are gone. -/
theorem not_mem_drop (sound : document.Sound tops)
    (found : document.find? id = some (item, children)) {other : NodeId}
    (within : other ∈ id :: children.ids) : other ∉ (document.splice id .nil).forest.ids := by
  intro member
  rcases (Forest.mem_ids_replace sound.nodup found).mp member with new | ⟨-, outside⟩
  · cases new
  · exact outside within

/-- **Removing a node.**  A node inside a tree can be removed.  It is dropped from
its tree, and the other trees and the scopes that are not below it stay. -/
theorem remove (sound : document.Sound tops)
    (found : document.find? id = some (item, children)) (inner : id ∉ tops) :
    ∃ after, Edit.remove id document = .ok () after ∧
      Replaced document tops id children .nil after ∧
      ∀ scope siblings, document.Scope scope siblings → scope ∉ id :: children.ids →
        ∃ left, after.Scope scope left ∧ ∀ other ∈ siblings.tops, other ≠ id →
          other ∈ left.tops := by
  have ne : id ≠ document.root := fun eq => inner (eq ▸ sound.mem_tops.mp sound.standing)
  have outside : ∀ top ∈ tops, top ∉ id :: children.ids :=
    fun top member => sound.top_outside found inner member
  have empty : ∀ other : NodeId, other ∉ (.nil : Forest Node).ids := fun _ => List.not_mem_nil
  rcases Edit.remove_cases sound found with ran | ⟨rootItem, below, heir, change, rootFound, child,
    heirIn, keeps, kept, ran⟩
  · refine ⟨_, ran, ⟨sound.drop found inner, rfl, Nat.le_refl _, ?_, ?_,
      fun _ => sound.not_mem_drop found⟩, ?_⟩
    · intro top member _
      exact Forest.find?_replace sound.nodup found (outside top member) (empty top)
    · intro rootItem below rootFound _
      exact (Forest.find?_replace sound.nodup found (sound.root_not_below found ne)
        (empty _)).trans (by rw [← Document.find?, rootFound, Option.map_some])
    · intro scope siblings stands apart
      exact ⟨_, stands.splice sound found ne apart (empty _) (empty _), fun other child differs =>
        stands.mem_tops_replace sound child differs⟩
  · have touched : (document.retouch heir change).Sound tops := sound.retouch keeps
    refine ⟨_, ran, ⟨touched.drop kept inner, rfl, Nat.le_refl _, ?_, ?_,
      fun _ => touched.not_mem_drop kept⟩, ?_⟩
    · intro top member notRoot
      obtain ⟨topItem, topChildren, topFound⟩ := sound.exists_tree member
      have apart := Forest.disjoint_trees sound.nodup (sound.mem_tops.mpr member) sound.standing
        notRoot topFound rootFound
      have notHeir : top ≠ heir := fun eq =>
        apart List.mem_cons_self (eq ▸ List.mem_cons_of_mem _ heirIn)
      have notBelow : heir ∉ topChildren.ids := fun member =>
        apart (List.mem_cons_of_mem _ member) (List.mem_cons_of_mem _ heirIn)
      refine (Forest.find?_replace touched.nodup kept (outside top member) (empty top)).trans ?_
      rw [← Document.find?, find?_retouch, topFound, Option.map_some, if_neg notHeir,
        Forest.update_of_not_mem notBelow]
    · intro _ _ rootFound' notChild
      rw [rootFound] at rootFound'
      cases rootFound'
      exact absurd child notChild
    · intro scope siblings stands apart
      have standing : (document.retouch heir change).Scope scope (siblings.update heir change) :=
        stands.retouch keeps
      refine ⟨_, standing.splice touched kept ne apart (empty _) (empty _), ?_⟩
      intro other child differs
      refine standing.mem_tops_replace touched ?_ differs
      rw [Forest.tops_update]
      exact child

/-- The tree of a node other than the root is proper. -/
theorem proper (sound : document.Sound tops)
    (found : document.find? id = some (item, children)) (ne : id ≠ document.root) :
    (Forest.tree item children.items).Proper := by
  obtain ⟨holds, housed⟩ := Forest.housed_of_find? sound.housed found
  refine ⟨⟨holds.imp_left fun empty => by rw [empty]; rfl, housed, trivial⟩, ?_⟩
  intro label member
  have inTree : label ∈ (Forest.tree ⟨id, item⟩ children).items.labels := member
  obtain ⟨node, within, rfl⟩ := Forest.mem_labels_items.mp inTree
  rw [Forest.tree, Forest.labels, Forest.labels, List.append_nil] at within
  by_contra isRoot
  have same := sound.alone node ((Forest.labels_sublist_of_find? found).subset within)
    (by simpa using isRoot)
  exact sound.root_not_below found ne (List.mem_map.mpr ⟨node, within, same⟩)

theorem proper_below (sound : document.Sound tops)
    (found : document.find? id = some (item, children)) (ne : id ≠ document.root) :
    children.items.Proper :=
  (Forest.proper_cons (sound.proper found ne)).2.2.1

/-- A tree can be dropped and its children put in the place of a node inside another
tree. -/
theorem transplant {donor : NodeId} {donorItem : Item} {inside : Forest Node}
    (sound : document.Sound (donor :: tops)) (ne : donor ≠ document.root)
    (donorFound : document.find? donor = some (donorItem, inside))
    (found : document.find? id = some (item, children)) (inner : id ∉ donor :: tops)
    (outside : id ∉ inside.ids) :
    Replaced document tops id children inside
      ((document.splice donor .nil).splice id inside) := by
  have felled := sound.fell ne
  have left : (document.splice donor .nil).find? id = some (item, children) := by
    have outsideDonor : id ∉ donor :: inside.ids := by
      rw [List.mem_cons, not_or]
      exact ⟨fun eq => inner (eq ▸ List.mem_cons_self), outside⟩
    have donorOut : donor ∉ children.ids := fun below =>
      sound.not_top_of_below found below List.mem_cons_self
    refine (Forest.find?_replace sound.nodup donorFound outsideDonor List.not_mem_nil).trans ?_
    rw [← Document.find?, found, Option.map_some, Forest.replace_of_not_mem donorOut]
  have notTop : id ∉ tops := fun member => inner (List.mem_cons_of_mem _ member)
  have gone : ∀ other ∈ inside.ids, other ∉ (document.splice donor .nil).forest.ids :=
    fun other within => sound.not_mem_drop donorFound (List.mem_cons_of_mem _ within)
  have idNe : id ≠ document.root := fun eq =>
    notTop (felled.mem_tops.mp (eq ▸ felled.standing))
  refine ⟨?_, rfl, Nat.le_refl _, ?_, ?_, ?_⟩
  · refine felled.splice left notTop (Forest.nodup_below sound.nodup donorFound).2 ?_ ?_
      (sound.proper_below donorFound ne)
    · exact fun other within old => absurd old (gone other within)
    · exact fun other within => sound.given other (Forest.mem_ids_below donorFound within)
  · intro top member notRoot
    have topOut := sound.top_outside found inner (List.mem_cons_of_mem _ member)
    have topNew : top ∉ inside.ids := fun within =>
      sound.not_top_of_below donorFound within (List.mem_cons_of_mem _ member)
    refine (Forest.find?_replace felled.nodup left topOut topNew).trans ?_
    rw [← Document.find?, sound.find?_fell member]
  · intro rootItem below rootFound _
    have rootTop : document.root ∈ tops := felled.mem_tops.mp felled.standing
    have rootNew : document.root ∉ inside.ids := fun within =>
      sound.not_top_of_below donorFound within (List.mem_cons_of_mem _ rootTop)
    have rootOut : document.root ∉ id :: children.ids := felled.root_not_below left idNe
    refine (Forest.find?_replace felled.nodup left rootOut rootNew).trans ?_
    rw [← Document.find?, sound.find?_fell rootTop, rootFound, Option.map_some]
  · intro other within member
    rcases (Forest.mem_ids_replace felled.nodup left).mp member with new | ⟨-, apart⟩
    · exact gone other new ((Forest.ids_sublist_of_find? left).subset within)
    · exact apart within

/-- **A tree's children in a node's place.**  The children of one top can replace a
node inside another tree; the top itself is dropped. -/
theorem replaceByChildren {donor : NodeId} {donorItem : Item} {inside : Forest Node}
    (sound : document.Sound (donor :: tops)) (ne : donor ≠ document.root)
    (donorFound : document.find? donor = some (donorItem, inside))
    (found : document.find? id = some (item, children)) (inner : id ∉ donor :: tops)
    (outside : id ∉ inside.ids) :
    ∃ after, Edit.replaceByChildren id donor document = .ok () after ∧
      Replaced document tops id children inside after := by
  unfold Edit.replaceByChildren
  rw [bind_ok (Edit.ask_ok donorFound)]
  cases inside with
  | nil =>
      obtain ⟨removed, ran, gone, -⟩ := sound.remove found inner
      have donorLeft : removed.find? donor = some (donorItem, .nil) := by
        rw [gone.trees donor List.mem_cons_self ne, donorFound, Option.map_some, Forest.replace]
      refine ⟨_, (bind_ok ran).trans (Edit.destroy_ok gone.sound donorLeft),
        gone.sound.fell (gone.root ▸ ne), gone.root, gone.fresh, ?_, ?_, ?_⟩
      · intro top member notRoot
        rw [gone.sound.find?_fell member, gone.trees top (List.mem_cons_of_mem _ member) notRoot]
      · intro rootItem below rootFound notChild
        have felled := gone.sound.fell (gone.root ▸ ne)
        have rootTop : document.root ∈ tops := gone.root ▸ felled.mem_tops.mp felled.standing
        rw [gone.sound.find?_fell rootTop, gone.under rootItem below rootFound notChild]
      · intro other within member
        rcases (Forest.mem_ids_replace gone.sound.nodup donorLeft).mp member with new | ⟨old, -⟩
        · cases new
        · exact gone.gone other within old
  | cons first below rest =>
      have alive : id ∈ document.forest.ids := Forest.mem_ids_of_find? found
      rcases sound.parent?_cases alive with ⟨top, -⟩ | ⟨parent, parentItem, siblings, known,
        parentFound, child⟩
      · exact absurd top inner
      obtain ⟨holds, -⟩ := Forest.housed_of_find? sound.housed parentFound
      have container : parentItem.kind.isContainer = true := by
        refine holds.resolve_left fun empty => ?_
        rw [empty] at child
        cases child
      refine ⟨_, ?_, sound.transplant ne donorFound found inner outside⟩
      refine (bind_ok (Edit.ask_ok known)).trans ?_
      refine (bind_ok (Edit.ask_ok (kind?_of_find? parentFound))).trans ?_
      simp only [container, if_true]
      show EStateM.Result.ok () { document with
        forest := Forest.replace id (.cons first below rest) (document.forest.prune donor) } = _
      rw [Forest.prune_eq_replace sound.nodup]
      rfl

/-- No tree but the root's holds a scope. -/
theorem scope_outside {node : NodeId} {inner : Forest Node} (sound : document.Sound tops)
    (member : node ∈ tops) (ne : node ≠ document.root)
    (found : document.find? node = some (item, inner)) (stands : document.Scope scope children) :
    scope ∉ node :: inner.ids := by
  obtain ⟨rootItem, below, scopeItem, rootFound, scopeBelow, -⟩ := stands
  intro holds
  exact ne (sound.top_unique member (sound.mem_tops.mp sound.standing) found rootFound holds
    (List.mem_cons_of_mem _ (Forest.mem_ids_of_find? scopeBelow)))

/-- A top other than the root is not above a scope. -/
theorem not_isAncestor {node : NodeId} (sound : document.Sound tops) (member : node ∈ tops)
    (ne : node ≠ document.root) (stands : document.Scope scope children) :
    document.isAncestor node scope = false := by
  by_contra holds
  rw [Bool.not_eq_false, isAncestor, Bool.or_eq_true, decide_eq_true_iff] at holds
  rcases holds with same | above
  · exact stands.not_top sound (same ▸ member)
  obtain ⟨scopeItem, scopeFound, -⟩ := stands.find? sound
  obtain ⟨path, lineage⟩ := Forest.exists_lineage? (Forest.mem_ids_of_find? scopeFound) []
  rw [Document.lineage?, lineage, Option.getD_some, List.any_eq_true] at above
  obtain ⟨upper, upperIn, same⟩ := above
  rw [decide_eq_true_iff] at same
  subst same
  obtain ⟨within, eq, held, -⟩ := Forest.held_of_lineage? sound.nodup lineage
  rw [List.append_nil] at eq
  obtain ⟨inner, found, holds⟩ := held upper (eq ▸ upperIn)
  exact sound.scope_outside member ne found stands (List.mem_cons_of_mem _ holds)

theorem checkInsertable_ok {node : NodeId} {inner : Forest Node} (sound : document.Sound tops)
    (member : node ∈ tops) (ne : node ≠ document.root)
    (found : document.find? node = some (item, inner)) (stands : document.Scope scope children) :
    Edit.checkInsertable scope node document = .ok () document := by
  obtain ⟨scopeItem, scopeFound, rule⟩ := stands.find? sound
  have container : scopeItem.kind.isContainer = true := (Kind.of_isRule rule).2
  have present : document.contains node = true := by rw [contains, found]; rfl
  refine (bind_ok (Edit.ask_ok (kind?_of_find? scopeFound))).trans ?_
  simp only [container, if_true]
  refine (bind_ok (Edit.get_ok document)).trans ?_
  simp only [present, sound.not_isAncestor member ne stands, if_true]
  rfl

/-- Trees whose nodes are not in the document can be put after a node under the
root. -/
theorem graft {anchor : NodeId} {rootItem : Item} {below inner : Forest Node}
    (sound : document.Sound tops)
    (rootFound : document.find? document.root = some (rootItem, below))
    (within : anchor ∈ below.ids) (found : document.find? anchor = some (item, inner))
    (nodup : more.ids.Nodup) (new : ∀ other ∈ more.ids, other ∉ document.forest.ids)
    (given : ∀ other ∈ more.ids, other.index < document.fresh) (proper : more.items.Proper) :
    ∃ after,
      after = { document with forest := Forest.insertAfter anchor more document.forest } ∧
      after.Sound tops ∧
      (∀ top ∈ tops, top ≠ document.root → after.find? top = document.find? top) ∧
      after.find? document.root =
        some (rootItem, Forest.replace anchor (.cons ⟨anchor, item⟩ inner more) below) := by
  have ne : anchor ≠ document.root := fun eq => sound.not_top_of_below rootFound within
    (sound.mem_tops.mp (eq ▸ sound.standing))
  have rootOut := sound.root_not_below found ne
  -- The anchor's own tree stays, and the new trees follow it.
  let all : Forest Node := .cons ⟨anchor, item⟩ inner more
  have allIds : all.ids = (anchor :: inner.ids) ++ more.ids := Forest.ids_cons ..
  have sublist := Forest.ids_sublist_of_find? found
  have allOld : ∀ other ∈ all.ids, other ∈ document.forest.ids → other ∈ anchor :: inner.ids := by
    intro other member old
    rcases List.mem_append.mp (allIds ▸ member) with first | second
    · exact first
    · exact absurd old (new other second)
  have changed : { document with forest := Forest.insertAfter anchor more document.forest } =
      document.splice anchor all := by
    rw [Document.splice, Forest.insertAfter_eq_replace sound.nodup found]
  refine ⟨_, changed.symm, ?_, ?_, ?_⟩
  · obtain ⟨own, holds, below, -⟩ := Forest.proper_cons (sound.proper found ne)
    refine sound.splice found (sound.not_top_of_below rootFound within) ?_ allOld ?_
      (.cons own holds below proper)
    · rw [allIds]
      refine List.nodup_append'.mpr ⟨sublist.nodup sound.nodup, nodup, ?_⟩
      exact fun other first second => new other second (sublist.subset first)
    · intro other member
      rcases List.mem_append.mp (allIds ▸ member) with first | second
      · exact sound.given other (sublist.subset first)
      · exact given other second
  · intro top member notRoot
    refine sound.find?_splice_elsewhere (sound.mem_tops.mp sound.standing) rootFound
      (List.mem_cons_of_mem _ within) member notRoot fun both => ?_
    exact sound.top_outside found (sound.not_top_of_below rootFound within) member
      (allOld top both (sound.mem_ids member))
  · refine (Forest.find?_replace sound.nodup found rootOut fun both => ?_).trans ?_
    · exact rootOut (allOld _ both (Forest.mem_ids_of_find? rootFound))
    · rw [← Document.find?, rootFound, Option.map_some]

/-- **A tree after a node.**  A top other than the root can be put after a child of a
scope. -/
theorem insertAfter {anchor node : NodeId} {rootItem anchorItem : Item}
    {below inner anchorInner : Forest Node} (sound : document.Sound (node :: tops))
    (ne : node ≠ document.root) (found : document.find? node = some (item, inner))
    (rootFound : document.find? document.root = some (rootItem, below))
    (stands : document.Scope scope children) (child : anchor ∈ children.tops)
    (anchorFound : document.find? anchor = some (anchorItem, anchorInner)) :
    ∃ after, Edit.insertAfter anchor node document = .ok () after ∧ after.Sound tops ∧
      after.root = document.root ∧
      (∀ top ∈ tops, top ≠ document.root → after.find? top = document.find? top) ∧
      after.find? document.root = some (rootItem, Forest.replace anchor
        (.cons ⟨anchor, anchorItem⟩ anchorInner (.tree ⟨node, item⟩ inner)) below) := by
  have nodeTop : node ∈ node :: tops := List.mem_cons_self
  obtain ⟨scopeItem, scopeFound, -⟩ := stands.find? sound
  obtain ⟨_, _, _, _, rootFound', within, -, -, -⟩ := stands.child sound child
  rw [rootFound] at rootFound'
  cases rootFound'
  have felled := sound.fell ne
  have rootTop : document.root ∈ tops := felled.mem_tops.mp felled.standing
  have rootLeft : (document.splice node .nil).find? document.root = some (rootItem, below) :=
    (sound.find?_fell rootTop).trans rootFound
  have anchorLeft : (document.splice node .nil).find? anchor = some (anchorItem, anchorInner) := by
    have inside := (Forest.find?_eq_find? sound.nodup rootFound within).symm.trans anchorFound
    exact (Forest.find?_eq_find? felled.nodup rootLeft within).trans inside
  have ids : (Forest.tree ⟨node, item⟩ inner).ids = node :: inner.ids := by simp [Forest.tree]
  have sublist := Forest.ids_sublist_of_find? found
  have treeNodup : (Forest.tree ⟨node, item⟩ inner).ids.Nodup :=
    ids ▸ sublist.nodup sound.nodup
  obtain ⟨after, changed, afterSound, others, under⟩ :=
    felled.graft rootLeft within anchorLeft treeNodup
      (fun other member => sound.not_mem_drop found (ids ▸ member))
      (fun other member => sound.given other (sublist.subset (ids ▸ member)))
      (sound.proper found ne)
  refine ⟨after, ?_, afterSound, by rw [changed]; rfl, ?_, under⟩
  · have nodeOut : node ∉ children.ids := fun below =>
      sound.not_top_of_below scopeFound below nodeTop
    have anchorNe : anchor ≠ node := fun eq =>
      nodeOut (eq ▸ Forest.mem_ids_of_mem_tops child)
    refine (bind_ok (Edit.ask_ok (sound.parent?_child scopeFound child))).trans ?_
    refine (bind_ok (sound.checkInsertable_ok nodeTop ne found stands)).trans ?_
    simp only [anchorNe, if_false]
    refine (bind_ok (Edit.ask_ok found)).trans ?_
    show EStateM.Result.ok () { document with
      forest := Forest.insertAfter anchor (.tree ⟨node, item⟩ inner)
        (document.forest.prune node) } = _
    rw [Forest.prune_eq_replace sound.nodup, changed]
    rfl
  · intro top member notRoot
    rw [others top member notRoot]
    exact sound.find?_fell member

end Sound

end Document

end ApplyRule
