/-
# ApplyRule.Proofs.RootTree -- the tree under the root

What the root holds is one forest, and every change of the document that a pass
makes there is told by what becomes of it.  A node in it gives way to other trees
(`Document.Replaced.under`); only where a child of the root is removed there is
more to say, since the text before the first child stays first: `Forest.without`
is the forest that is left, and `Sound.remove_under` says so.

The forest of `without` differs from that of `replace` in no place
(`places_without`), and in nothing at all if the node is no child of the root
(`without_of_not_mem_tops`).
-/
import ApplyRule.Proofs.Editing
import ApplyRule.Proofs.Places

namespace ApplyRule

set_option autoImplicit false

/-- The item with other text before it. -/
def Item.precede (text : String) (item : Item) : Item :=
  { item with raws.before := text }

def Node.precede (text : String) (node : Node) : Node :=
  { node with item := node.item.precede text }

namespace Forest

/-- The forest with the label of its first tree changed. -/
def mapFirst {α : Type} (f : α → α) : Forest α → Forest α
  | .nil => .nil
  | .cons label children rest => .cons (f label) children rest

/-- The children of a root without a node; the text before the first of them stays
first. -/
def without (id : NodeId) (forest : Forest Node) : Forest Node :=
  match forest with
  | .nil => .nil
  | .cons first _ _ =>
      (replace id .nil forest).mapFirst (Node.precede first.item.raws.before)

variable {forest below children more : Forest Node} {id : NodeId} {item : Item}

theorem places_mapFirst_precede (text : String) (above : List Kind) (forest : Forest Node) :
    (forest.mapFirst (Node.precede text)).places above = forest.places above := by
  cases forest <;> rfl

theorem places_without (id : NodeId) (above : List Kind) (forest : Forest Node) :
    (forest.without id).places above = (replace id .nil forest).places above := by
  cases forest with
  | nil => rfl
  | cons first inner rest => exact places_mapFirst_precede ..

theorem ids_without (id : NodeId) (forest : Forest Node) :
    (forest.without id).ids = (replace id .nil forest).ids := by
  rw [← map_id_places [], places_without, map_id_places]

/-- A node that is visited and removed was not among those that were seen. -/
theorem Walk.without {p : Kind → Bool} {above : List Kind} {todo : List NodeId} {seen : List Place}
    (walk : Walk p above (id :: todo) seen forest) (nodup : forest.ids.Nodup)
    (found : forest.find? id = some (item, children)) :
    Walk p above todo seen (forest.without id) := by
  obtain ⟨ahead, same, left⟩ := walk.replace nodup found (fun _ => rfl)
    (by simp : ∀ other ∈ (.nil : Forest Node).ids, other ∉ todo)
  refine ⟨ahead, ?_, ?_⟩
  · rw [placesOf, places_without]
    exact same
  · rw [ids_without]
    exact left

theorem without_of_not_mem_tops (inner : id ∉ forest.tops) :
    forest.without id = replace id .nil forest := by
  cases forest with
  | nil => rfl
  | cons first below rest =>
      rw [tops_cons, List.mem_cons, not_or] at inner
      rw [without, replace, if_neg (Ne.symm inner.1)]
      rfl

/-- What is found below a child of the root is the same after another child is
removed. -/
theorem find?_mapFirst_precede {other : NodeId} (text : String) (inner : other ∉ forest.tops) :
    (forest.mapFirst (Node.precede text)).find? other = forest.find? other := by
  cases forest with
  | nil => rfl
  | cons first below rest =>
      rw [tops_cons, List.mem_cons, not_or] at inner
      have ne : first.id ≠ other := Ne.symm inner.1
      simp only [mapFirst, find?, Node.precede, ne, if_false]

/-- The first of several children hands the text before it to the next. -/
theorem without_first {first second : Node} {inner next rest : Forest Node}
    (nodup : (Forest.cons first inner (.cons second next rest)).ids.Nodup) :
    (Forest.cons first inner (.cons second next rest)).without first.id =
      replace first.id .nil ((Forest.cons first inner (.cons second next rest)).update second.id
        (Item.precede first.item.raws.before)) := by
  obtain ⟨⟨notInner, notLater⟩, -, nodupLater, disjoint⟩ := nodup_parts nodup
  obtain ⟨⟨notNext, notRest⟩, -, -, -⟩ := nodup_parts nodupLater
  have ne : first.id ≠ second.id := fun eq => notLater (eq ▸ by simp)
  have keeps : (first.id = second.id) = False := eq_false ne
  rw [without, replace, if_pos rfl, nil_append, update, replace]
  simp only [keeps, if_false, if_true, nil_append, mapFirst, update, update_of_not_mem notNext,
    update_of_not_mem notRest]
  rfl

end Forest

namespace Document

variable {document : Document} {tops : List NodeId} {id : NodeId} {item rootItem : Item}
  {below children : Forest Node}

namespace Sound

/-- A child of the root has an heir if it is the first of several. -/
theorem heir?_child (sound : document.Sound tops)
    (rootFound : document.find? document.root = some (rootItem, below))
    (child : id ∈ below.tops) :
    Edit.heir? document id =
      match below.tops with
      | first :: second :: _ => if first = id then some second else none
      | _ => none := by
  obtain ⟨_, _, found, kind⟩ := sound.root
  rw [rootFound] at found
  cases found
  have isRoot : document.isKind Kind.isRoot document.root = true :=
    isKind_iff.mpr ⟨rootItem, below, rootFound, by rw [kind]; rfl⟩
  have listed : document.children? document.root = some below.tops := by
    rw [children?, rootFound]
    rfl
  rw [Edit.heir?_of_parent (sound.parent?_child rootFound child), if_pos isRoot, listed]
  rfl

/-- A node deeper in a tree has none. -/
theorem heir?_inner (sound : document.Sound tops)
    (rootFound : document.find? document.root = some (rootItem, below))
    (inner : id ∉ below.tops) : Edit.heir? document id = none := by
  cases known : Edit.heir? document id with
  | none => rfl
  | some heir =>
      obtain ⟨_, _, _, found, order⟩ := Edit.heir?_cases sound known
      rw [rootFound] at found
      cases found
      exact absurd (order ▸ List.mem_cons_self) inner

/-- A change of an item under the root is none in another tree. -/
theorem find?_retouch_elsewhere {top : NodeId} {change : Item → Item} (sound : document.Sound tops)
    (rootFound : document.find? document.root = some (rootItem, below)) (within : id ∈ below.ids)
    (member : top ∈ tops) (ne : top ≠ document.root) :
    (document.retouch id change).find? top = document.find? top := by
  obtain ⟨topItem, inner, topFound⟩ := sound.exists_tree member
  have apart := Forest.disjoint_trees sound.nodup (sound.mem_tops.mpr member) sound.standing
    ne topFound rootFound
  have notTop : top ≠ id := fun eq =>
    apart List.mem_cons_self (eq ▸ List.mem_cons_of_mem _ within)
  have notInside : id ∉ inner.ids := fun both =>
    apart (List.mem_cons_of_mem _ both) (List.mem_cons_of_mem _ within)
  rw [find?_retouch, topFound, Option.map_some, if_neg notTop, Forest.update_of_not_mem notInside]

/-- What a document is after a node under the root was removed. -/
structure Removed (document : Document) (tops : List NodeId) (id : NodeId) (rootItem : Item)
    (below : Forest Node) (after : Document) : Prop where
  sound : after.Sound tops
  root : after.root = document.root
  fresh : after.fresh = document.fresh
  under : after.find? document.root = some (rootItem, below.without id)
  trees : ∀ top ∈ tops, top ≠ document.root → after.find? top = document.find? top

/-- A node without an heir is only dropped. -/
theorem remove_of_no_heir (sound : document.Sound tops)
    (rootFound : document.find? document.root = some (rootItem, below))
    (within : id ∈ below.ids) (none_ : Edit.heir? document id = none)
    (same : below.without id = Forest.replace id .nil below) :
    ∃ after, Edit.remove id document = .ok () after ∧
      Removed document tops id rootItem below after := by
  obtain ⟨item, children, inside⟩ := Forest.exists_find? within
  have found := (Forest.find?_eq_find? sound.nodup rootFound within).trans inside
  have notTop := sound.not_top_of_below rootFound within
  have rootTop := sound.mem_tops.mp sound.standing
  have ne : id ≠ document.root := fun eq => notTop (eq ▸ rootTop)
  refine ⟨document.splice id .nil, ?_, sound.drop found notTop, rfl, rfl, ?_, ?_⟩
  · unfold Edit.remove
    rw [bind_ok (Edit.ask_ok (item?_of_find? found)), bind_ok (Edit.get_ok document), none_]
    exact Edit.destroy_ok sound found
  · refine (Forest.find?_replace sound.nodup found (sound.root_not_below found ne)
      List.not_mem_nil).trans ?_
    rw [← Document.find?, rootFound, Option.map_some, same]
  · intro top member notRoot
    exact sound.find?_splice_elsewhere rootTop rootFound (List.mem_cons_of_mem _ within) member
      notRoot List.not_mem_nil

/-- The first of several children goes, and the next one takes the text before it. -/
theorem remove_first {first second : Node} {inner next rest : Forest Node}
    (sound : document.Sound tops)
    (rootFound : document.find? document.root =
      some (rootItem, .cons first inner (.cons second next rest))) :
    ∃ after, Edit.remove first.id document = .ok () after ∧
      Removed document tops first.id rootItem (.cons first inner (.cons second next rest)) after := by
  obtain ⟨notBelow, nodup⟩ := Forest.nodup_below sound.nodup rootFound
  obtain ⟨⟨-, notLater⟩, -, -, disjoint⟩ := Forest.nodup_parts nodup
  have rootTop := sound.mem_tops.mp sound.standing
  have firstIn : first.id ∈ (Forest.cons first inner (.cons second next rest)).ids := by simp
  have secondIn : second.id ∈ (Forest.cons first inner (.cons second next rest)).ids := by simp
  have found : document.find? first.id = some (first.item, inner) :=
    (Forest.find?_eq_find? sound.nodup rootFound firstIn).trans (Forest.find?_cons_self ..)
  obtain ⟨_, _, secondBelow⟩ := Forest.exists_find? secondIn
  have secondFound := (Forest.find?_eq_find? sound.nodup rootFound secondIn).trans secondBelow
  have differ : first.id ≠ second.id := fun eq => notLater (eq ▸ by simp)
  have notInner : second.id ∉ inner.ids := fun both => disjoint both (by simp)
  have notRoot : document.root ≠ second.id := fun eq => notBelow (eq ▸ secondIn)
  have notTop := sound.not_top_of_below rootFound firstIn
  have ne : first.id ≠ document.root := fun eq => notTop (eq ▸ rootTop)
  -- The next child is changed first, and the document is as sound as before.
  let change : Item → Item := Item.precede first.item.raws.before
  have touched : (document.retouch second.id change).Sound tops := sound.retouch fun _ => rfl
  have kept : (document.retouch second.id change).find? first.id = some (first.item, inner) := by
    rw [find?_retouch, found, Option.map_some, if_neg differ, Forest.update_of_not_mem notInner]
  have rootTouched : (document.retouch second.id change).find? document.root =
      some (rootItem, (Forest.cons first inner (.cons second next rest)).update second.id
        change) := by
    rw [find?_retouch, rootFound, Option.map_some, if_neg notRoot]
  refine ⟨_, ?_, touched.drop kept notTop, rfl, rfl, ?_, ?_⟩
  · have heir := sound.heir?_child rootFound (Forest.tops_cons .. ▸ List.mem_cons_self)
    simp only [Forest.tops_cons, if_true] at heir
    unfold Edit.remove
    rw [bind_ok (Edit.ask_ok (item?_of_find? found)), bind_ok (Edit.get_ok document), heir]
    show (Edit.updateItem second.id change >>= fun _ => Edit.destroy first.id) document = _
    rw [bind_ok (Edit.updateItem_ok secondFound)]
    exact Edit.destroy_ok touched kept
  · have rootOut : document.root ∉ first.id :: inner.ids := sound.root_not_below found ne
    refine (Forest.find?_replace touched.nodup kept rootOut List.not_mem_nil).trans ?_
    rw [← Document.find?, rootTouched, Option.map_some, Forest.without_first nodup]
  · intro top member topNe
    have inTouched : first.id ∈ document.root ::
        ((Forest.cons first inner (.cons second next rest)).update second.id change).ids := by
      rw [Forest.ids_update]
      exact List.mem_cons_of_mem _ firstIn
    exact (touched.find?_splice_elsewhere rootTop rootTouched inTouched member topNe
      List.not_mem_nil).trans (sound.find?_retouch_elsewhere rootFound secondIn member topNe)

/-- **Removing a node under the root.**  The forest under the root is left without
it, and the other trees stay. -/
theorem remove_under (sound : document.Sound tops)
    (rootFound : document.find? document.root = some (rootItem, below))
    (within : id ∈ below.ids) :
    ∃ after, Edit.remove id document = .ok () after ∧
      Removed document tops id rootItem below after := by
  by_cases child : id ∈ below.tops
  · have heir := sound.heir?_child rootFound child
    cases below with
    | nil => cases child
    | cons first inner rest =>
        cases rest with
        | nil =>
            -- The only child leaves nothing.
            have same : first.id = id := (List.mem_singleton.mp child).symm
            refine sound.remove_of_no_heir rootFound within heir ?_
            rw [Forest.without, Forest.replace, if_pos same]
            rfl
        | cons second next rest =>
            by_cases same : first.id = id
            · subst same
              exact sound.remove_first rootFound
            · -- A later child has no heir, and the first one stays as it is.
              simp only [Forest.tops_cons, same, if_false] at heir
              refine sound.remove_of_no_heir rootFound within heir ?_
              rw [Forest.without, Forest.replace, if_neg same]
              rfl
  · exact sound.remove_of_no_heir rootFound within (sound.heir?_inner rootFound child)
      (Forest.without_of_not_mem_tops child)

end Sound

end Document

end ApplyRule
