/-
# ApplyRule.Proofs.Subtrees -- whole trees, link by link

Dropping, stamping and copying a node reaches all that is below it.  A walk along
the children of a node that is kept in an arena lists what the forest below it
lists (`walkIn_stored`), and copying node by node leaves the numbered copy
(`copyChildren_eq`), so these edits are followed too: `follows_destroy`,
`follows_remove`, `follows_restamp` and `follows_clone`.
-/
import ApplyRule.Proofs.Moving

namespace ApplyRule

set_option autoImplicit false

variable {document : Document} {id other : NodeId} {item : Item} {children : Forest Node}

/-! ## Walking -/

namespace Forest

/-- An arena keeps the nodes of a forest with their children, wherever it stands. -/
def Stored (arena : Arena) : Forest Node → Prop
  | .nil => True
  | .cons node children rest =>
      (∃ parent, arena.slots node.id = some ⟨node.item, parent, children.tops⟩) ∧
        children.Stored arena ∧ rest.Stored arena

variable {forest : Forest Node} {arena after : Arena}

theorem stored_of_find? (nodup : forest.ids.Nodup)
    (kept : ∀ id item children, forest.find? id = some (item, children) →
      ∃ parent, arena.slots id = some ⟨item, parent, children.tops⟩) : forest.Stored arena := by
  induction forest with
  | nil => trivial
  | cons node below rest ihc ihr =>
      obtain ⟨-, nodupBelow, nodupRest, -⟩ := nodup_parts nodup
      refine ⟨kept node.id node.item below (find?_cons_self ..), ihc nodupBelow ?_,
        ihr nodupRest ?_⟩
      · intro id item children found
        exact kept id item children ((find?_cons_below nodup (mem_ids_of_find? found)).trans found)
      · intro id item children found
        exact kept id item children ((find?_cons_rest nodup (mem_ids_of_find? found)).trans found)

theorem Stored.congr (stored : forest.Stored arena)
    (same : ∀ id ∈ forest.ids, after.slots id = arena.slots id) : forest.Stored after := by
  induction forest with
  | nil => trivial
  | cons node below rest ihc ihr =>
      obtain ⟨⟨parent, here⟩, inside, later⟩ := stored
      refine ⟨⟨parent, (same node.id (by simp)).trans here⟩, ihc inside ?_, ihr later ?_⟩
      · exact fun id member => same id (by simp [member])
      · exact fun id member => same id (by simp [member])

end Forest

/-- What is below a node is kept in the arena. -/
theorem Document.stored_below (nodup : document.forest.ids.Nodup)
    (found : document.find? id = some (item, children)) : children.Stored document.arena := by
  refine Forest.stored_of_find? (Forest.nodup_below nodup found).2 fun inner item below inside => ?_
  exact Document.slots_of_find?
    ((Forest.find?_eq_find? nodup found (Forest.mem_ids_of_find? inside)).trans inside)

/-- A walk meets the nodes of a forest in document order, one in each step. -/
theorem Linking.walkIn_stored {forest : Forest Node} {arena : Arena} (stored : forest.Stored arena)
    (steps : Nat) (met stack : List NodeId) :
    Linking.walkIn (forest.ids.length + steps) met (forest.tops ++ stack) arena =
      Linking.walkIn steps (met ++ forest.ids) stack arena := by
  induction forest generalizing steps met stack with
  | nil => rw [Forest.tops_nil, Forest.ids_nil, List.nil_append, List.append_nil, List.length_nil,
      Nat.zero_add]
  | cons node below rest ihc ihr =>
      obtain ⟨⟨parent, here⟩, inside, later⟩ := stored
      have count : (Forest.cons node below rest).ids.length + steps =
          below.ids.length + (rest.ids.length + steps) + 1 := by
        rw [Forest.ids_cons, List.length_cons, List.length_append]
        omega
      rw [Forest.tops_cons, List.cons_append, count, Linking.walkIn]
      refine (Linking.bind_ok (Linking.slot_ok here)).trans ?_
      rw [ihc inside, ihr later, Forest.ids_cons]
      simp only [List.append_assoc, List.cons_append, List.nil_append]

theorem Linking.descendants_eq (numbered : document.Numbered)
    (found : document.find? id = some (item, children)) :
    Linking.descendants id document.arena = some (.ok children.ids, document.arena) := by
  obtain ⟨parent, stored⟩ := Document.slots_of_find? found
  obtain ⟨left, enough⟩ : ∃ left, document.fresh = children.ids.length + left :=
    Nat.exists_eq_add_of_le (numbered.length_below_le found)
  have all := Linking.walkIn_stored (Document.stored_below numbered.nodup found) left [] []
  rw [List.append_nil, List.nil_append, ← enough] at all
  refine (Linking.bind_ok (Linking.slot_ok stored)).trans
    ((Linking.bind_ok (Linking.get_ok document.arena)).trans
      (all.trans ?_))
  rw [Linking.walkIn]
  rfl

/-! ## Dropping -/

theorem Arena.slots_foldl_drop (ids : List NodeId) (arena : Arena) :
    (ids.foldl Arena.drop arena).slots other =
      if other ∈ ids then none else arena.slots other := by
  induction ids generalizing arena with
  | nil => rfl
  | cons id rest ih =>
      rw [List.foldl_cons, ih, Arena.slots_drop]
      by_cases here : other = id <;> simp [here]

theorem Arena.links_foldl_drop (ids : List NodeId) (arena : Arena) :
    (ids.foldl Arena.drop arena).root = arena.root ∧
      (ids.foldl Arena.drop arena).fresh = arena.fresh := by
  induction ids generalizing arena with
  | nil => exact ⟨rfl, rfl⟩
  | cons id rest ih => exact ih (arena.drop id)

/-- The document without a node's tree. -/
def Document.pruned (document : Document) (id : NodeId) : Document :=
  { document with forest := document.forest.prune id }

theorem Document.Numbered.pruned (numbered : document.Numbered)
    (found : document.find? id = some (item, children)) : (document.pruned id).Numbered := by
  obtain ⟨nodup, members⟩ := Document.prune_parts numbered.nodup found
  exact ⟨nodup, fun other left => numbered.given other ((members other).mp left).1⟩

theorem Edit.destroy_eq (found : document.find? id = some (item, children)) :
    Edit.destroy id document = .ok () (document.pruned id) :=
  (bind_ok (Edit.ask_ok found)).trans rfl

theorem Document.absent_slot (absent : document.find? id = none) :
    document.arena.slots id = none := by
  rw [Document.slots_eq, absent]
  rfl

theorem follows_destroy (numbered : document.Numbered) (id : NodeId) :
    Follows (Linking.destroy id) (Edit.destroy id) document := by
  cases found : document.find? id with
  | none =>
      exact Follows.of_error (Edit.bind_error (Edit.ask_error found)) numbered
        (Linking.bind_error (Linking.bind_error (Linking.slot_error (Document.absent_slot found))))
  | some pair =>
      obtain ⟨item, children⟩ := pair
      obtain ⟨-, members⟩ := Document.prune_parts numbered.nodup found
      refine Follows.of_ok (Edit.destroy_eq found) (numbered.pruned found) ?_
      refine (Linking.bind_ok (Linking.descendants_eq numbered found)).trans ?_
      refine (Linking.bind_ok (Linking.detach_eq numbered found)).trans ?_
      have left : (children.ids.foldl Arena.drop (document.apart id item children).arena).drop id =
          (document.pruned id).arena := by
        obtain ⟨root, fresh⟩ :=
          Arena.links_foldl_drop children.ids (document.apart id item children).arena
        refine Arena.ext (funext fun other => ?_) root fresh
        rw [Arena.slots_drop, Arena.slots_foldl_drop]
        show _ = (document.forest.prune id).slot? other none
        by_cases inside : other ∈ id :: children.ids
        · have gone : other ∉ (document.forest.prune id).ids :=
            fun kept => ((members other).mp kept).2 inside
          rw [Forest.slot?_eq_none gone]
          by_cases here : other = id
          · rw [if_pos here]
          · rw [if_neg here, if_pos ((List.mem_cons.mp inside).resolve_left here)]
        · have outside : other ∉ (Forest.tree ⟨id, item⟩ children).ids := by
            rwa [Forest.ids_tree]
          rw [List.mem_cons, not_or] at inside
          rw [if_neg inside.1, if_neg inside.2]
          show (document.forest.prune id ++ _).slot? other none = _
          rw [Forest.slot?_append, Forest.slot?_eq_none outside, Option.or_none]
      rw [← left]
      rfl

/-! ## Items -/

/-- The document with a node's item changed keeps its identities. -/
theorem Document.Numbered.retouch (numbered : document.Numbered) (id : NodeId)
    (change : Item → Item) : (document.retouch id change).Numbered := by
  refine ⟨?_, ?_⟩ <;> rw [Document.retouch, Forest.ids_update]
  · exact numbered.nodup
  · exact numbered.given

theorem follows_touch (numbered : document.Numbered) (id : NodeId) (change : Item → Item) :
    Follows (Linking.touch id change) (Edit.updateItem id change) document := by
  cases found : document.find? id with
  | none =>
      have unknown : document.item? id = none := by rw [Document.item?, found]; rfl
      exact Follows.of_error (Edit.bind_error (Edit.ask_error unknown)) numbered
        (Linking.bind_error (Linking.slot_error (Document.absent_slot found)))
  | some pair =>
      obtain ⟨parent, stored⟩ := Document.slots_of_find? found
      refine Follows.of_ok (Edit.updateItem_ok found) (numbered.retouch id change) ?_
      refine (Linking.amend_ok stored).trans ?_
      have same : document.arena.amend id (Slot.touch change) =
          (document.retouch id change).arena := by
        refine Arena.ext (funext fun other => ?_) rfl rfl
        refine Eq.trans ?_ (Forest.slot?_update change).symm
        rw [Arena.slots_amend]
        by_cases here : other = id
        · rw [if_pos here, here]
          simp only [if_true]
          rfl
        · rw [if_neg here]
          simp only [here, if_false, Option.map_id']
          rfl
      rw [same]

/-! ## Removing and replacing -/

/-- The first child of a root hands the text before it to the next one. -/
def Edit.handOver (id : NodeId) : Edit Unit := do
  let item ← ask (·.item? id)
  if let some heir := heir? (← get) id then
    updateItem heir fun next => { next with raws.before := item.raws.before }

theorem Edit.remove_eq (id : NodeId) (document : Document) :
    Edit.remove id document = (Edit.handOver id >>= fun _ => Edit.destroy id) document := by
  unfold Edit.remove Edit.handOver
  cases known : document.item? id with
  | none =>
      rw [Edit.bind_error (Edit.ask_error known),
        Edit.bind_error (Edit.bind_error (Edit.ask_error known))]
  | some item =>
      have asked : Edit.ask (·.item? id) document = .ok item document := Edit.ask_ok known
      have here := Edit.get_ok document
      rw [bind_ok asked, bind_assoc, bind_ok asked, bind_ok here, bind_assoc, bind_ok here]
      cases Edit.heir? document id <;> rfl

theorem Linking.handOver_eq {slot : Slot} (stored : document.arena.slots id = some slot) :
    Linking.handOver id document.arena =
      match Edit.heir? document id with
      | none => some (.ok (), document.arena)
      | some heir => Linking.touch heir
          (fun next => { next with raws.before := slot.item.raws.before }) document.arena := by
  unfold Linking.handOver
  refine (Linking.bind_ok (Linking.slot_ok stored)).trans ?_
  have asked := document.parent?_eq_slots id
  rw [stored, Option.map_some] at asked
  cases above : slot.parent with
  | none =>
      have heir : Edit.heir? document id = none := by simp [Edit.heir?, asked, above]
      rw [heir]
      rfl
  | some parent =>
      have heir := Edit.heir?_of_parent (asked.trans (congrArg some above))
      refine (Linking.bind_ok (Linking.get_ok document.arena)).trans ?_
      cases held : document.arena.slots parent with
      | none =>
          have kind : document.isKind Kind.isRoot parent = false := by
            rw [Document.isKind, Document.kind?_eq_slots, held]
            rfl
          rw [heir, kind]
          rfl
      | some holder =>
          have kind : document.isKind Kind.isRoot parent = holder.item.kind.isRoot := by
            rw [Document.isKind, Document.kind?_eq_slots, held]
            rfl
          have listed : document.children? parent = some holder.children := by
            rw [Document.children?_eq_slots, held, Option.map_some]
          rw [heir, kind, listed, Option.any_some]
          split
          · refine (Linking.bind_ok (Linking.slot_ok held)).trans ?_
            rcases holder.children with _ | ⟨first, _ | ⟨second, rest⟩⟩
            · rfl
            · rfl
            · by_cases own : first = id
              · simp only [Option.bind_some, if_pos own]
                exact (Linking.bind_ok (Linking.slot_ok stored)).trans rfl
              · simp only [Option.bind_some, if_neg own]
                rfl
          · rfl

theorem follows_handOver (numbered : document.Numbered) (id : NodeId) :
    Follows (Linking.handOver id) (Edit.handOver id) document := by
  cases stored : document.arena.slots id with
  | none =>
      have unknown : document.item? id = none := by rw [document.item?_eq_slots, stored]; rfl
      exact Follows.of_error (Edit.bind_error (Edit.ask_error unknown)) numbered
        (Linking.bind_error (Linking.slot_error stored))
  | some slot =>
      have known : document.item? id = some slot.item := by
        rw [document.item?_eq_slots, stored, Option.map_some]
      have linked := Linking.handOver_eq stored
      have here := Edit.get_ok document
      have ran : Edit.handOver id document = _ :=
        (bind_ok (Edit.ask_ok known)).trans (bind_ok here)
      unfold Follows Outcome
      rw [ran, linked]
      cases Edit.heir? document id with
      | none => exact ⟨numbered, rfl⟩
      | some heir => exact follows_touch numbered heir _

theorem follows_remove (numbered : document.Numbered) (id : NodeId) :
    Follows (Linking.remove id) (Edit.remove id) document := by
  have whole : Follows (Linking.remove id)
      (Edit.handOver id >>= fun _ => Edit.destroy id) document := by
    refine (follows_handOver numbered id).bind fun _ after _ numberedAfter => ?_
    cases found : after.find? id with
    | none =>
        have absent := Linking.slot_error (Document.absent_slot found)
        exact Follows.of_error (Edit.bind_error (Edit.ask_error found)) numberedAfter
          (Linking.bind_error (Linking.bind_error absent))
    | some pair =>
        obtain ⟨item, children⟩ := pair
        have foundApart := Document.find?_apart numberedAfter.nodup found
        -- Dropping a tree drops it where it stands as well as apart.
        refine Follows.step (Linking.detach_eq numberedAfter found) ?_
          (follows_destroy (numberedAfter.apart found) id)
        rw [Edit.destroy_eq found, Edit.destroy_eq foundApart, Document.pruned, Document.pruned,
          Document.prune_apart numberedAfter.nodup found]
        rfl
  unfold Follows Outcome at whole ⊢
  rwa [Edit.remove_eq]

/-- Rounds are followed one by one. -/
theorem Follows.forM {α : Type} {link : α → Linking Unit} {edit : α → Edit Unit} (list : List α)
    (numbered : document.Numbered)
    (each : ∀ value ∈ list, ∀ document : Document, document.Numbered →
      Follows (link value) (edit value) document) :
    Follows (list.forM link) (list.forM edit) document := by
  induction list generalizing document with
  | nil => exact Follows.pure numbered ()
  | cons value rest ih =>
      have round := each value List.mem_cons_self document numbered
      refine round.bind fun _ after _ numberedAfter => ?_
      exact ih numberedAfter fun other member => each other (List.mem_cons_of_mem _ member)

theorem follows_replaceWith (numbered : document.Numbered) (id : NodeId) (nodes : List NodeId) :
    Follows (Linking.replaceWith id nodes) (Edit.replaceWith id nodes) document := by
  refine (Follows.forM nodes numbered fun node _ document numbered =>
    follows_insertBeside beside_before numbered id node).bind fun _ after _ numberedAfter => ?_
  exact follows_remove numberedAfter id

/-! ## Stamping -/

/-- The arena with the items of nodes changed. -/
def Arena.touchAll (arena : Arena) (ids : List NodeId) (change : Item → Item) : Arena :=
  { arena with slots := fun other =>
      (arena.slots other).map fun slot => if other ∈ ids then slot.touch change else slot }

theorem Linking.forM_touch {change : Item → Item} (ids : List NodeId) (nodup : ids.Nodup)
    (arena : Arena) (live : ∀ id ∈ ids, (arena.slots id).isSome) :
    (ids.forM fun node => Linking.touch node change) arena =
      some (.ok (), arena.touchAll ids change) := by
  induction ids generalizing arena with
  | nil =>
      have same : arena.touchAll [] change = arena :=
        Arena.ext (funext fun other => by simp [Arena.touchAll]) rfl rfl
      rw [same]
      rfl
  | cons id rest ih =>
      obtain ⟨notLater, nodupRest⟩ := List.nodup_cons.mp nodup
      obtain ⟨slot, stored⟩ := Option.isSome_iff_exists.mp (live id List.mem_cons_self)
      refine (Linking.bind_ok (Linking.amend_ok stored)).trans ?_
      refine (ih nodupRest _ fun other member => ?_).trans ?_
      · rw [Arena.slots_amend]
        split
        · rw [stored]
          rfl
        · exact live other (List.mem_cons_of_mem _ member)
      · have same : (arena.amend id (Slot.touch change)).touchAll rest change =
            arena.touchAll (id :: rest) change := by
          refine Arena.ext (funext fun other => ?_) rfl rfl
          simp only [Arena.touchAll, Arena.slots_amend]
          by_cases here : other = id
          · subst here
            simp [notLater, stored]
          · simp [here]
        rw [same]

theorem follows_restamp (numbered : document.Numbered) (id : NodeId)
    (source : Option Text.Location) :
    Follows (Linking.restamp id source) (Edit.restamp id source) document := by
  cases found : document.find? id with
  | none =>
      have unknown : document.item? id = none := by rw [Document.item?, found]; rfl
      exact Follows.of_error (Edit.bind_error (Edit.ask_error unknown)) numbered
        (Linking.bind_error (Linking.bind_error (Linking.slot_error (Document.absent_slot found))))
  | some pair =>
      obtain ⟨item, children⟩ := pair
      have known := Document.item?_of_find? found
      obtain ⟨notBelow, nodupBelow⟩ := Forest.nodup_below numbered.nodup found
      let after : Document :=
        { document with forest := document.forest.updateTree id (Item.stamp source) }
      have ran : Edit.restamp id source document = .ok () after :=
        (bind_ok (Edit.ask_ok known)).trans rfl
      have numberedAfter : after.Numbered := by
        refine ⟨?_, ?_⟩
        · rw [Forest.ids_updateTree]
          exact numbered.nodup
        · rw [Forest.ids_updateTree]
          exact numbered.given
      refine Follows.of_ok ran numberedAfter ?_
      -- First the node itself, then what is below it.
      let mid := document.retouch id (Item.stamp source)
      have touched := (follows_touch numbered id (Item.stamp source)).ok (Edit.updateItem_ok found)
      have foundMid : mid.find? id = some (item.stamp source, children) := by
        rw [Document.find?_retouch, found, Option.map_some, if_pos rfl,
          Forest.update_of_not_mem notBelow]
      refine (Linking.bind_ok touched.2).trans ?_
      refine (Linking.bind_ok (Linking.descendants_eq touched.1 foundMid)).trans ?_
      refine (Linking.forM_touch children.ids nodupBelow mid.arena fun inner member => ?_).trans ?_
      · obtain ⟨_, _, inside⟩ := Forest.exists_find? (Forest.mem_ids_below foundMid member)
        obtain ⟨_, stored⟩ := Document.slots_of_find? (show mid.find? inner = _ from inside)
        rw [stored]
        rfl
      · have same : mid.arena.touchAll children.ids (Item.stamp source) = after.arena := by
          refine Arena.ext (funext fun other => ?_) rfl rfl
          refine Eq.trans ?_ (Forest.slot?_updateTree numbered.nodup found).symm
          show (Forest.slot? other none (document.forest.update id (Item.stamp source))).map _ = _
          rw [Forest.slot?_update, Option.map_map]
          refine congrArg (Option.map · _) (funext fun slot => ?_)
          by_cases here : other = id
          · simp [here, notBelow]
          · simp [here]
        rw [same]

end ApplyRule
