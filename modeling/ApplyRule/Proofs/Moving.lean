/-
# ApplyRule.Proofs.Moving -- moving a node, link by link

A node that is moved is first taken out of its place and then put at an index among
the children of its new parent.  Taking a node out leaves its tree standing apart
(`follows_detach`); putting it back is followed where the new forest has the slots
of that index (`follows_place`).  So all three moves are followed:
`follows_append`, and `follows_insertBeside` for the places before and after a
node, next to itself included.
-/
import ApplyRule.Proofs.Following

namespace ApplyRule

set_option autoImplicit false

variable {document : Document} {id other parent node anchor : NodeId} {item : Item}
  {children : Forest Node}

/-! ## Where a node may stand -/

/-- A node may stand below a parent. -/
structure Document.Insertable (document : Document) (parent node : NodeId) : Prop where
  housed : ∃ item children, document.find? parent = some (item, children) ∧
    item.kind.isContainer = true
  apart : ∃ item children, document.find? node = some (item, children) ∧
    parent ∉ node :: children.ids

theorem follows_checkInsertable (numbered : document.Numbered) (parent node : NodeId) :
    Follows (Linking.checkInsertable parent node) (Edit.checkInsertable parent node) document := by
  refine Follows.ask numbered (document.kind?_eq_slots parent) fun slot stored => ?_
  by_cases container : slot.item.kind.isContainer = true
  · simp only [container, if_true]
    refine Follows.get ?_
    rw [Document.contains_eq_slots]
    by_cases alive : (document.arena.slots node).isSome = true
    · simp only [alive, if_true]
      refine Follows.step (Linking.meets_eq numbered node parent) rfl ?_
      split
      · exact Follows.throw numbered _
      · exact Follows.pure numbered _
    · simp only [alive]
      exact Follows.throw numbered _
  · simp only [container]
    exact Follows.throw numbered _

theorem Document.Insertable.check (may : document.Insertable parent node)
    (nodup : document.forest.ids.Nodup) :
    Edit.checkInsertable parent node document = .ok () document := by
  obtain ⟨⟨upper, siblings, foundParent, container⟩, item, children, found, outside⟩ := may
  have present : document.contains node = true := by rw [Document.contains, found]; rfl
  have notAbove : document.isAncestor node parent = false := by
    by_contra above
    rw [Bool.not_eq_false] at above
    exact outside ((Document.isAncestor_iff nodup found).mp above)
  refine (bind_ok (Edit.ask_ok (Document.kind?_of_find? foundParent))).trans ?_
  simp only [container, if_true]
  refine (bind_ok (Edit.get_ok document)).trans ?_
  simp only [present, notAbove, if_true]
  rfl

theorem Edit.outcome_ask {α : Type} (question : Document → Option α) (document : Document) :
    Outcome (Edit.ask question) document
      (fun answer after => after = document ∧ question document = some answer)
      (fun _ after => after = document) := by
  cases known : question document with
  | none => exact Outcome.of_error (Edit.ask_error known) rfl
  | some answer => exact Outcome.of_ok (Edit.ask_ok known) ⟨rfl, rfl⟩

/-- The check tells whether a node may stand below a parent. -/
theorem Edit.outcome_checkInsertable (parent node : NodeId) (nodup : document.forest.ids.Nodup) :
    Outcome (Edit.checkInsertable parent node) document
      (fun _ after => after = document ∧ document.Insertable parent node)
      (fun _ after => after = document) := by
  refine (Edit.outcome_ask (·.kind? parent) document).bind ?_
  rintro kind _ ⟨same, known⟩
  rw [same]
  obtain ⟨upper, siblings, foundParent, rfl⟩ := Document.find?_of_kind? known
  by_cases container : upper.kind.isContainer = true
  · simp only [container, if_true]
    refine Outcome.bind_of_ok rfl ?_
    by_cases present : document.contains node = true
    · simp only [present, if_true]
      obtain ⟨⟨item, children⟩, found⟩ := Option.isSome_iff_exists.mp present
      by_cases above : document.isAncestor node parent = true
      · rw [if_pos above]
        exact Outcome.of_error rfl rfl
      · rw [if_neg above]
        refine Outcome.pure ⟨rfl, ⟨upper, siblings, foundParent, container⟩, item, children, found,
          fun inside => above ((Document.isAncestor_iff nodup found).mpr inside)⟩
    · simp only [present]
      exact Outcome.of_error rfl rfl
  · simp only [container]
    exact Outcome.of_error rfl rfl

/-! ## Taking a node out -/

/-- The document with a node's tree standing apart. -/
def Document.apart (document : Document) (id : NodeId) (item : Item) (children : Forest Node) :
    Document :=
  { document with forest := document.forest.prune id ++ .tree ⟨id, item⟩ children }

namespace Document

theorem prune_parts (nodup : document.forest.ids.Nodup)
    (found : document.find? id = some (item, children)) :
    (document.forest.prune id).ids.Nodup ∧
      ∀ other, other ∈ (document.forest.prune id).ids ↔
        other ∈ document.forest.ids ∧ other ∉ id :: children.ids := by
  have emptyNodup : (.nil : Forest Node).ids.Nodup := List.nodup_nil
  rw [Forest.prune_eq_replace nodup]
  refine ⟨Forest.nodup_replace nodup found emptyNodup (by simp), fun other => ?_⟩
  rw [Forest.mem_ids_replace nodup found]
  simp

theorem Numbered.apart (numbered : document.Numbered)
    (found : document.find? id = some (item, children)) :
    (document.apart id item children).Numbered := by
  obtain ⟨nodup, members⟩ := prune_parts numbered.nodup found
  have sublist := Forest.ids_sublist_of_find? found
  refine ⟨?_, ?_⟩
  · rw [Document.apart, Forest.ids_append, Forest.ids_tree]
    refine List.nodup_append'.mpr ⟨nodup, sublist.nodup numbered.nodup, fun other left inside => ?_⟩
    exact ((members other).mp left).2 inside
  · intro other member
    rw [Document.apart, Forest.ids_append, Forest.ids_tree] at member
    rcases List.mem_append.mp member with left | inside
    · exact numbered.given other ((members other).mp left).1
    · exact numbered.given other (sublist.subset inside)

theorem find?_apart (nodup : document.forest.ids.Nodup)
    (found : document.find? id = some (item, children)) :
    (document.apart id item children).find? id = some (item, children) := by
  obtain ⟨-, members⟩ := prune_parts nodup found
  have gone : id ∉ (document.forest.prune id).ids :=
    fun member => ((members id).mp member).2 List.mem_cons_self
  rw [find?, Document.apart, Forest.find?_append, Forest.find?_of_not_mem gone, Option.none_or,
    Forest.tree, Forest.find?, if_pos rfl]

theorem find?_prune (nodup : document.forest.ids.Nodup)
    (found : document.find? id = some (item, children)) (outside : other ∉ id :: children.ids) :
    (document.forest.prune id).find? other =
      (document.find? other).map fun pair => (pair.1, Forest.replace id .nil pair.2) := by
  rw [Forest.prune_eq_replace nodup]
  exact Forest.find?_replace nodup found outside List.not_mem_nil

theorem slots_apart_self (nodup : document.forest.ids.Nodup)
    (found : document.find? id = some (item, children)) :
    (document.apart id item children).arena.slots id = some ⟨item, none, children.tops⟩ := by
  obtain ⟨-, members⟩ := prune_parts nodup found
  have gone : id ∉ (document.forest.prune id).ids :=
    fun member => ((members id).mp member).2 List.mem_cons_self
  show Forest.slot? id none (document.forest.prune id ++ .tree ⟨id, item⟩ children) = _
  rw [Forest.slot?_append, Forest.slot?_eq_none gone, Option.none_or, Forest.slot?_tree_top]

end Document

theorem Document.arena_apart_top {slot : Slot} (nodup : document.forest.ids.Nodup)
    (found : document.find? id = some (item, children))
    (stored : document.arena.slots id = some slot) (top : slot.parent = none) :
    (document.apart id item children).arena = document.arena := by
  refine Arena.ext (funext fun other => (Forest.slot?_apart nodup found stored).trans ?_) rfl rfl
  split
  · rename_i here
    rw [here, stored, ← top]
  · rw [top, if_neg nofun]
    rfl

/-- After a node is taken out, its tree stands apart. -/
theorem Linking.detach_eq (numbered : document.Numbered)
    (found : document.find? id = some (item, children)) :
    Linking.detach id document.arena =
      some (.ok (), (document.apart id item children).arena) := by
  obtain ⟨parent, stored⟩ := Document.slots_of_find? found
  have slots : ∀ other, (document.apart id item children).arena.slots other = _ :=
    fun other => Forest.slot?_apart numbered.nodup found stored
  refine (Linking.bind_ok (Linking.slot_ok stored)).trans ?_
  cases parent with
  | none =>
      rw [Document.arena_apart_top numbered.nodup found stored rfl]
      rfl
  | some parent =>
      have ne : id ≠ parent := by
        rintro rfl
        exact numbered.linked.acyclic id (.single ⟨_, stored, rfl⟩)
      let taken := document.arena.amend parent fun slot =>
        { slot with children := slot.children.filter (· ≠ id) }
      have left : taken.slots id = some ⟨item, some parent, children.tops⟩ := by
        rw [Arena.slots_amend, if_neg ne, stored]
      have moved : (taken.amend id fun slot => { slot with parent := none }) =
          (document.apart id item children).arena := by
        refine Arena.ext (funext fun other => ?_) rfl rfl
        rw [slots other, Arena.slots_amend, left]
        split
        · rfl
        · rw [Arena.slots_amend]
          by_cases above : other = parent
          · subst above
            rw [if_pos rfl, if_pos rfl]
            refine congrArg (Option.map · _) (funext fun slot => ?_)
            rw [Slot.exchange, NodeId.exchange_nil]
          · have elsewhere : some parent ≠ some other := fun eq => above (Option.some.inj eq).symm
            rw [if_neg above, if_neg elsewhere]
            rfl
      exact (Linking.modify_bind _).trans ((Linking.amend_ok left).trans (by rw [moved]))

theorem follows_detach (numbered : document.Numbered) (id : NodeId) :
    Follows (Linking.detach id) (Edit.detach id) document := by
  cases found : document.find? id with
  | none =>
      have gone : document.arena.slots id = none := by rw [Document.slots_eq, found]; rfl
      exact Follows.of_error (Edit.bind_error (Edit.ask_error found)) numbered
        (Linking.bind_error (Linking.slot_error gone))
  | some pair =>
      obtain ⟨item, children⟩ := pair
      obtain ⟨parent, stored⟩ := Document.slots_of_find? found
      have asked := document.parent?_eq_slots id
      rw [stored, Option.map_some] at asked
      have moved := Linking.detach_eq numbered found
      cases parent with
      | none =>
          have stays : Edit.detach id document = .ok () document := by
            refine (bind_ok (Edit.ask_ok found)).trans ((bind_ok (Edit.ask_ok asked)).trans ?_)
            rfl
          rw [Document.arena_apart_top numbered.nodup found stored rfl] at moved
          exact Follows.of_ok stays numbered moved
      | some parent =>
          have taken : Edit.detach id document = .ok () (document.apart id item children) := by
            refine (bind_ok (Edit.ask_ok found)).trans ((bind_ok (Edit.ask_ok asked)).trans ?_)
            rfl
          exact Follows.of_ok taken (numbered.apart found) moved

/-! ## Below a node -/

/-- The document with a node's tree put back as `insert` says. -/
def Document.moved (document : Document) (id : NodeId) (item : Item) (children : Forest Node)
    (insert : Forest Node → Forest Node → Forest Node) : Document :=
  { document with forest := insert (.tree ⟨id, item⟩ children) (document.forest.prune id) }

theorem Edit.move_ok {insert : Forest Node → Forest Node → Forest Node}
    (found : document.find? node = some (item, children)) :
    Edit.move node insert document = .ok () (document.moved node item children insert) :=
  (bind_ok (Edit.ask_ok found)).trans rfl

/-- A move to a place is followed if the new forest has the slots of that place. -/
theorem follows_place {insert : Forest Node → Forest Node → Forest Node} {index : Nat}
    (numbered : document.Numbered) (may : document.Insertable parent node)
    (found : document.find? node = some (item, children))
    (after : (document.moved node item children insert).Numbered)
    (fits : ∀ other, (document.moved node item children insert).arena.slots other =
      if other = node then some ⟨item, some parent, children.tops⟩
      else if other = parent then
        ((document.apart node item children).arena.slots other).map fun slot =>
          { slot with
            children := slot.children.insertIdx (min index slot.children.length) node }
      else (document.apart node item children).arena.slots other) :
    Follows (Linking.place parent index node) (Edit.move node insert) document := by
  refine Follows.of_ok (Edit.move_ok found) after ?_
  obtain ⟨⟨upper, siblings, foundParent, -⟩, _, _, foundToo, outside⟩ := may
  cases found.symm.trans foundToo
  have ne : node ≠ parent := fun eq => outside (eq ▸ List.mem_cons_self)
  have stored := Document.slots_apart_self numbered.nodup found
  have left := (Document.find?_prune numbered.nodup found outside).trans
    (by rw [foundParent, Option.map_some])
  have holds : (document.apart node item children).find? parent = _ :=
    (Forest.find?_append ..).trans (by rw [left, Option.some_or])
  obtain ⟨above, held⟩ := Document.slots_of_find? holds
  refine (Linking.bind_ok (Linking.detach_eq numbered found)).trans ?_
  refine (Linking.bind_ok (Linking.amend_ok held)).trans ?_
  refine (Linking.amend_ok (by rw [Arena.slots_amend, if_neg ne, stored])).trans ?_
  refine congrArg (fun arena => some (Except.ok (), arena)) ?_
  refine Arena.ext (funext fun other => ?_) rfl rfl
  rw [fits other, Arena.slots_amend, Arena.slots_amend, if_neg ne, stored]
  split
  · rfl
  · split
    · rename_i here
      rw [here, Arena.slots_amend, if_pos rfl]
    · rename_i elsewhere
      rw [Arena.slots_amend, if_neg elsewhere]

/-- What is put back next to or below a node that stayed has been given out once. -/
theorem Document.Numbered.moved {insert : Forest Node → Forest Node → Forest Node}
    (numbered : document.Numbered) (found : document.find? node = some (item, children))
    {anchorItem : Item} {below more : Forest Node}
    (stays : (document.forest.prune node).find? anchor = some (anchorItem, below))
    (put : insert (.tree ⟨node, item⟩ children) (document.forest.prune node) =
      Forest.replace anchor more (document.forest.prune node))
    (perm : more.ids.Perm ((anchor :: below.ids) ++ node :: children.ids)) :
    (document.moved node item children insert).Numbered := by
  obtain ⟨nodup, members⟩ := Document.prune_parts numbered.nodup found
  have sublist := Forest.ids_sublist_of_find? found
  obtain ⟨whole, either⟩ := Forest.graft nodup stays perm (sublist.nodup numbered.nodup)
    fun other inside left => ((members other).mp left).2 inside
  refine ⟨?_, fun other member => ?_⟩
  · rw [Document.moved, put]
    exact whole
  · rw [Document.moved, put] at member
    rcases either other member with left | inside
    · exact numbered.given other ((members other).mp left).1
    · exact numbered.given other (sublist.subset inside)

/-- The part of a document that stays when a node is taken out. -/
theorem Document.stays_of_outside (nodup : document.forest.ids.Nodup)
    (found : document.find? node = some (item, children)) (outside : other ∉ node :: children.ids)
    {otherItem : Item} {below : Forest Node}
    (foundOther : document.find? other = some (otherItem, below)) :
    ∃ left, (document.forest.prune node).find? other = some (otherItem, left) ∧
      left.tops = below.tops.filter (· ≠ node) := by
  refine ⟨_, (Document.find?_prune nodup found outside).trans
    (by rw [foundOther, Option.map_some]), ?_⟩
  rw [Forest.tops_replace (Forest.nodup_below nodup foundOther).2]
  exact NodeId.exchange_nil

theorem follows_append (numbered : document.Numbered) (parent node : NodeId) :
    Follows (Linking.append parent node) (Edit.append parent node) document := by
  cases stored : document.arena.slots parent with
  | none =>
      have refused : Edit.checkInsertable parent node document = .error .noNode document :=
        Edit.bind_error (Edit.ask_error (by rw [document.kind?_eq_slots, stored]; rfl))
      exact Follows.of_error (Edit.bind_error refused) numbered
        (Linking.bind_error (Linking.slot_error stored))
  | some holder =>
      refine Follows.step (Linking.slot_ok stored) rfl ?_
      refine (follows_checkInsertable numbered parent node).bind fun _ after ran _ => ?_
      have outcome := Edit.outcome_checkInsertable parent node numbered.nodup
      rw [Outcome, ran] at outcome
      obtain ⟨rfl, may⟩ := outcome
      obtain ⟨⟨upper, siblings, foundParent, -⟩, item, children, found, outside⟩ := id may
      obtain ⟨nodup, members⟩ := Document.prune_parts numbered.nodup found
      obtain ⟨left, stays, tops⟩ :=
        Document.stays_of_outside numbered.nodup found outside foundParent
      obtain ⟨_, held⟩ := Document.slots_of_find? foundParent
      cases stored.symm.trans held
      obtain ⟨above, slotLeft⟩ := Forest.slot?_of_find? stays none
      have shorter : left.tops.length ≤ siblings.tops.length :=
        tops ▸ List.length_filter_le ..
      have apart : ∀ id ∈ node :: children.ids, id ∉ (after.forest.prune node).ids :=
        fun other inside kept => ((members other).mp kept).2 inside
      refine follows_place numbered may found ?_ fun other => ?_
      · refine numbered.moved found stays (Forest.adopt_eq_replace nodup stays) ?_
        rw [Forest.ids_tree, Forest.ids_append, Forest.ids_tree]
        exact List.Perm.refl _
      · refine (Forest.slot?_adopt nodup stays apart).trans ?_
        split
        · rfl
        · split
          · rename_i here
            have inApart : (after.apart node item children).arena.slots other =
                some ⟨upper, above, left.tops⟩ := by
              show Forest.slot? other none (after.forest.prune node ++ _) = _
              rw [Forest.slot?_append, here, slotLeft, Option.some_or]
            rw [inApart, here, slotLeft, Option.map_some, Option.map_some, Nat.min_eq_right shorter,
              List.insertIdx_length_self]
          · rfl

/-! ## Next to a node -/

theorem Forest.prune_append (id : NodeId) (first second : Forest Node) :
    (first ++ second).prune id = first.prune id ++ second.prune id := by
  induction first with
  | nil => rfl
  | cons node below rest _ ih =>
      rw [cons_append, prune, prune, ih]
      split <;> rfl

theorem Document.prune_apart (nodup : document.forest.ids.Nodup)
    (found : document.find? id = some (item, children)) :
    (document.apart id item children).forest.prune id = document.forest.prune id := by
  obtain ⟨nodupLeft, members⟩ := Document.prune_parts nodup found
  have gone : id ∉ (document.forest.prune id).ids :=
    fun member => ((members id).mp member).2 List.mem_cons_self
  have top : (Forest.tree ⟨id, item⟩ children).prune id = .nil := by
    rw [Forest.tree, Forest.prune, if_pos rfl, Forest.prune]
  rw [Document.apart, Forest.prune_append, top, Forest.append_nil,
    Forest.prune_eq_replace nodupLeft, Forest.replace_of_not_mem gone]

theorem Document.moved_apart (nodup : document.forest.ids.Nodup)
    (found : document.find? id = some (item, children))
    (insert : Forest Node → Forest Node → Forest Node) :
    (document.apart id item children).moved id item children insert =
      document.moved id item children insert := by
  rw [Document.moved, Document.prune_apart nodup found]
  rfl

/-- An insertion that puts a tree directly before or after a node. -/
def Beside (offset : Nat) (insert : NodeId → Forest Node → Forest Node → Forest Node) : Prop :=
  ∀ {anchor : NodeId} {forest tree below : Forest Node} {item : Item}, forest.ids.Nodup →
    forest.find? anchor = some (item, below) →
      ∃ more, insert anchor tree forest = Forest.replace anchor more forest ∧
        (offset = 0 ∧ more = tree ++ .tree ⟨anchor, item⟩ below ∨
          offset = 1 ∧ more = .tree ⟨anchor, item⟩ below ++ tree)

theorem beside_before : Beside 0 Forest.insertBefore :=
  fun nodup found => ⟨_, Forest.insertBefore_eq_replace nodup found, .inl ⟨rfl, rfl⟩⟩

theorem beside_after : Beside 1 Forest.insertAfter :=
  fun nodup found => ⟨_, Forest.insertAfter_eq_replace nodup found, .inr ⟨rfl, rfl⟩⟩

/-- A node that was taken out has no place next to itself. -/
theorem Linking.indexOf_apart (nodup : document.forest.ids.Nodup)
    (found : document.find? id = some (item, children)) :
    Linking.indexOf id (document.apart id item children).arena =
      some (.ok none, (document.apart id item children).arena) :=
  (Linking.bind_ok (Linking.slot_ok (Document.slots_apart_self nodup found))).trans rfl

theorem follows_beside_apart {offset : Nat}
    {insert : NodeId → Forest Node → Forest Node → Forest Node} (beside : Beside offset insert)
    (numbered : document.Numbered) (may : document.Insertable parent node)
    (found : document.find? node = some (item, children)) (ne : anchor ≠ node)
    {slot : Slot} (stored : document.arena.slots anchor = some slot)
    (above : slot.parent = some parent) :
    Follows (do
        match ← Linking.indexOf anchor with
        | none => throw .noParent
        | some index => Linking.insertAt parent (index + offset) node)
      (Edit.move node (insert anchor)) (document.apart node item children) := by
  obtain ⟨⟨upper, siblings, foundParent, container⟩, _, _, foundToo, outside⟩ := id may
  cases found.symm.trans foundToo
  obtain ⟨nodup, members⟩ := Document.prune_parts numbered.nodup found
  have apart : ∀ id ∈ node :: children.ids, id ∉ (document.forest.prune node).ids :=
    fun other inside kept => ((members other).mp kept).2 inside
  have kept : ∀ {other : NodeId} {slot : Slot},
      (document.forest.prune node).slot? other none = some slot →
        (document.apart node item children).arena.slots other = some slot := by
    intro other slot left
    exact (Forest.slot?_append ..).trans (by rw [left, Option.some_or])
  -- The anchor stays a child of the parent when the node is gone.
  obtain ⟨_, _, foundToo, child⟩ := Forest.child_of_parent numbered.nodup stored above
  cases foundParent.symm.trans foundToo
  obtain ⟨left, stays, tops⟩ := Document.stays_of_outside numbered.nodup found outside foundParent
  have childLeft : anchor ∈ left.tops := by
    rw [tops]
    exact List.mem_filter.mpr ⟨child, by simpa using ne⟩
  obtain ⟨slotLeft, storedLeft, aboveLeft⟩ := Forest.parent_of_child nodup stays childLeft
  obtain ⟨below, foundLeft, -⟩ := Forest.find?_of_slot? storedLeft
  obtain ⟨upwards, holder⟩ := Forest.slot?_of_find? stays none
  obtain ⟨index, stands, inside, before, after⟩ := NodeId.exchange_eq_insertIdx
    (left.tops_sublist.nodup (Forest.nodup_below nodup stays).2) childLeft node
  have place : Linking.indexOf anchor (document.apart node item children).arena =
      some (.ok (some index), (document.apart node item children).arena) := by
    refine (Linking.bind_ok (Linking.slot_ok (kept storedLeft))).trans ?_
    rw [aboveLeft]
    refine (Linking.bind_ok (Linking.slot_ok (kept holder))).trans ?_
    rw [stands]
    rfl
  have foundApart := Document.find?_apart numbered.nodup found
  have mayApart : (document.apart node item children).Insertable parent node := by
    refine ⟨⟨upper, left, ?_, container⟩, item, children, foundApart, outside⟩
    exact (Forest.find?_append ..).trans (by rw [stays, Option.some_or])
  have numberedApart := numbered.apart found
  have checked := (follows_checkInsertable numberedApart parent node).ok
    (mayApart.check numberedApart.nodup)
  refine Follows.step place rfl (Follows.step checked.2 rfl ?_)
  obtain ⟨more, put, order⟩ := beside nodup foundLeft
  have moved := Document.moved_apart numbered.nodup found (insert anchor)
  refine follows_place numberedApart mayApart foundApart ?_ fun other => ?_
  · rw [moved]
    refine numbered.moved found foundLeft put ?_
    rcases order with ⟨-, rfl⟩ | ⟨-, rfl⟩ <;>
      rw [Forest.ids_append, Forest.ids_tree, Forest.ids_tree]
    exact List.perm_append_comm
  · rw [moved, Document.arena_apart_top numberedApart.nodup foundApart
      (Document.slots_apart_self numbered.nodup found) rfl]
    show (insert anchor _ _).slot? other none = _
    rw [put]
    refine (Forest.slot?_beside nodup foundLeft storedLeft aboveLeft apart
      (order.imp And.right And.right)).trans ?_
    split
    · rfl
    · split
      · rename_i here
        rw [here, holder, kept holder, Option.map_some, Option.map_some, Slot.exchange]
        refine congrArg (fun children => some (⟨upper, upwards, children⟩ : Slot)) ?_
        rcases order with ⟨rfl, rfl⟩ | ⟨rfl, rfl⟩
        · show anchor.exchange [node, anchor] left.tops =
            left.tops.insertIdx (min index left.tops.length) node
          rw [Nat.min_eq_left (Nat.le_of_lt inside), before]
        · show anchor.exchange [anchor, node] left.tops =
            left.tops.insertIdx (min (index + 1) left.tops.length) node
          rw [Nat.min_eq_left inside, after]
      · rfl

theorem follows_insertBeside {offset : Nat}
    {insert : NodeId → Forest Node → Forest Node → Forest Node} (beside : Beside offset insert)
    (numbered : document.Numbered) (anchor node : NodeId) :
    Follows (Linking.insertBeside offset anchor node) (Edit.insertBeside anchor node insert)
      document := by
  refine Follows.ask numbered (document.parent?_eq_slots anchor) fun slot stored => ?_
  cases above : slot.parent with
  | none => exact Follows.throw numbered _
  | some parent =>
      refine (follows_checkInsertable numbered parent node).bind fun _ after ran _ => ?_
      have outcome := Edit.outcome_checkInsertable parent node numbered.nodup
      rw [Outcome, ran] at outcome
      obtain ⟨rfl, may⟩ := outcome
      obtain ⟨-, item, children, found, -⟩ := id may
      have detached := Linking.detach_eq numbered found
      by_cases same : anchor = node
      · subst same
        rw [if_pos rfl]
        refine (follows_detach numbered anchor).bind fun _ last ran numberedLast => ?_
        have taken := ((follows_detach numbered anchor).ok ran).2
        have eq : last.arena = (after.apart anchor item children).arena := by
          simpa using taken.symm.trans detached
        have stays := Linking.indexOf_apart numbered.nodup found
        rw [← eq] at stays
        exact Follows.step stays rfl (Follows.throw numberedLast _)
      · rw [if_neg same]
        have anyhow : Edit.move node (insert anchor) after =
            Edit.move node (insert anchor) (after.apart node item children) := by
          rw [Edit.move_ok found, Edit.move_ok (Document.find?_apart numbered.nodup found),
            Document.moved_apart numbered.nodup found]
        exact Follows.step detached anyhow
          (follows_beside_apart beside numbered may found same stored above)

end ApplyRule
