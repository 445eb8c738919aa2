/-
# ApplyRule.Proofs.Following -- the edits of a document, link by link

Every document has an arena (`Document.arena`), and if every identity stands in it
once, the links of that arena belong together (`Document.Numbered.linked`).

`Follows link edit document` says that `link` does to the arena of a document what
`edit` does to the document: it ends, with the same answer or the same refusal, and
what it leaves is the arena of what `edit` leaves.  Here that is shown of taking a
node out and of putting it elsewhere; `follows_place` is the step they share.
-/
import ApplyRule.Proofs.Editing
import ApplyRule.Proofs.Slots
import Mathlib.Data.List.Perm.Subperm

namespace ApplyRule

set_option autoImplicit false

/-! ## Documents -/

namespace Document

/-- The arena that a document is kept in. -/
def arena (document : Document) : Arena :=
  ⟨fun id => document.forest.slot? id none, document.root, document.fresh⟩

variable {document : Document} {child parent id : NodeId}

theorem under_iff (nodup : document.forest.ids.Nodup) : document.arena.Under child parent ↔
    ∃ item children, document.forest.find? parent = some (item, children) ∧
      child ∈ children.tops := by
  constructor
  · rintro ⟨slot, stored, above⟩
    exact Forest.child_of_parent nodup stored above
  · rintro ⟨item, children, found, member⟩
    exact Forest.parent_of_child nodup found member

/-- How many nodes are below a node. -/
def weight (document : Document) (id : NodeId) : Nat :=
  ((document.forest.find? id).map fun pair => pair.2.size).getD 0

/-- There are fewer nodes below a child than below its parent. -/
theorem weight_lt (nodup : document.forest.ids.Nodup) (under : document.arena.Under child parent) :
    document.weight child < document.weight parent := by
  obtain ⟨item, children, found, member⟩ := (under_iff nodup).mp under
  have within := Forest.mem_ids_of_mem_tops member
  obtain ⟨inner, below, inside⟩ := Forest.exists_find? within
  have foundChild := (Forest.find?_eq_find? nodup found within).trans inside
  have shorter := (Forest.labels_sublist_of_find? inside).length_le
  rw [List.length_cons, Forest.length_labels, Forest.length_labels] at shorter
  rw [weight, weight, found, foundChild]
  exact shorter

/-- **The links of a document belong together.** -/
theorem Numbered.linked (numbered : document.Numbered) : document.arena.Linked := by
  refine ⟨?_, ?_, ?_, ?_⟩
  · intro child slot stored parent
    constructor
    · intro above
      obtain ⟨item, children, found, member⟩ :=
        Forest.child_of_parent numbered.nodup stored above
      obtain ⟨upper, held⟩ := Forest.slot?_of_find? found none
      exact ⟨_, held, member⟩
    · rintro ⟨holder, held, member⟩
      obtain ⟨children, found, eq⟩ := Forest.find?_of_slot? held
      obtain ⟨slot', storedToo, above⟩ := Forest.parent_of_child numbered.nodup found (eq ▸ member)
      cases stored.symm.trans storedToo
      exact above
  · intro id slot stored
    obtain ⟨children, found, eq⟩ := Forest.find?_of_slot? stored
    rw [eq]
    exact children.tops_sublist.nodup (Forest.nodup_below numbered.nodup found).2
  · intro id slot stored child member
    obtain ⟨_, _, found⟩ := Forest.exists_find? (Forest.mem_ids_of_mem_children stored member)
    obtain ⟨_, held⟩ := Forest.slot?_of_find? found none
    exact Option.isSome_of_eq_some held
  · intro id cycle
    have lighter : ∀ {lower upper : NodeId}, Relation.TransGen document.arena.Under lower upper →
        document.weight lower < document.weight upper := by
      intro lower upper path
      induction path with
      | single under => exact weight_lt numbered.nodup under
      | tail _ under ih => exact Nat.lt_trans ih (weight_lt numbered.nodup under)
    exact Nat.lt_irrefl _ (lighter cycle)

end Document

/-! ## Following -/

namespace Linking

variable {α β : Type} {arena after : Arena} {first : Linking α} {next : α → Linking β}

theorem bind_ok {answer : α} (ran : first arena = some (.ok answer, after)) :
    (first >>= next) arena = next answer after := by
  show StateT.bind first _ arena = _
  rw [StateT.bind, ran]
  rfl

theorem bind_error {error : TreeError} (ran : first arena = some (.error error, after)) :
    (first >>= next) arena = some (.error error, after) := by
  show StateT.bind first _ arena = _
  rw [StateT.bind, ran]
  rfl

theorem get_ok (arena : Arena) : (get : Linking Arena) arena = some (.ok arena, arena) := rfl

theorem slot_ok {id : NodeId} {slot : Slot} (stored : arena.slots id = some slot) :
    Linking.slot id arena = some (.ok slot, arena) := by
  refine (bind_ok (get_ok arena)).trans ?_
  rw [stored]
  rfl

theorem slot_error {id : NodeId} (absent : arena.slots id = none) :
    Linking.slot id arena = some (.error .noNode, arena) := by
  refine (bind_ok (get_ok arena)).trans ?_
  rw [absent]
  rfl

theorem modify_bind (change : Arena → Arena) {next : Unit → Linking β} :
    (modify change >>= next) arena = next () (change arena) := rfl

theorem amend_ok {id : NodeId} {slot : Slot} {change : Slot → Slot}
    (stored : arena.slots id = some slot) :
    Linking.amend id change arena = some (.ok (), arena.amend id change) :=
  bind_ok (slot_ok stored)

end Linking

theorem Edit.ask_error {α : Type} {question : Document → Option α} {document : Document}
    (unknown : question document = none) :
    Edit.ask question document = .error .noNode document := by
  unfold Edit.ask
  rw [bind_ok (Edit.get_ok document), unknown]
  rfl

theorem Edit.bind_error {α β : Type} {first : Edit α} {next : α → Edit β} {error : TreeError}
    {document after : Document} (ran : first document = .error error after) :
    (first >>= next) document = .error error after :=
  bind_refused ran

/-- `link` does to the arena of a document what `edit` does to the document. -/
def Follows {α : Type} (link : Linking α) (edit : Edit α) (document : Document) : Prop :=
  Outcome edit document
    (fun answer after => after.Numbered ∧ link document.arena = some (.ok answer, after.arena))
    (fun error after => after.Numbered ∧ link document.arena = some (.error error, after.arena))

namespace Follows

variable {α β γ : Type} {document after : Document} {link : Linking α} {edit : Edit α}

theorem of_ok {answer : α} (ran : edit document = .ok answer after) (numbered : after.Numbered)
    (linked : link document.arena = some (.ok answer, after.arena)) :
    Follows link edit document :=
  Outcome.of_ok ran ⟨numbered, linked⟩

theorem of_error {error : TreeError} (ran : edit document = .error error after)
    (numbered : after.Numbered) (linked : link document.arena = some (.error error, after.arena)) :
    Follows link edit document :=
  Outcome.of_error ran ⟨numbered, linked⟩

theorem ok {answer : α} (follows : Follows link edit document)
    (ran : edit document = .ok answer after) :
    after.Numbered ∧ link document.arena = some (.ok answer, after.arena) := by
  unfold Follows Outcome at follows
  rwa [ran] at follows

theorem pure (numbered : document.Numbered) (answer : α) :
    Follows (Pure.pure answer) (Pure.pure answer) document :=
  of_ok rfl numbered rfl

theorem throw (numbered : document.Numbered) (error : TreeError) :
    Follows (MonadExcept.throw error : Linking α) (MonadExcept.throw error) document :=
  of_error rfl numbered rfl

theorem bind {next : α → Linking β} {next' : α → Edit β} (first : Follows link edit document)
    (later : ∀ answer after, edit document = .ok answer after → after.Numbered →
      Follows (next answer) (next' answer) after) :
    Follows (link >>= next) (edit >>= next') document := by
  rcases first.cases with ⟨answer, after, ran, numbered, linked⟩ |
    ⟨error, after, ran, numbered, linked⟩
  · have rest := later answer after ran numbered
    unfold Follows Outcome at rest ⊢
    rw [Linking.bind_ok linked, ApplyRule.bind_ok ran]
    exact rest
  · exact of_error (Edit.bind_error ran) numbered (Linking.bind_error linked)

/-- A step that only the arena takes. -/
theorem step {first : Linking β} {answer : β} {next : β → Linking α} {edit' : Edit α}
    (ran : first document.arena = some (.ok answer, after.arena))
    (same : edit document = edit' after) (later : Follows (next answer) edit' after) :
    Follows (first >>= next) edit document := by
  unfold Follows Outcome at later ⊢
  rw [Linking.bind_ok ran, same]
  exact later

theorem get {next : Arena → Linking α} {next' : Document → Edit α}
    (later : Follows (next document.arena) (next' document) document) :
    Follows (MonadState.get >>= next) (MonadState.get >>= next') document :=
  later

/-- A question that a slot answers. -/
theorem ask {question : Document → Option β} {id : NodeId} {view : Slot → β}
    {next : Slot → Linking α} {next' : β → Edit α} (numbered : document.Numbered)
    (answers : question document = (document.arena.slots id).map view)
    (later : ∀ slot, document.arena.slots id = some slot →
      Follows (next slot) (next' (view slot)) document) :
    Follows (Linking.slot id >>= next) (Edit.ask question >>= next') document := by
  cases stored : document.arena.slots id with
  | none =>
      rw [stored, Option.map_none] at answers
      exact of_error (Edit.bind_error (Edit.ask_error answers)) numbered
        (Linking.bind_error (Linking.slot_error stored))
  | some slot =>
      rw [stored, Option.map_some] at answers
      have rest := later slot stored
      unfold Follows Outcome at rest ⊢
      rw [Linking.bind_ok (Linking.slot_ok stored), ApplyRule.bind_ok (Edit.ask_ok answers)]
      exact rest

end Follows

/-! ## Questions -/

namespace Document

variable {document : Document} {id : NodeId}

theorem slots_eq (document : Document) (id : NodeId) : document.arena.slots id =
    (document.find? id).bind fun pair => (document.lineage? id).map fun path =>
      ⟨pair.1, path.head?.map Node.id, pair.2.tops⟩ :=
  Forest.slot?_eq id [] document.forest

theorem slots_of_find? {item : Item} {children : Forest Node}
    (found : document.find? id = some (item, children)) :
    ∃ parent, document.arena.slots id = some ⟨item, parent, children.tops⟩ :=
  Forest.slot?_of_find? found none

theorem item?_eq_slots (document : Document) (id : NodeId) :
    document.item? id = (document.arena.slots id).map Slot.item := by
  cases found : document.find? id with
  | none =>
      rw [item?, found, slots_eq, found]
      rfl
  | some pair =>
      obtain ⟨parent, stored⟩ := slots_of_find? found
      rw [item?, found, stored]
      rfl

theorem kind?_eq_slots (document : Document) (id : NodeId) :
    document.kind? id = (document.arena.slots id).map fun slot => slot.item.kind := by
  rw [kind?, item?_eq_slots, Option.map_map]
  rfl

theorem children?_eq_slots (document : Document) (id : NodeId) :
    document.children? id = (document.arena.slots id).map Slot.children := by
  cases found : document.find? id with
  | none =>
      rw [children?, found, slots_eq, found]
      rfl
  | some pair =>
      obtain ⟨parent, stored⟩ := slots_of_find? found
      rw [children?, found, stored]
      rfl

theorem parent?_eq_slots (document : Document) (id : NodeId) :
    document.parent? id = (document.arena.slots id).map Slot.parent := by
  rw [parent?, slots_eq]
  cases found : document.find? id with
  | none =>
      rw [lineage?, Forest.lineage?_of_not_mem (Forest.find?_eq_none.mp found)]
      rfl
  | some pair =>
      rw [Option.bind_some, Option.map_map]
      rfl

theorem contains_eq_slots (document : Document) (id : NodeId) :
    document.contains id = (document.arena.slots id).isSome := by
  have := congrArg Option.isSome (item?_eq_slots document id)
  rwa [item?, Option.isSome_map, Option.isSome_map] at this

/-- A node is above another, or is it, where the other is in its tree. -/
theorem isAncestor_iff (nodup : document.forest.ids.Nodup) {node : NodeId} {item : Item}
    {children : Forest Node} (found : document.find? node = some (item, children)) :
    document.isAncestor node id = true ↔ id ∈ node :: children.ids := by
  rw [isAncestor, Bool.or_eq_true, decide_eq_true_iff, List.mem_cons, eq_comm]
  refine or_congr_right ?_
  by_cases member : id ∈ document.forest.ids
  · obtain ⟨path, lineage⟩ := Forest.exists_lineage? member []
    obtain ⟨within, eq, held, -⟩ := Forest.held_of_lineage? nodup lineage
    rw [List.append_nil] at eq
    subst eq
    rw [lineage?, lineage, Option.getD_some, List.any_eq_true]
    constructor
    · rintro ⟨upper, above, same⟩
      obtain ⟨inner, foundUpper, inside⟩ := held upper above
      rw [decide_eq_true_iff.mp same] at foundUpper
      cases found.symm.trans foundUpper
      exact inside
    · intro inside
      obtain ⟨path, lineageNode⟩ := Forest.exists_lineage? (Forest.mem_ids_of_find? found) []
      rw [Forest.lineage?_within nodup found lineageNode inside] at lineage
      obtain ⟨_, rfl, -⟩ := Forest.held_of_lineage? (Forest.nodup_below nodup found).2 lineage
      exact ⟨⟨node, item⟩, by simp, by simp⟩
  · have absent : id ∉ children.ids := fun inside => member (Forest.mem_ids_below found inside)
    rw [lineage?, Forest.lineage?_of_not_mem member]
    simp [absent]

end Document

/-! ## The way up -/

/-- The way up from a node comes to no node twice. -/
theorem Forest.length_lineage?_le {forest : Forest Node} {id : NodeId} {above path : List Node}
    (lineage : forest.lineage? id above = some path) :
    path.length ≤ above.length + forest.ids.length := by
  induction forest generalizing above with
  | nil => cases lineage
  | cons node below rest ihc ihr =>
      rw [Forest.lineage?] at lineage
      rw [ids_cons, List.length_cons, List.length_append]
      split at lineage
      · cases lineage
        omega
      · rcases Option.or_eq_some_iff.mp lineage with inside | ⟨-, later⟩
        · have := ihc inside
          rw [List.length_cons] at this
          omega
        · have := ihr later
          omega

/-- There are no more nodes than identities were given out. -/
theorem Document.Numbered.length_le {document : Document} (numbered : document.Numbered) :
    document.forest.ids.length ≤ document.fresh := by
  have distinct : (document.forest.ids.map NodeId.index).Nodup :=
    numbered.nodup.map fun first second same => by
      cases first
      cases second
      exact congrArg NodeId.mk same
  have given : document.forest.ids.map NodeId.index ⊆ List.range document.fresh := by
    intro index member
    obtain ⟨id, live, rfl⟩ := List.mem_map.mp member
    exact List.mem_range.mpr (numbered.given id live)
  simpa using (List.subperm_of_subset distinct given).length_le

theorem Document.Numbered.length_below_le {document : Document} {id : NodeId} {item : Item}
    {children : Forest Node} (numbered : document.Numbered)
    (found : document.find? id = some (item, children)) :
    children.ids.length ≤ document.fresh := by
  have within := (Forest.ids_sublist_of_find? found).length_le
  have all := numbered.length_le
  rw [List.length_cons] at within
  omega

namespace Linking

variable {document : Document} {upper id parent : NodeId} {arena : Arena}

theorem meetsIn_self (steps : Nat) :
    meetsIn upper (steps + 1) upper arena = some (.ok true, arena) := by
  rw [meetsIn, if_pos rfl]
  rfl

theorem meetsIn_end (steps : Nat) (ne : id ≠ upper)
    (last : (arena.slots id).bind Slot.parent = none) :
    meetsIn upper (steps + 1) id arena = some (.ok false, arena) := by
  rw [meetsIn, if_neg ne]
  refine (bind_ok (get_ok arena)).trans ?_
  rw [last]
  rfl

theorem meetsIn_next (steps : Nat) (ne : id ≠ upper)
    (named : (arena.slots id).bind Slot.parent = some parent) :
    meetsIn upper (steps + 1) id arena = meetsIn upper steps parent arena := by
  rw [meetsIn, if_neg ne]
  refine (bind_ok (get_ok arena)).trans ?_
  rw [named]

/-- The way up from a node is its lineage. -/
theorem meetsIn_of_lineage (nodup : document.forest.ids.Nodup) {path : List Node} {steps : Nat}
    (lineage : document.lineage? id = some path) (enough : path.length < steps) :
    meetsIn upper steps id document.arena =
      some (.ok (upper = id || path.any fun node => node.id = upper), document.arena) := by
  induction path generalizing id steps with
  | nil =>
      obtain ⟨steps, rfl⟩ := Nat.exists_eq_succ_of_ne_zero (Nat.ne_of_gt enough)
      by_cases same : id = upper
      · subst same
        rw [meetsIn_self]
        simp
      · have last : (document.arena.slots id).bind Slot.parent = none := by
          rw [Document.slots_eq, lineage]
          cases document.find? id <;> rfl
        rw [meetsIn_end steps same last]
        simp [Ne.symm same]
  | cons node path ih =>
      obtain ⟨steps, rfl⟩ := Nat.exists_eq_succ_of_ne_zero (Nat.ne_zero_of_lt enough)
      by_cases same : id = upper
      · subst same
        rw [meetsIn_self]
        simp
      have member : id ∈ document.forest.ids := by
        by_contra absent
        rw [Document.lineage?, Forest.lineage?_of_not_mem absent] at lineage
        cases lineage
      obtain ⟨_, below, found⟩ := Forest.exists_find? member
      have stored := document.slots_eq id
      rw [Document.find?, found, lineage, Option.bind_some, Option.map_some] at stored
      -- The parent's lineage is what is above it.
      obtain ⟨item, siblings, above, child⟩ := Forest.child_of_parent nodup stored rfl
      obtain ⟨rest, upwards⟩ := Forest.exists_lineage? (Forest.mem_ids_of_find? above) []
      have whole := Forest.lineage?_within nodup above upwards (Forest.mem_ids_of_mem_tops child)
      rw [Forest.lineage?_of_mem_tops (Forest.nodup_below nodup above).2 child] at whole
      obtain ⟨-, rfl⟩ := List.cons.inj (Option.some.inj (lineage.symm.trans whole))
      rw [meetsIn_next steps same (by rw [stored]; rfl), ih upwards (Nat.lt_of_succ_lt_succ enough)]
      simp [Ne.symm same, eq_comm]

/-- Following the parents tells who is above a node. -/
theorem meets_eq (numbered : document.Numbered) (upper id : NodeId) :
    meets upper id document.arena =
      some (.ok (document.isAncestor upper id), document.arena) := by
  refine (bind_ok (get_ok document.arena)).trans ?_
  by_cases member : id ∈ document.forest.ids
  · obtain ⟨path, lineage⟩ := Forest.exists_lineage? member []
    have short : path.length ≤ document.forest.ids.length := by
      simpa using Forest.length_lineage?_le lineage
    have enough : path.length < document.arena.fresh + 1 :=
      Nat.lt_succ_of_le (Nat.le_trans short numbered.length_le)
    rw [meetsIn_of_lineage numbered.nodup lineage enough, Document.isAncestor,
      Document.lineage?, lineage]
    rfl
  · have gone : document.arena.slots id = none := Forest.slot?_eq_none member none
    have astray := Forest.lineage?_of_not_mem member []
    rw [Document.isAncestor, Document.lineage?, astray]
    by_cases same : id = upper
    · subst same
      rw [meetsIn_self]
      simp
    · rw [meetsIn_end _ same (by rw [gone]; rfl)]
      simp [Ne.symm same]

end Linking

end ApplyRule
