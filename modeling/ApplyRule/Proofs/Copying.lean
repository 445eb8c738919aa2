/-
# ApplyRule.Proofs.Copying -- new nodes, link by link

New nodes come one by one and are linked below a node, or stand apart.
`Document.extend document id items` is the document with numbered nodes after the
children of a node.  A copy is made node by node: a new node, and then, below it,
the copies of the children (`Linking.copies`).  So making and copying nodes is
followed: `follows_create` and `follows_clone`.
-/
import ApplyRule.Proofs.Subtrees

namespace ApplyRule

set_option autoImplicit false

/-! ## Growing -/

namespace Forest

variable {forest first second : Forest Node} {parent id : NodeId}

theorem adopt_adopt (parent : NodeId) (first second forest : Forest Node) :
    adopt parent second (adopt parent first forest) = adopt parent (first ++ second) forest := by
  induction forest with
  | nil => rfl
  | cons node below rest ihc ihr =>
      by_cases here : node.id = parent
      · simp only [adopt, here, if_true, append_assoc]
      · simp only [adopt, here, if_false, ihc, ihr]

theorem adopt_nil (parent : NodeId) (forest : Forest Node) : adopt parent .nil forest = forest := by
  induction forest with
  | nil => rfl
  | cons node below rest ihc ihr =>
      rw [adopt, append_nil, ihc, ihr]
      split <;> rfl

theorem find?_adopt_self {item : Item} {below : Forest Node}
    (found : forest.find? parent = some (item, below)) (more : Forest Node) :
    (adopt parent more forest).find? parent = some (item, below ++ more) := by
  induction forest with
  | nil => cases found
  | cons node inner rest ihc ihr =>
      rw [find?] at found
      rw [adopt]
      split at found
      · rename_i here
        cases found
        rw [if_pos here, find?, if_pos here]
      · rename_i elsewhere
        rw [if_neg elsewhere, find?, if_neg elsewhere]
        rcases Option.or_eq_some_iff.mp found with inside | ⟨absent, outside⟩
        · rw [ihc inside, Option.some_or]
        · rw [(local_adopt _ _).of_not_mem (find?_eq_none.mp absent), absent, Option.none_or,
            ihr outside]

end Forest

namespace Document

variable {document : Document} {id : NodeId} {item : Item} {below : Forest Node}

/-- The document with new nodes after the children of a node. -/
def extend (document : Document) (id : NodeId) (items : Forest Item) : Document :=
  { document with
    forest := Forest.adopt id (items.number document.fresh) document.forest
    fresh := document.fresh + items.size }

theorem extend_nil (document : Document) (id : NodeId) : document.extend id .nil = document := by
  rw [extend]
  show { document with forest := Forest.adopt id .nil document.forest } = document
  rw [Forest.adopt_nil]

/-- A new node with new nodes below it is a new tree. -/
theorem Numbered.extend_plant (numbered : document.Numbered) (item : Item) (items : Forest Item) :
    (document.plant item .nil).extend ⟨document.fresh⟩ items = document.plant item items := by
  have absent : (⟨document.fresh⟩ : NodeId) ∉ document.forest.ids :=
    fun member => Nat.lt_irrefl _ (numbered.given _ member)
  rw [extend, Document.plant, (Forest.local_adopt _ _).append_right absent]
  simp only [Forest.tree, Forest.number, Forest.adopt, if_true, Forest.nil_append, Forest.size,
    Document.plant]
  refine congrArg (fun fresh => (⟨_, document.root, fresh⟩ : Document)) ?_
  omega

/-- New nodes come one after the other. -/
theorem extend_cons (document : Document) (id : NodeId) (item : Item)
    (children rest : Forest Item) :
    (document.extend id (.tree item children)).extend id rest =
      document.extend id (.cons item children rest) := by
  simp only [extend, Forest.adopt_adopt, Forest.tree, Forest.number, Forest.cons_append,
    Forest.nil_append, Forest.size]
  have next : document.fresh + (children.size + 0 + 1) = document.fresh + 1 + children.size := by
    omega
  rw [next]
  refine congrArg (fun fresh => (⟨_, document.root, fresh⟩ : Document)) ?_
  omega

theorem Numbered.extend (numbered : document.Numbered)
    (found : document.find? id = some (item, below)) (items : Forest Item) :
    (document.extend id items).Numbered := by
  have new : ∀ other ∈ (items.number document.fresh).ids, other ∉ document.forest.ids :=
    fun other member old => Nat.lt_irrefl _
      (Nat.lt_of_lt_of_le (numbered.given other old) (Forest.mem_ids_number.mp member).1)
  have added : (Forest.tree ⟨id, item⟩ (below ++ items.number document.fresh)).ids.Perm
      ((id :: below.ids) ++ (items.number document.fresh).ids) := by
    rw [Forest.ids_tree, Forest.ids_append]
    exact List.Perm.refl _
  obtain ⟨whole, either⟩ :=
    Forest.graft numbered.nodup found added (Forest.nodup_number ..) new
  refine ⟨?_, fun other member => ?_⟩
  · rw [Document.extend, Forest.adopt_eq_replace numbered.nodup found]
    exact whole
  · rw [Document.extend, Forest.adopt_eq_replace numbered.nodup found] at member
    rcases either other member with old | added
    · exact Nat.lt_of_lt_of_le (numbered.given other old) (Nat.le_add_right ..)
    · exact (Forest.mem_ids_number.mp added).2

variable {other : NodeId}

theorem slots_plant (item : Item) (items : Forest Item) (live : id ∈ document.forest.ids) :
    (document.plant item items).arena.slots id = document.arena.slots id := by
  obtain ⟨_, _, found⟩ := Forest.exists_find? live
  obtain ⟨_, stored⟩ := Document.slots_of_find? found
  exact (Forest.slot?_append ..).trans ((congrArg (Option.or · _) stored).trans stored.symm)

theorem Numbered.slots_plant_self (numbered : document.Numbered) (item : Item)
    (items : Forest Item) : (document.plant item items).arena.slots ⟨document.fresh⟩ =
      some ⟨item, none, (items.number (document.fresh + 1)).tops⟩ := by
  refine (Forest.slot?_append ..).trans ?_
  rw [Forest.slot?_eq_none numbered.new_not_mem, Option.none_or]
  exact Forest.slot?_tree_top ..

/-- A new tree below a node has that node for its top's parent, and its top is that
node's last child. -/
theorem Numbered.slots_extend_tree (numbered : document.Numbered)
    (found : document.find? id = some (item, below)) (top : Item) (items : Forest Item) :
    (document.extend id (.tree top items)).arena.slots other =
      if other = ⟨document.fresh⟩ then
        some ⟨top, some id, (items.number (document.fresh + 1)).tops⟩
      else if other = id then (document.arena.slots other).map fun slot =>
        { slot with children := slot.children ++ [⟨document.fresh⟩] }
      else (document.plant top items).arena.slots other := by
  refine Forest.slot?_adopt numbered.nodup found fun id member old => ?_
  have new : id ∈ ((Forest.tree top items).number document.fresh).ids := by
    exact Forest.mem_ids_tree.mpr member
  exact Nat.lt_irrefl _
    (Nat.lt_of_lt_of_le (numbered.given id old) (Forest.mem_ids_number.mp new).1)

end Document

/-! ## Copying -/

namespace Linking

variable {document : Document} {copy id : NodeId} {item : Item} {children : Forest Node}

theorem create_eq (numbered : document.Numbered) (item : Item) :
    Linking.create item document.arena =
      some (.ok ⟨document.fresh⟩, (document.plant item .nil).arena) := by
  have same : { document.arena.put ⟨document.fresh⟩ (some { item }) with
      fresh := document.fresh + 1 } = (document.plant item .nil).arena := by
    refine Arena.ext (funext fun other => ?_) rfl rfl
    rw [Arena.slots_put]
    split
    · rename_i here
      rw [here, numbered.slots_plant_self]
      rfl
    · rename_i elsewhere
      have outside : other ∉ ((Forest.tree item .nil).number document.fresh).ids := by
        exact fun member => elsewhere (by simpa [Forest.tree, Forest.number] using member)
      refine Eq.symm ((Forest.slot?_append ..).trans ?_)
      rw [Forest.slot?_eq_none outside, Option.or_none]
      rfl
  rw [← same]
  rfl

/-- Copying the trees of a forest one by one, below a node that is not among them,
leaves their numbered copies there. -/
def Copies (steps : Nat) (forest : Forest Node) : Prop :=
  ∀ {document : Document} {copy : NodeId} {item : Item} {below : Forest Node},
    document.Numbered → forest.Stored document.arena →
    (∀ id ∈ forest.ids, id ∈ document.forest.ids) → copy ∉ forest.ids →
    document.find? copy = some (item, below) →
      (forest.tops.forM fun child => do
        let below ← cloneIn steps child
        amend below fun slot => { slot with parent := some copy }
        amend copy fun slot => { slot with children := slot.children ++ [below] }) document.arena =
      some (.ok (), (document.extend copy forest.items).arena)

/-- A copy is a new node below which the children are copied. -/
theorem Copies.cloneIn_eq {forest : Forest Node} {steps : Nat} (copies : Copies steps forest)
    (numbered : document.Numbered) {parent : Option NodeId}
    (here : document.arena.slots id = some ⟨item, parent, forest.tops⟩)
    (stored : forest.Stored document.arena) (live : ∀ id ∈ forest.ids, id ∈ document.forest.ids) :
    cloneIn (steps + 1) id document.arena =
      some (.ok ⟨document.fresh⟩, (document.plant item forest.items).arena) := by
  rw [cloneIn]
  refine (bind_ok (slot_ok here)).trans ((bind_ok (create_eq numbered item)).trans ?_)
  refine (bind_ok (copies (numbered.plant item .nil)
    (stored.congr fun id member => Document.slots_plant _ _ (live id member))
    (fun id member => ?_) (fun member => ?_) (numbered.find?_plant_self item .nil))).trans ?_
  · rw [Document.plant, Forest.ids_append]
    exact List.mem_append_left _ (live id member)
  · exact numbered.new_not_mem (live _ member)
  · rw [numbered.extend_plant]
    rfl

/-- Each step goes down to the children, so a forest's nodes are enough steps for it. -/
theorem copies {forest : Forest Node} {steps : Nat} (enough : forest.ids.length ≤ steps) :
    Copies steps forest := by
  induction forest generalizing steps with
  | nil =>
      intro document copy item below numbered stored live apart found
      rw [Forest.items_nil, Document.extend_nil]
      rfl
  | cons node inner rest ihc ihr =>
      intro document copy item below numbered stored live apart found
      obtain ⟨⟨parent, here⟩, inside, later⟩ := stored
      simp only [Forest.ids_cons, List.mem_cons, List.mem_append, not_or] at live apart
      rw [Forest.ids_cons, List.length_cons, List.length_append] at enough
      obtain ⟨steps, rfl⟩ := Nat.exists_eq_succ_of_ne_zero (Nat.ne_zero_of_lt enough)
      have enoughBelow : inner.ids.length ≤ steps := by omega
      have enoughRest : rest.ids.length ≤ steps + 1 := by omega
      let planted := document.plant node.item inner.items
      let linked := document.extend copy (.tree node.item inner.items)
      have alive := Forest.mem_ids_of_find? found
      have copied : cloneIn (steps + 1) node.id document.arena =
          some (.ok ⟨document.fresh⟩, planted.arena) :=
        Copies.cloneIn_eq (ihc enoughBelow) numbered here inside fun id member =>
          live id (.inr (.inl member))
      have top := numbered.slots_plant_self node.item inner.items
      have holder : ∃ slot, planted.arena.slots copy = some slot := by
        obtain ⟨_, held⟩ := Document.slots_of_find? found
        exact ⟨_, (Document.slots_plant _ _ alive).trans held⟩
      obtain ⟨slot, held⟩ := holder
      have ne : copy ≠ ⟨document.fresh⟩ := fun eq => numbered.new_not_mem (eq ▸ alive)
      have hung : (planted.arena.amend ⟨document.fresh⟩ fun slot =>
          { slot with parent := some copy }).amend copy (fun slot =>
            { slot with children := slot.children ++ [⟨document.fresh⟩] }) = linked.arena := by
        refine Arena.ext (funext fun other => ?_) rfl rfl
        rw [numbered.slots_extend_tree found, Arena.slots_amend]
        by_cases isCopy : other = copy
        · rw [if_pos isCopy, isCopy, if_neg ne, if_pos rfl, Arena.slots_amend, if_neg ne,
            Document.slots_plant _ _ alive]
        · rw [if_neg isCopy, if_neg isCopy, Arena.slots_amend]
          split
          · rw [top]
            rfl
          · rfl
      have round : (do
          let below ← cloneIn (steps + 1) node.id
          amend below fun slot => { slot with parent := some copy }
          amend copy fun slot => { slot with children := slot.children ++ [below] })
            document.arena = some (.ok (), linked.arena) := by
        refine (bind_ok copied).trans ((bind_ok (amend_ok top)).trans ?_)
        refine (amend_ok (by rw [Arena.slots_amend, if_neg ne, held])).trans ?_
        rw [hung]
      have kept : ∀ id ∈ rest.ids, linked.arena.slots id = document.arena.slots id := by
        intro id member
        have old := live id (.inr (.inr member))
        have notNew : id ≠ ⟨document.fresh⟩ := fun eq => numbered.new_not_mem (eq ▸ old)
        have notCopy : id ≠ copy := fun eq => apart.2.2 (eq ▸ member)
        rw [numbered.slots_extend_tree found, if_neg notNew, if_neg notCopy,
          Document.slots_plant _ _ old]
      have alsoLive : ∀ id ∈ rest.ids, id ∈ linked.forest.ids := by
        intro id member
        obtain ⟨_, _, inForest⟩ := Forest.exists_find? (live id (.inr (.inr member)))
        obtain ⟨_, held⟩ := Document.slots_of_find? inForest
        exact Forest.mem_ids_of_slot? ((kept id member).trans held)
      have others := ihr enoughRest (numbered.extend found _) (later.congr kept) alsoLive
        apart.2.2 (Forest.find?_adopt_self found _)
      refine (bind_ok round).trans (others.trans ?_)
      rw [Document.extend_cons]
      rfl

end Linking

theorem follows_create {document : Document} (numbered : document.Numbered) (item : Item) :
    Follows (Linking.create item) (Edit.create item) document :=
  Follows.of_ok (rfl : Edit.create item document = .ok ⟨document.fresh⟩ (document.plant item .nil))
    (numbered.plant item .nil) (Linking.create_eq numbered item)

theorem follows_clone {document : Document} (numbered : document.Numbered) (id : NodeId) :
    Follows (Linking.clone id) (Edit.copy id) document := by
  have here := Linking.get_ok document.arena
  cases found : document.find? id with
  | none =>
      have refused : Linking.clone id document.arena = some (.error .noNode, document.arena) := by
        refine (Linking.bind_ok here).trans ?_
        rw [Linking.cloneIn]
        exact Linking.bind_error (Linking.slot_error (Document.absent_slot found))
      exact Follows.of_error (Edit.bind_error (Edit.ask_error found)) numbered refused
  | some pair =>
      obtain ⟨item, children⟩ := pair
      have ran : Edit.copy id document =
          .ok ⟨document.fresh⟩ (document.plant item children.items) :=
        (bind_ok (Edit.ask_ok found)).trans rfl
      refine Follows.of_ok ran (numbered.plant item children.items) ?_
      obtain ⟨_, stored⟩ := Document.slots_of_find? found
      have copies : Linking.Copies document.fresh children :=
        Linking.copies (numbered.length_below_le found)
      exact (Linking.bind_ok here).trans (Linking.Copies.cloneIn_eq copies numbered stored
        (Document.stored_below numbered.nodup found) fun _ => Forest.mem_ids_below found)

end ApplyRule
