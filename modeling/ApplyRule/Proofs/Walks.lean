/-
# ApplyRule.Proofs.Walks -- the way down and the way up

What is below a node is listed by going down: the children wait on a stack, and each
node that is taken from it puts its own children on top.  Whether a node is above
another is told by going up, from parent to parent.  The two read different links.

`Arena.Walked` says that they agree at a node.  The way down ends and lists every node
below once, in document order; the way up ends from any identity at all, and meets
the node just from there and from what is listed.  So it is after any operations at
every node there is (`walks_agree`), and what is attached to a root that is there is
the root with all that is listed below it.
-/
import ApplyRule.Proofs.Duplicate
import ApplyRule.Proofs.Insertion

namespace ApplyRule

set_option autoImplicit false

variable {document : Document} {id other : NodeId} {item : Item} {children : Forest Node}

/-- Whether the way up from a node, itself included, meets the root. -/
def Linking.isAttached (id : NodeId) : Linking Bool := do
  meets (← get).root id

/-- The way down from a node lists `nodes`, and the way up agrees. -/
structure Arena.Walked (arena : Arena) (id : NodeId) (nodes : List NodeId) : Prop where
  /-- The way down ends. -/
  listed : Linking.descendants id arena = some (.ok nodes, arena)
  /-- Each node is followed by what is below it and then by its next sibling. -/
  inOrder : ∃ slot tree, arena.slots id = some slot ∧
    arena.Spells (some id) slot.children tree nodes
  /-- It takes one step a node, however many more there may be. -/
  inSteps : ∀ slot, arena.slots id = some slot → ∀ spare,
    Linking.walkIn (nodes.length + spare) [] slot.children arena = some (.ok nodes, arena)
  /-- No node is listed twice. -/
  once : nodes.Nodup
  /-- The nodes that are listed are those that have this one above them. -/
  below : ∀ other, other ∈ nodes ↔ Relation.TransGen arena.Under other id
  /-- The way up ends. -/
  answered : ∀ other, ∃ met, Linking.meets id other arena = some (.ok met, arena)
  /-- It comes from the nodes that are listed, and from the node itself. -/
  upwards : ∀ other, other ∈ nodes ↔
    other ≠ id ∧ Linking.meets id other arena = some (.ok true, arena)

namespace Document

/-- The slot of a node below another, as the forest below that one has it. -/
theorem slots_below (nodup : document.forest.ids.Nodup)
    (found : document.find? id = some (item, children)) (member : other ∈ children.ids) :
    document.arena.slots other = children.slot? other (some id) := by
  obtain ⟨above, stored⟩ := slots_of_find? found
  have ne : other ≠ id := fun same => (Forest.nodup_below nodup found).1 (same ▸ member)
  exact (Forest.slot?_within nodup found stored (List.mem_cons_of_mem _ member)).trans
    (Forest.slot?_tree_below _ _ ne)

/-- Following the links down from a node spells what is below it. -/
theorem spells_below (nodup : document.forest.ids.Nodup)
    (found : document.find? id = some (item, children)) :
    ∃ slot, document.arena.slots id = some slot ∧
      document.arena.Spells (some id) slot.children children.items children.ids := by
  obtain ⟨above, stored⟩ := slots_of_find? found
  exact ⟨_, stored, Forest.spells (Forest.nodup_below nodup found).2 fun _ =>
    slots_below nodup found⟩

/-- The nodes that have a node above them are those of its tree. -/
theorem mem_below_iff_under (numbered : document.Numbered)
    (found : document.find? id = some (item, children)) :
    other ∈ children.ids ↔ Relation.TransGen document.arena.Under other id := by
  refine ⟨under_of_mem_below numbered.nodup found, fun path => ?_⟩
  rcases List.mem_cons.mp (mem_below_of_under numbered.nodup path.to_reflTransGen found) with
    rfl | member
  · exact absurd path (numbered.linked.acyclic other)
  · exact member

/-- The way up meets a node just from the nodes of its tree. -/
theorem meets_true_iff (numbered : document.Numbered)
    (found : document.find? id = some (item, children)) :
    Linking.meets id other document.arena = some (.ok true, document.arena) ↔
      other = id ∨ other ∈ children.ids := by
  rw [Linking.meets_eq numbered, ← List.mem_cons, ← isAncestor_iff numbered.nodup found]
  simp

theorem Numbered.walked (numbered : document.Numbered)
    (found : document.find? id = some (item, children)) :
    document.arena.Walked id children.ids := by
  obtain ⟨notSelf, once⟩ := Forest.nodup_below numbered.nodup found
  obtain ⟨own, stored, spelled⟩ := spells_below numbered.nodup found
  refine
    { listed := Linking.descendants_eq numbered found
      inOrder := ⟨own, _, stored, spelled⟩
      inSteps := fun slot storedToo spare => ?_
      once := once
      below := fun other => mem_below_iff_under numbered found
      answered := fun other => ⟨_, Linking.meets_eq numbered id other⟩
      upwards := fun other => ?_ }
  · obtain ⟨above, storedHere⟩ := slots_of_find? found
    cases storedHere.symm.trans storedToo
    have all := Linking.walkIn_stored (stored_below numbered.nodup found) spare [] []
    rw [List.append_nil, List.nil_append] at all
    refine all.trans ?_
    rw [Linking.walkIn]
    rfl
  · rw [meets_true_iff numbered found]
    constructor
    · exact fun member => ⟨fun same => notSelf (same ▸ member), .inr member⟩
    · rintro ⟨apart, met⟩
      exact met.resolve_left apart

/-- What is attached is what the way up meets the root from. -/
theorem isAttached_eq (numbered : document.Numbered) (id : NodeId) :
    Linking.isAttached id document.arena =
      some (.ok (document.isAttached id), document.arena) := by
  refine (Linking.bind_ok (Linking.get_ok document.arena)).trans ?_
  refine (Linking.meets_eq numbered document.root id).trans ?_
  rw [isAncestor, isAttached, decide_eq_decide.mpr eq_comm]

/-- What is attached to a root that is there is the root and its tree. -/
theorem isAttached_iff_below (numbered : document.Numbered)
    (found : document.find? document.root = some (item, children)) (other : NodeId) :
    document.isAttached other = true ↔ other = document.root ∨ other ∈ children.ids := by
  rw [← List.mem_cons, ← isAncestor_iff numbered.nodup found, isAncestor, isAttached,
    decide_eq_decide.mpr eq_comm]

end Document

/-- **The way down and the way up agree.**  After any operations, and at every node there is,
the way down ends, lists each node below once and in document order, and lists just the nodes
other than this one from which the way up meets it.  If the root is there, the nodes that are
attached are the root and those that are listed below it. -/
theorem walks_agree (operations : List TreeOperation)
    (reached : document = operations.foldl Document.operate Document.new)
    (live : document.contains id = true) :
    ∃ nodes, document.arena.Walked id nodes ∧
      (document.below? id).map (List.map Node.id) = some nodes ∧
      (id = document.root → ∀ other,
        (∃ attached, Linking.isAttached other document.arena =
          some (.ok attached, document.arena)) ∧
        (Linking.isAttached other document.arena = some (.ok true, document.arena) ↔
          other = document.root ∨ other ∈ nodes) ∧
        (document.isAttached other = true ↔ other = document.root ∨ other ∈ nodes)) := by
  have numbered : document.Numbered := reached ▸ (Document.numbered_new.operations operations).1
  obtain ⟨⟨item, children⟩, found⟩ := Option.isSome_iff_exists.mp live
  refine ⟨children.ids, numbered.walked found, ?_, ?_⟩
  · rw [Document.below?, found]
    rfl
  · rintro rfl other
    have linked := Document.isAttached_eq numbered other
    have attached := Document.isAttached_iff_below numbered found other
    refine ⟨⟨_, linked⟩, ?_, attached⟩
    rw [linked, ← attached]
    simp

/-- Below a root, a rule is listed before the declaration in it and that before the next rule,
and these and the root are what is attached. -/
theorem walks_agree_nested : ∃ document nodes,
    document = TreeOperation.nested.foldl Document.operate Document.new ∧
    nodes = [⟨2⟩, ⟨3⟩, ⟨4⟩] ∧
    document.arena.Walked ⟨1⟩ nodes ∧
    ∀ other, document.isAttached other = true ↔ other = ⟨1⟩ ∨ other ∈ nodes := by
  have live : (TreeOperation.nested.foldl Document.operate Document.new).contains ⟨1⟩ = true := rfl
  obtain ⟨nodes, walked, listed, attached⟩ := walks_agree TreeOperation.nested rfl live
  have expected : ((TreeOperation.nested.foldl Document.operate Document.new).below? ⟨1⟩).map
      (List.map Node.id) = some [⟨2⟩, ⟨3⟩, ⟨4⟩] := rfl
  obtain rfl := Option.some.inj (expected.symm.trans listed)
  exact ⟨_, _, rfl, rfl, walked, fun other => (attached rfl other).2.2⟩

end ApplyRule
