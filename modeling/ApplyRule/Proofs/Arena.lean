/-
# ApplyRule.Proofs.Arena -- a document as slots that name each other

A document can also be kept without a forest.  Every node then has a slot: its
item, the identity of its parent, and the identities of its children.  The two
kinds of links are stored apart and changed one after the other, and what stands
above or below a node is found by following them.

Here are the edits of such an arena, link by link.  Each checks what the links
say, and what it has changed before it is refused stays changed.  A walk along
links need not end, so a `Linking` may have no outcome at all.  Where the links belong
together a walk comes to no node twice: it has as many steps as identities were given
out, and one that is not done by then has no outcome.

`Arena.Linked` says that the links belong together: a parent and its children name
each other, no list of children names a node twice, and no node is above itself.
-/
import ApplyRule.Document.Edit
import Mathlib.Logic.Relation

namespace ApplyRule

set_option autoImplicit false

/-- What is kept of one node. -/
structure Slot where
  item : Item
  parent : Option NodeId := none
  children : List NodeId := []

/-- The slot with its item changed. -/
def Slot.touch (change : Item → Item) (slot : Slot) : Slot :=
  { slot with item := change slot.item }

/-- The slots of all nodes, the identity of the root, and the next identity to give
out. -/
@[ext]
structure Arena where
  slots : NodeId → Option Slot
  root : NodeId
  fresh : Nat

namespace Arena

/-- The arena with another slot for a node, or with none. -/
def put (arena : Arena) (id : NodeId) (slot : Option Slot) : Arena :=
  { arena with slots := fun other => if other = id then slot else arena.slots other }

/-- The arena with a node's slot changed, if it has one. -/
def amend (arena : Arena) (id : NodeId) (change : Slot → Slot) : Arena :=
  arena.put id ((arena.slots id).map change)

/-- The arena without a node's slot. -/
def drop (arena : Arena) (id : NodeId) : Arena :=
  arena.put id none

@[simp] theorem slots_put (arena : Arena) (id other : NodeId) (slot : Option Slot) :
    (arena.put id slot).slots other = if other = id then slot else arena.slots other := rfl

@[simp] theorem slots_amend (arena : Arena) (id other : NodeId) (change : Slot → Slot) :
    (arena.amend id change).slots other =
      if other = id then (arena.slots id).map change else arena.slots other := rfl

@[simp] theorem slots_drop (arena : Arena) (id other : NodeId) :
    (arena.drop id).slots other = if other = id then none else arena.slots other := rfl

/-- A node's slot names its parent. -/
def Under (arena : Arena) (child parent : NodeId) : Prop :=
  ∃ slot, arena.slots child = some slot ∧ slot.parent = some parent

/-- The links of an arena belong together. -/
structure Linked (arena : Arena) : Prop where
  /-- A node names as its parent exactly the live node whose children it is among. -/
  mutually : ∀ child slot, arena.slots child = some slot → ∀ parent,
    slot.parent = some parent ↔
      ∃ holder, arena.slots parent = some holder ∧ child ∈ holder.children
  /-- No node is named twice among the children of one. -/
  once : ∀ id slot, arena.slots id = some slot → slot.children.Nodup
  /-- No children are named that are gone. -/
  live : ∀ id slot, arena.slots id = some slot → ∀ child ∈ slot.children,
    (arena.slots child).isSome
  /-- The way up from a node never comes back to it. -/
  acyclic : ∀ id, ¬ Relation.TransGen arena.Under id id

end Arena

/-! ## Edits of an arena -/

/-- A change of an arena with an answer, which may be refused or never end. -/
abbrev Linking (α : Type) := ExceptT TreeError (StateT Arena Option) α

namespace Linking

/-- The slot of a node, refused if there is none. -/
def slot (id : NodeId) : Linking Slot := do
  match (← get).slots id with
  | some slot => return slot
  | none => throw .noNode

/-- Change the slot of a node, refused if there is none. -/
def amend (id : NodeId) (change : Slot → Slot) : Linking Unit := do
  let _ ← slot id
  modify fun arena => arena.amend id change

/-- Change the item of a node. -/
def touch (id : NodeId) (change : Item → Item) : Linking Unit :=
  amend id (Slot.touch change)

/-- A new node that stands apart. -/
def create (item : Item) : Linking NodeId := do
  let arena ← get
  let id : NodeId := ⟨arena.fresh⟩
  set { arena.put id (some { item }) with fresh := arena.fresh + 1 }
  return id

/-! ### Walks -/

/-- No outcome. -/
def never {α : Type} : Linking α := fun _ => none

/-- Whether the way up from a node, itself included, meets another in so many steps. -/
def meetsIn (upper : NodeId) : Nat → NodeId → Linking Bool
  | 0, _ => never
  | steps + 1, current => do
      if current = upper then return true
      match ((← get).slots current).bind Slot.parent with
      | none => return false
      | some next => meetsIn upper steps next

/-- Whether the way up from a node, itself included, meets another. -/
def meets (upper current : NodeId) : Linking Bool := do
  meetsIn upper ((← get).fresh + 1) current

/-- All nodes in and below those of a stack, after those that were met already, in so
many steps. -/
def walkIn : Nat → List NodeId → List NodeId → Linking (List NodeId)
  | _, met, [] => return met
  | 0, _, _ => never
  | steps + 1, met, current :: stack => do
      let children := (← slot current).children
      walkIn steps (met ++ [current]) (children ++ stack)

/-- All nodes below a node. -/
def descendants (id : NodeId) : Linking (List NodeId) := do
  let children := (← slot id).children
  walkIn (← get).fresh [] children

/-! ### Moving a node -/

/-- Refuse to put a node below a parent unless it may stand there. -/
def checkInsertable (parent node : NodeId) : Linking Unit := do
  let kind := (← slot parent).item.kind
  unless kind.isContainer do throw (.noContainer kind)
  let arena ← get
  unless (arena.slots node).isSome do throw .noNode
  if ← meets node parent then throw .ownSubtree

/-- Take a node out of its parent's children, and then the parent out of the
node. -/
def detach (id : NodeId) : Linking Unit := do
  match (← slot id).parent with
  | none => return
  | some parent =>
      modify fun arena => arena.amend parent fun slot =>
        { slot with children := slot.children.filter (· ≠ id) }
      amend id fun slot => { slot with parent := none }

/-- Move a node to an index among the children of another, at most to the end. -/
def place (parent : NodeId) (index : Nat) (node : NodeId) : Linking Unit := do
  detach node
  amend parent fun slot =>
    { slot with children := slot.children.insertIdx (min index slot.children.length) node }
  amend node fun slot => { slot with parent := some parent }

/-- Move a node to an index among the children of another, if it may stand there. -/
def insertAt (parent : NodeId) (index : Nat) (node : NodeId) : Linking Unit := do
  checkInsertable parent node
  place parent index node

/-- Make a node the last child of another. -/
def append (parent node : NodeId) : Linking Unit := do
  let children := (← slot parent).children
  insertAt parent children.length node

/-- The place of a node among its siblings. -/
def indexOf (id : NodeId) : Linking (Option Nat) := do
  match (← slot id).parent with
  | none => return none
  | some parent => return (← slot parent).children.idxOf? id

/-- Put a node next to another, as many places after it as `offset` says. -/
def insertBeside (offset : Nat) (anchor node : NodeId) : Linking Unit := do
  match (← slot anchor).parent with
  | none => throw .noParent
  | some parent =>
      checkInsertable parent node
      detach node
      match ← indexOf anchor with
      | none => throw .noParent
      | some index => insertAt parent (index + offset) node

/-- Put a node directly before another. -/
def insertBefore (anchor node : NodeId) : Linking Unit :=
  insertBeside 0 anchor node

/-- Put a node directly after another. -/
def insertAfter (anchor node : NodeId) : Linking Unit :=
  insertBeside 1 anchor node

/-! ### Dropping and copying -/

/-- Drop a node and all below it. -/
def destroy (id : NodeId) : Linking Unit := do
  let below ← descendants id
  detach id
  modify fun arena => (below.foldl Arena.drop arena).drop id

/-- If a node is the first child of a root, its next sibling takes the text before
it. -/
def handOver (id : NodeId) : Linking Unit := do
  let some parent := (← slot id).parent | return
  let arena ← get
  if (arena.slots parent).any fun slot => slot.item.kind.isRoot then
    match (← slot parent).children with
    | first :: second :: _ =>
        if first = id then
          let before := (← slot id).item.raws.before
          touch second fun item => { item with raws.before := before }
    | _ => return

/-- Drop a node and all below it.  The first child of a root hands the text
before it to the next one. -/
def remove (id : NodeId) : Linking Unit := do
  handOver id
  detach id
  destroy id

/-- Put nodes in a node's place, in order, and drop that node. -/
def replaceWith (id : NodeId) (nodes : List NodeId) : Linking Unit := do
  nodes.forM (insertBefore id)
  remove id

/-- A copy of a node and all below it that stands apart, in so many steps down.  The
copies of the children are linked to the copy of the node one by one. -/
def cloneIn : Nat → NodeId → Linking NodeId
  | 0, _ => never
  | steps + 1, id => do
      let original ← slot id
      let copy ← create original.item
      original.children.forM fun child => do
        let below ← cloneIn steps child
        amend below fun slot => { slot with parent := some copy }
        amend copy fun slot => { slot with children := slot.children ++ [below] }
      return copy

/-- A copy of a node and all below it that stands apart. -/
def clone (id : NodeId) : Linking NodeId := do
  cloneIn ((← get).fresh + 1) id

/-- Change the source of a node and of all below it, one after the other. -/
def restamp (id : NodeId) (source : Option Text.Location) : Linking Unit := do
  touch id (Item.stamp source)
  let below ← descendants id
  below.forM fun node => touch node (Item.stamp source)

end Linking

end ApplyRule
