/-
# ApplyRule.Document.Edit -- changing a document

An edit runs on a document and either succeeds or is refused with a `TreeError`;
the document it leaves is kept in both cases.  Every edit checks its arguments
first, in the order its definition shows, and names the first thing that is
wrong.

A node moves with all below it.  A node can hold others only if its kind is a
container's, and it can never come to stand below itself.
-/
import ApplyRule.Document

namespace ApplyRule

set_option autoImplicit false

/-- Why an edit is refused. -/
inductive TreeError where
  /-- No node has the identity, or no longer. -/
  | noNode
  /-- The node would come to stand below itself. -/
  | ownSubtree
  /-- A node of this kind holds no others. -/
  | noContainer (kind : Kind)
  /-- The node has no parent. -/
  | noParent
  deriving DecidableEq

def TreeError.message : TreeError → String
  | .noNode => "Invalid or removed node ID"
  | .ownSubtree => "Cannot insert a node into its own subtree"
  | .noContainer kind => "A " ++ kind.word ++ " node cannot hold children"
  | .noParent => "Node has no parent"

/-- A change of a document with an answer. -/
abbrev Edit (α : Type) := EStateM TreeError Document α

namespace Edit

/-- The answer to a question about a node, refused if there is no such node. -/
def ask {α : Type} (question : Document → Option α) : Edit α := do
  match question (← get) with
  | some answer => return answer
  | none => throw .noNode

/-- Change the forest. -/
def change (f : Forest Node → Forest Node) : Edit Unit :=
  modify fun document => { document with forest := f document.forest }

/-- A new tree that stands apart. -/
def plant (item : Item) (children : Forest Item) : Edit NodeId := do
  let document ← get
  set (document.plant item children)
  return ⟨document.fresh⟩

/-- A new node that stands apart. -/
def create (item : Item) : Edit NodeId :=
  plant item .nil

/-- Change the item of a node. -/
def updateItem (id : NodeId) (f : Item → Item) : Edit Unit := do
  let _ ← ask (·.item? id)
  change (·.update id f)

/-- Change the source of a node and of all below it. -/
def restamp (id : NodeId) (source : Option Text.Location) : Edit Unit := do
  let _ ← ask (·.item? id)
  change (·.updateTree id (Item.stamp source))

/-- Refuse to put a node below a parent unless it may stand there. -/
def checkInsertable (parent node : NodeId) : Edit Unit := do
  let kind ← ask (·.kind? parent)
  unless kind.isContainer do throw (.noContainer kind)
  let document ← get
  unless document.contains node do throw .noNode
  if document.isAncestor node parent then throw .ownSubtree

/-- Take a node out of its place, so that it stands apart. -/
def detach (id : NodeId) : Edit Unit := do
  let (item, children) ← ask (·.find? id)
  if (← ask (·.parent? id)).isSome then
    change fun forest => forest.prune id ++ .tree ⟨id, item⟩ children

/-- Take a node out of its place and put it where `insert` says. -/
def move (node : NodeId) (insert : Forest Node → Forest Node → Forest Node) : Edit Unit := do
  let (item, children) ← ask (·.find? node)
  change fun forest => insert (.tree ⟨node, item⟩ children) (forest.prune node)

/-- Make a node the last child of another. -/
def append (parent node : NodeId) : Edit Unit := do
  checkInsertable parent node
  move node (Forest.adopt parent)

/-- Put a node next to another, as `insert` says.  Next to itself it has no
place: it is taken out, and that is refused. -/
def insertBeside (anchor node : NodeId)
    (insert : NodeId → Forest Node → Forest Node → Forest Node) : Edit Unit := do
  match ← ask (·.parent? anchor) with
  | none => throw .noParent
  | some parent =>
      checkInsertable parent node
      if anchor = node then
        detach node
        throw .noParent
      move node (insert anchor)

/-- Put a node directly before another. -/
def insertBefore (anchor node : NodeId) : Edit Unit :=
  insertBeside anchor node Forest.insertBefore

/-- Put a node directly after another. -/
def insertAfter (anchor node : NodeId) : Edit Unit :=
  insertBeside anchor node Forest.insertAfter

/-- Drop a node and all below it. -/
def destroy (id : NodeId) : Edit Unit := do
  let _ ← ask (·.find? id)
  change (·.prune id)

/-- The child of a root that comes first once its first child `id` is gone. -/
def heir? (document : Document) (id : NodeId) : Option NodeId := do
  let parent ← (← document.parent? id)
  guard (document.isKind Kind.isRoot parent)
  match ← document.children? parent with
  | first :: second :: _ => if first = id then some second else none
  | _ => none

/-- Drop a node and all below it.  The first child of a root hands the text
before it to the next one. -/
def remove (id : NodeId) : Edit Unit := do
  let item ← ask (·.item? id)
  if let some heir := heir? (← get) id then
    updateItem heir fun next => { next with raws.before := item.raws.before }
  destroy id

/-- Put nodes in a node's place, in order, and drop that node. -/
def replaceWith (id : NodeId) (nodes : List NodeId) : Edit Unit := do
  nodes.forM (insertBefore id)
  remove id

/-- Put the children of a node that stands apart in another node's place, in order,
and drop both nodes. -/
def replaceByChildren (id donor : NodeId) : Edit Unit := do
  match ← ask (·.find? donor) with
  | (_, .nil) =>
      remove id
      destroy donor
  | (_, children) =>
      let some parent := ← ask (·.parent? id) | throw .noParent
      let kind ← ask (·.kind? parent)
      unless kind.isContainer do throw (.noContainer kind)
      change fun forest => Forest.replace id children (forest.prune donor)

/-- A copy of a node and all below it that stands apart. -/
def copy (id : NodeId) : Edit NodeId := do
  let (item, children) ← ask (·.find? id)
  plant item children.items

end Edit

end ApplyRule
