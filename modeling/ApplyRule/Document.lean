/-
# ApplyRule.Document -- items with identities

A document is a forest of nodes: the tree under its root, and trees that stand
apart, such as parsed fragments and copies.  Every node has an identity that is
given out once and never again, so an identity that was given out names one node
or, once that node is gone, none.

Parents and ancestors are read off the forest: `lineage?` is the path from a node
upwards.  Nothing that can be asked changes the document.
-/
import ApplyRule.Forest
import ApplyRule.Stylesheet.Body
import ApplyRule.Stylesheet.Printer

namespace ApplyRule

set_option autoImplicit false

/-- The identity of a node. -/
structure NodeId where
  index : Nat
  deriving DecidableEq

/-- An identity that no node ever has. -/
def NodeId.null : NodeId := ⟨0⟩

/-- An item with its identity. -/
structure Node where
  id : NodeId
  item : Item
  deriving DecidableEq

/-! ## Forests of nodes -/

namespace Forest

/-- The item of a node and the forest below it. -/
def find? (id : NodeId) : Forest Node → Option (Item × Forest Node)
  | .nil => none
  | .cons node children rest =>
      if node.id = id then some (node.item, children)
      else (children.find? id).or (rest.find? id)

/-- The nodes above a node, the nearest first, in a forest that stands below the
nodes `above`. -/
def lineage? (id : NodeId) (above : List Node) : Forest Node → Option (List Node)
  | .nil => none
  | .cons node children rest =>
      if node.id = id then some above
      else (children.lineage? id (node :: above)).or (rest.lineage? id above)

/-- The forest without a node and all below it. -/
def prune (id : NodeId) : Forest Node → Forest Node
  | .nil => .nil
  | .cons node children rest =>
      if node.id = id then rest.prune id
      else .cons node (children.prune id) (rest.prune id)

/-- The forest with a node's item changed. -/
def update (id : NodeId) (change : Item → Item) : Forest Node → Forest Node
  | .nil => .nil
  | .cons node children rest =>
      .cons (if node.id = id then { node with item := change node.item } else node)
        (children.update id change) (rest.update id change)

/-- The forest with the items of a node and of all below it changed. -/
def updateTree (id : NodeId) (change : Item → Item) : Forest Node → Forest Node
  | .nil => .nil
  | .cons node children rest =>
      let changed (node : Node) : Node := { node with item := change node.item }
      if node.id = id then .cons (changed node) (children.map changed) rest
      else .cons node (children.updateTree id change) (rest.updateTree id change)

/-- The forest with more trees after the children of a node. -/
def adopt (parent : NodeId) (more : Forest Node) : Forest Node → Forest Node
  | .nil => .nil
  | .cons node children rest =>
      if node.id = parent then .cons node (children ++ more) rest
      else .cons node (adopt parent more children) (adopt parent more rest)

/-- The forest with more trees directly before a node. -/
def insertBefore (anchor : NodeId) (more : Forest Node) : Forest Node → Forest Node
  | .nil => .nil
  | .cons node children rest =>
      if node.id = anchor then more ++ .cons node children rest
      else .cons node (insertBefore anchor more children) (insertBefore anchor more rest)

/-- The forest with more trees directly after a node. -/
def insertAfter (anchor : NodeId) (more : Forest Node) : Forest Node → Forest Node
  | .nil => .nil
  | .cons node children rest =>
      if node.id = anchor then .cons node children (more ++ rest)
      else .cons node (insertAfter anchor more children) (insertAfter anchor more rest)

/-- The forest with other trees in the place of a node and all below it. -/
def replace (id : NodeId) (more : Forest Node) : Forest Node → Forest Node
  | .nil => .nil
  | .cons node children rest =>
      if node.id = id then more ++ rest
      else .cons node (replace id more children) (replace id more rest)

/-- Items with identities from `next` on, in document order. -/
def number (next : Nat) : Forest Item → Forest Node
  | .nil => .nil
  | .cons item children rest =>
      .cons ⟨⟨next⟩, item⟩ (children.number (next + 1)) (rest.number (next + 1 + children.size))

/-- The items without their identities. -/
def items (forest : Forest Node) : Forest Item :=
  forest.map Node.item

end Forest

/-! ## Documents -/

/-- A forest of nodes, the identity of its root, and the next identity to give
out. -/
structure Document where
  forest : Forest Node
  root : NodeId
  fresh : Nat

namespace Document

/-- The document with a tree that stands apart; its identity is that of
`fresh`. -/
def plant (document : Document) (item : Item) (children : Forest Item) : Document :=
  let more := Forest.tree item children
  { document with
    forest := document.forest ++ more.number document.fresh
    fresh := document.fresh + more.size }

/-- The document whose root holds a body. -/
def ofBody (body : Body) : Document :=
  plant ⟨.nil, ⟨1⟩, 1⟩ body.root body.items

/-- The document of a text. -/
def parse (css : String) : Except ParseError Document :=
  (Body.parse css).map ofBody

/-! ### Asking -/

/-- How many nodes there are, in the tree under the root or apart from it. -/
def size (document : Document) : Nat :=
  document.forest.size

/-- The item of a node and the forest below it. -/
def find? (document : Document) (id : NodeId) : Option (Item × Forest Node) :=
  document.forest.find? id

def item? (document : Document) (id : NodeId) : Option Item :=
  (document.find? id).map Prod.fst

def kind? (document : Document) (id : NodeId) : Option Kind :=
  (document.item? id).map Item.kind

def contains (document : Document) (id : NodeId) : Bool :=
  (document.find? id).isSome

/-- Whether there is such a node and its kind is of a class. -/
def isKind (document : Document) (p : Kind → Bool) (id : NodeId) : Bool :=
  (document.kind? id).any p

/-- The children of a node. -/
def children? (document : Document) (id : NodeId) : Option (List NodeId) :=
  (document.find? id).map fun (_, children) => children.roots.map Node.id

/-- The nodes below a node, in document order. -/
def below? (document : Document) (id : NodeId) : Option (List Node) :=
  (document.find? id).map fun (_, children) => children.labels

/-- The nodes below a node whose kind is of a class, in document order. -/
def select? (document : Document) (p : Kind → Bool) (id : NodeId) : Option (List NodeId) :=
  (document.below? id).map fun nodes => (nodes.filter fun node => p node.item.kind).map Node.id

/-- The nodes above a node, the nearest first. -/
def lineage? (document : Document) (id : NodeId) : Option (List Node) :=
  document.forest.lineage? id []

/-- The parent of a node, if it has one. -/
def parent? (document : Document) (id : NodeId) : Option (Option NodeId) :=
  (document.lineage? id).map fun above => above.head?.map Node.id

/-- Whether a node is in the tree under the root.  The root is, even when it is
gone. -/
def isAttached (document : Document) (id : NodeId) : Bool :=
  id = document.root ||
    ((document.lineage? id).getD []).any fun node => node.id = document.root

/-- Whether `upper` is `id` or above it. -/
def isAncestor (document : Document) (upper id : NodeId) : Bool :=
  upper = id || ((document.lineage? id).getD []).any fun node => node.id = upper

/-- A node and its siblings; `none` inside if it has no parent. -/
def siblings? (document : Document) (id : NodeId) : Option (Option (List NodeId)) :=
  (document.parent? id).map fun parent => parent.bind document.children?

/-- The place of a node among its siblings. -/
def index? (document : Document) (id : NodeId) : Option (Option Nat) :=
  (document.siblings? id).map fun siblings => siblings.bind fun list => list.idxOf? id

/-- The sibling directly before a node. -/
def previous? (document : Document) (id : NodeId) : Option (Option NodeId) :=
  (document.siblings? id).map fun siblings =>
    siblings.bind fun list => (list.takeWhile (· ≠ id)).getLast?

/-- The sibling directly after a node. -/
def next? (document : Document) (id : NodeId) : Option (Option NodeId) :=
  (document.siblings? id).map fun siblings =>
    siblings.bind fun list => (list.dropWhile (· ≠ id)).tail.head?

/-- The last child of a node. -/
def lastChild? (document : Document) (id : NodeId) : Option (Option NodeId) :=
  (document.children? id).map List.getLast?

/-- The text of a node and all below it, without what stands before it. -/
def print? (document : Document) (id : NodeId) : Option String :=
  (document.find? id).map fun (item, children) => item.printTree children.items

/-- The text of the tree under the root, which is empty when the root is gone. -/
def css (document : Document) : String :=
  (document.print? document.root).getD ""

end Document

end ApplyRule
