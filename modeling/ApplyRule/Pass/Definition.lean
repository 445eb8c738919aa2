/-
# ApplyRule.Pass.Definition -- finding sets

A set is defined in a rule for the document root, in one of two forms: as a custom
property whose value starts with a block, or as a rule whose selector is the set's
name.  A definition elsewhere is reported and, at the top of the document, taken
out.

The value of a custom property runs to the next semicolon, so what is written
after the block of a definition is part of its value.  `expand` reads it all: the
block, the definitions that follow, and the items between them, without touching
the document.  Only when all of it can be read does the document change.

So a set's rule and an item between definitions are each planted at once, as one tree, and
so is the copy of a rule.  Read node by node, a text becomes a fragment in the document,
whose children move below the rule or are sorted out, and what was made before a failure
goes again.  That leaves the same trees and no other node: `Edit.plantBody_ok` and
`Edit.plantBody_error` say so of a set's body, `Edit.expand_ok` and `Edit.expand_error` of a
definition's value, `process_completes` that no edit of it is refused, and
`partitioned_operate` what is left of whole passes that work like that.
-/
import ApplyRule.Component.Split
import ApplyRule.Pass

namespace ApplyRule

set_option autoImplicit false

open Text

/-- The selector of the rules that sets are defined in. -/
def rootSelector : String := ":root"

/-- The name and value of a declaration that defines a set. -/
def Kind.definition? : Kind → Option (String × String)
  | .declaration property value =>
      match setName? property with
      | some name => if value.toList.head? = some '{' then some (name, value) else none
      | none => none
  | _ => none

/-- Whether two items are the same to the scope they stand in. -/
def Kind.agrees : Kind → Kind → Bool
  | .declaration property _, .declaration other _ => property = other
  | .rule selector, .rule other => selector = other
  | .atRule name params _, .atRule other otherParams _ => name = other && params = otherParams
  | .comment text, .comment other => text = other
  | _, _ => false

/-! ## Reading a definition's value -/

/-- A rule on its own. -/
structure SetRule where
  name : String
  item : Item
  children : Forest Item

/-- The rule of a set with a body. -/
def SetRule.ofBody (name : String) (source : Option Location) (body : Body) : SetRule :=
  ⟨name, ⟨.rule (writtenName name), ({} : Raws).enclose body, source⟩, body.items⟩

/-- All that one value defines: sets, and items that stand between them. -/
structure Expansion where
  sets : List SetRule := []
  items : Forest Item := .nil

/-- The sets and items of two values, one after the other. -/
def Expansion.append (first second : Expansion) : Expansion :=
  ⟨first.sets ++ second.sets, first.items ++ second.items⟩

/-- One definition: its set, the items after its block, and the definitions after
its block. -/
structure Expanded where
  set : SetRule
  items : Forest Item
  pending : List (String × String)

/-- The trees of a forest that define no set. -/
def Forest.undefining : Forest Item → Forest Item
  | .nil => .nil
  | .cons item children rest =>
      if item.kind.definition?.isSome then rest.undefining
      else .cons item children rest.undefining

/-- Read one definition.  All that comes of it has the definition's source. -/
def expandOne (source : Option Location) (name value : String) : Except ParseError Expanded := do
  match split? .curly value.toList with
  | none => throw ⟨.unclosedBody, source.getD ⟨0, 0⟩⟩
  | some split =>
      let body ← Body.parse (String.ofList split.body)
      let set := SetRule.ofBody name source { body with items := body.items.map (·.stamp source) }
      if (trim split.after).isEmpty then return ⟨set, .nil, []⟩
      let after ← Body.parse (String.ofList split.after)
      let items := after.items.map (·.stamp source)
      return ⟨set, items.undefining, items.roots.filterMap fun item => item.kind.definition?⟩

/-- Read definitions and those that follow from them, in order, in at most `rounds`
rounds. -/
def expandAll (source : Option Location) :
    Nat → List (String × String) → Except ParseError Expansion
  | _, [] => return {}
  | 0, _ => return {}
  | rounds + 1, (name, value) :: pending => do
      let one ← expandOne source name value
      let more ← expandAll source rounds (pending ++ one.pending)
      return Expansion.append ⟨[one.set], one.items⟩ more

/-- All that a definition's value defines.  Every round takes a block out of what
is left of the value, so its length bounds their number. -/
def expand (source : Option Location) (name value : String) : Except ParseError Expansion :=
  expandAll source (value.length + 1) [(name, value)]

/-! ## Steps -/

namespace Step

/-- A new rule for a set, which stands apart. -/
def plantSet (set : SetRule) : Step NodeId :=
  edit (Edit.plant set.item set.children)

/-- Register a set that the options give, unless its name is taken. -/
def registerOne (written text : String) : Step Unit := do
  let name := bareName written
  if (← get).registry.contains name then return
  if (setName? (writtenName name)).isNone then throw (.setName written)
  match Body.parse text with
  | .error error => throw (.predefinedSet name error)
  | .ok body => store name (← plantSet (.ofBody name none body))

/-- Register the sets that the options give. -/
def registerPredefined : Step Unit := do
  (← get).options.sets.entries.forM fun (written, text) => registerOne written text

/-- Whether a definition stands where sets are defined.  If not, it is reported,
and taken out if it stands at the top. -/
def acceptScope (id : NodeId) (name : String) (scope : NodeId) : Step Bool := do
  let kind := (← document).kind? scope
  if kind = some (.rule rootSelector) then return true
  let selector :=
    match kind with
    | some (.rule selector) => some selector
    | _ => none
  warn (.misplacedSet name selector) (← source id)
  if (← document).isKind Kind.isRoot scope then
    edit (Edit.remove id)
  return false

/-- Take out the comment directly before a node. -/
def removeCommentBefore (id : NodeId) : Step Unit := do
  if let some previous := ← ask (·.previous? id) then
    if (← document).isKind Kind.isComment previous then
      edit (Edit.remove previous)

/-- Whether a scope has a child that is the same to it. -/
def hasAgreeing (scope : NodeId) (kind : Kind) : Step Bool := do
  let (_, children) ← ask (·.find? scope)
  return children.roots.any fun node => node.item.kind.agrees kind

/-- Put a scope in order after a definition was taken out of it: an empty one goes,
and another one's last statement is terminated, with the closing bracket on a
line of its own, unless that is a rule with its own semicolon. -/
def settleScope (scope : NodeId) : Step Unit := do
  match ← ask (·.lastChild? scope) with
  | none => edit (Edit.remove scope)
  | some last =>
      let item ← ask (·.item? last)
      unless item.kind.isRule && item.raws.ownSemicolon.isSome do
        edit (Edit.updateItem scope fun item =>
          { item with raws := { item.raws with semicolon := true, after := "\n" } })

/-- Put items after a node, one after the other, except those that the scope has
already. -/
def insertAllAfter (scope : NodeId) : NodeId → List NodeId → Step Unit
  | _, [] => return
  | anchor, id :: rest => do
      let kind ← ask (·.kind? id)
      if ← hasAgreeing scope kind then
        edit (Edit.destroy id)
        insertAllAfter scope anchor rest
      else
        edit (Edit.insertAfter anchor id)
        insertAllAfter scope id rest

/-- Take a definition in the form of a declaration out of the document. -/
def collectDeclaration (id : NodeId) : Step Unit := do
  let some (name, value) := ((← document).kind? id).bind Kind.definition? | return
  let some scope := ← ask (·.parent? id) | return
  unless ← acceptScope id name scope do return
  let source ← source id
  match expand source name value with
  | .error error => warn (.malformedSet name error) source
  | .ok expansion =>
      let sets ← expansion.sets.mapM fun set => do
        return (set.name, ← plantSet set)
      let items ← expansion.items.trees.mapM fun (item, children) =>
        edit (Edit.plant item children)
      removeCommentBefore id
      sets.forM fun (name, set) => store name set
      insertAllAfter scope id items
      edit (Edit.remove id)
      settleScope scope

/-- Take a definition in the form of a rule out of the document, or copy it if
definitions are to stay. -/
def collectRule (id : NodeId) : Step Unit := do
  let some (.rule selector) := (← document).kind? id | return
  let some name := setName? selector | return
  let some scope := ← ask (·.parent? id) | return
  unless ← acceptScope id name scope do return
  store name (← edit (Edit.copy id))
  if (← get).options.preserve then return
  removeCommentBefore id
  edit (Edit.remove id)
  settleScope scope

/-- Run a step on each node of a list that is in the tree under the root when its
turn comes. -/
def forAttached (ids : List NodeId) (step : NodeId → Step Unit) : Step Unit :=
  ids.forM fun id => do
    if (← document).isAttached id then
      step id

/-- The nodes of a class under the root, in document order. -/
def underRoot (p : Kind → Bool) : Step (List NodeId) := do
  let root := (← document).root
  ask (·.select? p root)

/-- Find the sets that are defined by declarations. -/
def extractDeclarations : Step Unit := do
  forAttached (← underRoot Kind.isDeclaration) collectDeclaration

/-- Find the sets that are defined by rules. -/
def extractRules : Step Unit := do
  forAttached (← underRoot Kind.isRule) collectRule

end Step

end ApplyRule
