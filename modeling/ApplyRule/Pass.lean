/-
# ApplyRule.Pass -- one run over a document

A pass holds the document, the options, the sets that were found so far, each as
a rule that stands apart in the document, and the warnings in the order they were
raised.  Its steps are refused only for a reason to stop; what a failing step has
done until then is kept.
-/
import ApplyRule.Document.Edit
import ApplyRule.File
import ApplyRule.Options
import ApplyRule.Pass.Warning

namespace ApplyRule

set_option autoImplicit false

/-- Why a run stops. -/
inductive Error where
  | parse (error : ParseError)
  | tree (error : TreeError)
  | file (error : FileError)
  | options
  | setName (name : String)
  | predefinedSet (name : String) (error : ParseError)
  deriving DecidableEq

def Error.message : Error → String
  | .parse error => error.message
  | .tree error => "Syntax tree error: " ++ error.message
  | .file error => error.message
  | .options => "Invalid options"
  | .setName name => "Invalid property set name '" ++ name ++ "'"
  | .predefinedSet name error =>
      "Invalid predefined property set '" ++ writtenName name ++ "': " ++ error.message

/-- The sets by name, each the identity of its rule. -/
abbrev Registry := NameMap NodeId

structure Pass where
  document : Document
  options : Options
  registry : Registry := .empty
  warnings : List Warning := []

/-- A step of a pass. -/
abbrev Step (α : Type) := EStateM Error Pass α

namespace Step

/-- An edit of the document as a step. -/
def edit {α : Type} (change : Edit α) : Step α := fun pass =>
  match change pass.document with
  | .ok answer document => .ok answer { pass with document }
  | .error error document => .error (.tree error) { pass with document }

/-- The answer to a question about a node, refused if there is no such node. -/
def ask {α : Type} (question : Document → Option α) : Step α :=
  edit (Edit.ask question)

def document : Step Document := do
  return (← get).document

def warn (cause : Cause) (source : Option Text.Location) : Step Unit :=
  modify fun pass => { pass with warnings := pass.warnings ++ [⟨cause, source⟩] }

/-- Where a node was written. -/
def source (id : NodeId) : Step (Option Text.Location) := do
  return (← ask (·.item? id)).source

/-- Register a rule under a name, and drop the rule it replaces. -/
def store (name : String) (set : NodeId) : Step Unit := do
  let previous := (← get).registry.lookup? name
  modify fun pass => { pass with registry := pass.registry.insert name set }
  if let some previous := previous then
    edit (Edit.destroy previous)

end Step

namespace Pass

/-- The text of a registered set: its children, each with a semicolon after it. -/
def setCss (pass : Pass) (name : String) : Except Error (Option String) :=
  match pass.registry.lookup? name with
  | none => .ok none
  | some id =>
      match pass.document.find? id with
      | none => .error (.tree .noNode)
      | some (_, children) =>
          .ok <| some <| String.join <| children.items.trees.map fun (item, below) =>
            item.raws.before ++ item.printTree below ++ ";"

end Pass

end ApplyRule
