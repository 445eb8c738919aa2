/-
# ApplyRule.Pass.Reference -- putting sets in place of references

A reference is an at-rule named `apply` whose parameters name a set.  It is
replaced by copies of what the set's rule holds, indented for their new place.

References between sets are resolved first, in `resolveNested`: a set that another
refers to is flattened before it is copied.  The sets that are being flattened
form a chain, and a reference back into the chain is reported and dropped.
`flatten` recurses on the names that are not in the chain, of which there is one
fewer each time.

The copy of a set is planted at once, indented already, and its children take the
reference's place in one edit, which drops the copy's own rule.  Node by node, the copy is
made first, then indented, its children are moved one after the other, and the reference
and the emptied rule go.  In the passes that can be reached both leave the same
(`Step.substitute_nodewise`, `process_completes`), and `partitioned_operate` follows whole
passes where all of this is done node by node.
-/
import ApplyRule.Pass.Definition

namespace ApplyRule

set_option autoImplicit false

open Text

/-- The name of the at-rule that refers to a set. -/
def referenceRule : String := "apply"

/-! ## Indentation -/

/-- The text before the first run of two or more blanks on one line, the run, and
the text after it. -/
def indentation? : List Char → Option (List Char × List Char × List Char)
  | [] => none
  | c :: rest =>
      let run := (c :: rest).takeWhile isHorizontal
      if 2 ≤ run.length then some ([], run, (c :: rest).dropWhile isHorizontal)
      else (indentation? rest).map fun (before, run, after) => (c :: before, run, after)

/-- The text before a declaration in a parent that has `outer` before it: its
indentation becomes the parent's and two spaces more. -/
def reindent (outer before : String) : String :=
  match indentation? before.toList with
  | none => before
  | some (lead, _, trail) =>
      let run := ((indentation? outer.toList).map fun (_, run, _) => run).getD []
      String.ofList (lead ++ (' ' :: ' ' :: run) ++ trail)

/-- A forest below an item that has `outer` before it, with its declarations
indented anew. -/
def Forest.reindent (outer : String) : Forest Item → Forest Item
  | .nil => .nil
  | .cons item children rest =>
      let item :=
        if item.kind.isDeclaration then
          { item with raws.before := ApplyRule.reindent outer item.raws.before }
        else item
      .cons item (children.reindent item.raws.before) (rest.reindent outer)

/-! ## Steps -/

namespace Step

/-- Put copies of what a set's rule holds in a reference's place. -/
def substitute (reference set : NodeId) : Step Unit := do
  let (item, children) ← ask (·.find? set)
  let copy ← edit (Edit.plant item (children.items.reindent item.raws.before))
  edit (Edit.replaceByChildren reference copy)

/-- Replace a reference in the document.  Outside all rules it is reported and
taken out; if its set is unknown it is reported and left, and left without a
report if it names none. -/
def resolve (id : NodeId) : Step Unit := do
  let some (.atRule name params _) := (← document).kind? id | return
  unless name = referenceRule do return
  let above ← ask (·.lineage? id)
  unless above.any fun node => node.item.kind.isRule do
    warn .orphanedReference (← source id)
    edit (Edit.remove id)
    return
  let some target := referenceName? params | return
  match (← get).registry.lookup? target with
  | none => warn (.unknownSet target) (← source id)
  | some set => substitute id set

/-- Report what is wrong with a reference inside a set, and drop it. -/
def dropReference (cause : Cause) (id : NodeId) : Step Unit := do
  warn cause (← source id)
  edit (Edit.remove id)

set_option linter.unusedVariables false in
/-- Resolve all references inside a set, and before that all inside the sets it
refers to.  `chain` holds the sets that are being flattened, `waiting` all others;
`flattened` are those that are done, and the answer adds to them. -/
def flatten (waiting chain : List String) (name : String) (flattened : List String) :
    Step (List String) := do
  if name ∈ flattened then return flattened
  let some set := (← get).registry.lookup? name | return flattened
  let chain := chain ++ [name]
  let references ← ask (·.select? (Kind.isAtRule referenceRule) set)
  let flattened ← references.foldlM (fun flattened id => do
    let some (.atRule _ params _) := (← document).kind? id | return flattened
    match referenceName? params with
    | none =>
        edit (Edit.remove id)
        return flattened
    | some target =>
        if target ∈ chain then
          dropReference (.circularReference (chain ++ [target])) id
          return flattened
        else if known : target ∈ waiting then
          let flattened ← flatten (waiting.erase target) chain target flattened
          if let some set := (← get).registry.lookup? target then
            substitute id set
          return flattened
        else
          dropReference (.unknownSet target) id
          return flattened) flattened
  return name :: flattened
termination_by waiting.length
decreasing_by
  rw [List.length_erase_of_mem known]
  have := List.length_pos_of_mem known
  omega

/-- Resolve the references inside all sets, in the order of the sets. -/
def resolveNested : Step Unit := do
  let names := (← get).registry.names
  let _ ← names.foldlM (fun flattened name => flatten (names.erase name) [] name flattened) []

/-- Find all sets and resolve the references between them. -/
def prepare : Step Unit := do
  registerPredefined
  extractDeclarations
  extractRules
  resolveNested

/-- Find all sets and put them in place of all references. -/
def run : Step Unit := do
  prepare
  forAttached (← underRoot (Kind.isAtRule referenceRule)) resolve

end Step

end ApplyRule
