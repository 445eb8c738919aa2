/-
# ApplyRule.Proofs.Making -- the steps of a pass, for any way to make trees

The steps of a pass make trees in three places: a set that the options give is planted
from its text, a definition's value is read into rules and items, and copies of a set's
children take a reference's place.  A `Maker` says how.  Everything else that a step does
is the same for every maker: what is looked at, reported, registered, moved and removed,
and in which order.

* `Maker.atOnce` plants whole trees of texts that were read before.  Its steps are those
  of a pass (`Maker.step_atOnce`).
* `Maker.byNode` makes one node after the other in the document: a text is read into a
  fragment, whose children move below a new rule; what follows a block becomes a second
  fragment, whose children are sorted out; what was made of a definition that cannot be
  read goes again; a copy of a set is indented, emptied into the reference's place and
  dropped.  Every node that comes up on the way is a node of the document, and stays there
  unless an edit removes it.
-/
import ApplyRule.Proofs.Expanding
import ApplyRule.Proofs.Operations
import ApplyRule.Proofs.Replacing

namespace ApplyRule

set_option autoImplicit false

open Document Text

/-- How the steps of a pass make trees. -/
structure Maker where
  /-- The rule for a set, from the text of its body. -/
  plantBody : (name text : String) → (source : Option Location) → Step (Except ParseError NodeId)
  /-- The rules and items that a definition's value defines. -/
  expand : (source : Option Location) → (name value : String) → Step (Except ParseError Made)
  /-- Copies of what a set's rule holds, in a reference's place. -/
  substitute : (reference set : NodeId) → Step Unit

namespace Maker

open Step

/-- Whole trees are planted, of texts that were read before. -/
def atOnce : Maker where
  plantBody name text source :=
    match Body.parse text with
    | .error error => return .error error
    | .ok body => return .ok (← plantSet (.ofBody name source body))
  expand source name value :=
    match ApplyRule.expand source name value with
    | .error error => return .error error
    | .ok expansion => do
        let sets ← expansion.sets.mapM fun set => do
          return (set.name, ← plantSet set)
        let items ← expansion.items.trees.mapM fun (item, children) =>
          edit (Edit.plant item children)
        return .ok ⟨sets, items⟩
  substitute := Step.substitute

/-- Trees are made node by node in the document. -/
def byNode : Maker where
  plantBody name text source := edit (Edit.plantBody name text source)
  expand source name value := edit (Edit.expand source name value)
  substitute reference set := edit (Edit.substitute reference set)

/-! ## Steps -/

section Steps

variable (maker : Maker)

/-- Register a set that the options give, unless its name is taken. -/
def registerOne (written text : String) : Step Unit := do
  let name := bareName written
  if (← get).registry.contains name then return
  if (setName? (writtenName name)).isNone then throw (.setName written)
  match ← maker.plantBody name text none with
  | .error error => throw (.predefinedSet name error)
  | .ok set => store name set

/-- Register the sets that the options give. -/
def registerPredefined : Step Unit := do
  (← get).options.sets.entries.forM fun (written, text) => maker.registerOne written text

/-- Take a definition in the form of a declaration out of the document. -/
def collectDeclaration (id : NodeId) : Step Unit :=
  atDefinition id fun name value scope source => do
    match ← maker.expand source name value with
    | .error error => warn (.malformedSet name error) source
    | .ok made => giveWay id scope made.sets made.items

/-- Find the sets that are defined by declarations. -/
def extractDeclarations : Step Unit := do
  forAttached (← underRoot Kind.isDeclaration) maker.collectDeclaration

/-- Replace a reference in the document. -/
def resolve (id : NodeId) : Step Unit :=
  atReference id (maker.substitute id)

/-- Resolve all references inside a set, and before that all inside the sets it
refers to. -/
def flatten (waiting chain : List String) (name : String) (flattened : List String) :
    Step (List String) := do
  if name ∈ flattened then return flattened
  let some set := (← get).registry.lookup? name | return flattened
  let references ← ask (·.select? (Kind.isAtRule referenceRule) set)
  let flattened ← references.foldlM (fun flattened id =>
    atNested waiting (chain ++ [name]) flattened id fun target _ => do
      let flattened ← flatten (waiting.erase target) (chain ++ [name]) target flattened
      if let some set := (← get).registry.lookup? target then
        maker.substitute id set
      return flattened) flattened
  return name :: flattened
termination_by waiting.length
decreasing_by
  rename_i known
  rw [List.length_erase_of_mem known]
  have := List.length_pos_of_mem known
  omega

/-- Resolve the references inside all sets, in the order of the sets. -/
def resolveNested : Step Unit := do
  let names := (← get).registry.names
  let _ ← names.foldlM (fun flattened name =>
    maker.flatten (names.erase name) [] name flattened) []

/-- Find all sets and resolve the references between them. -/
def prepare : Step Unit := do
  maker.registerPredefined
  maker.extractDeclarations
  extractRules
  maker.resolveNested

/-- Find all sets and put them in place of all references. -/
def run : Step Unit := do
  maker.prepare
  forAttached (← underRoot (Kind.isAtRule referenceRule)) maker.resolve

/-- The steps that a host can run. -/
def step : Operation → Step Unit
  | .registerPredefined => maker.registerPredefined
  | .extractDeclarations => maker.extractDeclarations
  | .extractRules => extractRules
  | .resolveNested => maker.resolveNested
  | .prepare => maker.prepare
  | .run => maker.run
  | .resolve id => maker.resolve id

/-- The pass that a step leaves, whether it succeeds or is refused. -/
def apply (pass : Pass) (operation : Operation) : Pass :=
  match maker.step operation pass with
  | .ok _ after => after
  | .error _ after => after

/-- The pass after operations, one after the other. -/
def operate (pass : Pass) (operations : List Operation) : Pass :=
  operations.foldl maker.apply pass

end Steps

/-! ## At once -/

theorem atOnce_registerOne (written text : String) :
    atOnce.registerOne written text = Step.registerOne written text := by
  unfold registerOne Step.registerOne atOnce
  cases parsed : Body.parse text with
  | error error => simp only [parsed, pure_bind]
  | ok body => simp only [parsed, bind_assoc, pure_bind]

theorem atOnce_registerPredefined :
    atOnce.registerPredefined = Step.registerPredefined := by
  unfold registerPredefined Step.registerPredefined
  simp only [atOnce_registerOne]

theorem atOnce_collectDeclaration (id : NodeId) :
    atOnce.collectDeclaration id = Step.collectDeclaration id := by
  unfold collectDeclaration atOnce
  rw [collectDeclaration_eq]
  congr
  funext name value scope source
  cases read : ApplyRule.expand source name value with
  | error error => simp only [read, pure_bind]
  | ok expansion => simp only [read, bind_assoc, pure_bind]

/-- What becomes of one reference inside a set. -/
def flattenOne (maker : Maker) (waiting chain flattened : List String) (id : NodeId) :
    Step (List String) :=
  atNested waiting chain flattened id fun target _ => do
    let flattened ← maker.flatten (waiting.erase target) chain target flattened
    if let some set := (← get).registry.lookup? target then
      maker.substitute id set
    return flattened

theorem flatten_eq (maker : Maker) (waiting chain : List String) (name : String)
    (flattened : List String) :
    maker.flatten waiting chain name flattened = (do
      if name ∈ flattened then return flattened
      let some set := (← get).registry.lookup? name | return flattened
      let references ← ask (·.select? (Kind.isAtRule referenceRule) set)
      let flattened ← references.foldlM (maker.flattenOne waiting (chain ++ [name])) flattened
      return name :: flattened) := by
  rw [flatten]
  rfl

theorem atOnce_flatten (waiting chain : List String) (name : String) (flattened : List String) :
    atOnce.flatten waiting chain name flattened = Step.flatten waiting chain name flattened := by
  induction count : waiting.length using Nat.strongRecOn
    generalizing waiting chain name flattened with
  | ind n ih =>
      have rounds : atOnce.flattenOne waiting (chain ++ [name]) =
          Step.flattenOne waiting (chain ++ [name]) := by
        funext flattened id
        refine congrArg (atNested waiting (chain ++ [name]) flattened id) ?_
        funext target waits
        have fewer : (waiting.erase target).length < n := by
          rw [← count, List.length_erase_of_mem waits]
          have := List.length_pos_of_mem waits
          omega
        rw [ih _ fewer _ _ _ _ rfl]
        rfl
      have whole := flatten_eq atOnce waiting chain name flattened
      rw [rounds] at whole
      exact whole.trans (Step.flatten_eq waiting chain name flattened).symm

/-- **With whole trees, the steps are those of a pass.** -/
theorem step_atOnce (operation : Operation) : atOnce.step operation = operation.step := by
  have extracts : atOnce.extractDeclarations = Step.extractDeclarations := by
    unfold extractDeclarations Step.extractDeclarations
    rw [show atOnce.collectDeclaration = Step.collectDeclaration from
      funext atOnce_collectDeclaration]
  have nested : atOnce.resolveNested = Step.resolveNested := by
    unfold resolveNested Step.resolveNested
    simp only [atOnce_flatten]
  have prepares : atOnce.prepare = Step.prepare := by
    unfold prepare Step.prepare
    rw [atOnce_registerPredefined, extracts, nested]
  cases operation with
  | registerPredefined => exact atOnce_registerPredefined
  | extractDeclarations => exact extracts
  | extractRules => rfl
  | resolveNested => exact nested
  | prepare => exact prepares
  | run =>
      unfold step Operation.step run Step.run
      rw [prepares]
      rfl
  | resolve id => rfl

end Maker

end ApplyRule
