/-
# ApplyRule.Proofs.WellLinked -- links that always belong together

`TreeOperation` lists what can be done to a document from outside, with any
arguments: identities of nodes that are there, that are gone, or that were never
given out.  `TreeEdits` are the edits they are made of; the edits of a document are
one instance and those of an arena another.

`follows_run` says that an operation on the arena of a document ends, answers what
the operation on the document answers, and leaves the arena of what that leaves,
refused or not.  So after any operations at all, whichever of them are refused, the
links of an arena belong together (`linked_operations`).
-/
import ApplyRule.Proofs.Building

namespace ApplyRule

set_option autoImplicit false

/-! ## Reading, link by link -/

/-- The arena that holds an empty root. -/
def Arena.new : Arena where
  slots id := if id = ⟨1⟩ then some { item := Item.emptyRoot } else none
  root := ⟨1⟩
  fresh := 2

theorem Document.arena_new : Document.new.arena = Arena.new := by
  refine Arena.ext (funext fun id => ?_) rfl rfl
  show Forest.slot? id none (Forest.cons ⟨⟨1⟩, Item.emptyRoot⟩ .nil .nil) = _
  by_cases here : id = ⟨1⟩
  · subst here
    rfl
  · simp [Forest.slot?, Arena.new, here, Ne.symm here]

theorem Document.numbered_new : Document.new.Numbered := by
  have empty : (⟨.nil, ⟨1⟩, 1⟩ : Document).Numbered := ⟨List.nodup_nil, by simp⟩
  exact empty.plant Item.emptyRoot .nil

namespace Linking

/-- Read a text node by node below a new root that stands apart.  The root goes again
if the text cannot be read. -/
def parseFragment (css : String) : Linking (Except ParseError NodeId) := do
  let fragment ← create Item.emptyRoot
  let built ← Body.build builder fragment false (Component.read css.toList)
  return (← Body.settle (destroy fragment) built).map fun _ => fragment

/-- Read a text node by node into a new arena, which takes the place of this one if the
text can be read. -/
def parse (css : String) : Linking (Except ParseError Unit) := do
  let before ← get
  set Arena.new
  let built ← Body.build builder Arena.new.root false (Component.read css.toList)
  Body.settle (set before) built

end Linking

variable {document : Document}

theorem follows_settle {link : Linking Unit} {edit : Edit Unit} (numbered : document.Numbered)
    (built : Except Failure Unit) (givesUp : Follows link edit document) :
    Follows (Body.settle link built) (Body.settle edit built) document := by
  cases built with
  | ok _ => exact Follows.pure numbered _
  | error failure => exact givesUp.bind fun _ _ _ numbered => Follows.pure numbered _

theorem follows_parseFragment (numbered : document.Numbered) (css : String) :
    Follows (Linking.parseFragment css) (Edit.parseFragment css) document := by
  refine (follows_create numbered _).bind fun fragment _ _ numbered => ?_
  refine (follows_build _ _ numbered fragment).bind fun built _ _ numbered => ?_
  refine (follows_settle numbered built (follows_destroy numbered fragment)).bind ?_
  exact fun _ _ _ numbered => Follows.pure numbered _

theorem follows_parse (numbered : document.Numbered) (css : String) :
    Follows (Linking.parse css) (Edit.parse css) document := by
  refine Follows.get ?_
  have restored : ∀ {last : Document}, Follows (set document.arena) (set document) last :=
    Follows.of_ok rfl numbered rfl
  have begun : (set Arena.new : Linking Unit) document.arena =
      some (.ok (), Document.new.arena) := by
    rw [Document.arena_new]
    rfl
  refine Follows.step begun ((bind_ok rfl).trans rfl) ?_
  refine (follows_build _ _ Document.numbered_new Document.new.root).bind ?_
  exact fun built _ _ numbered => follows_settle numbered built restored

/-! ## Operations -/

/-- What can be done to a document. -/
inductive TreeOperation where
  | create (item : Item)
  | createFragment
  | parse (css : String)
  | parseFragment (css : String)
  | append (parent node : NodeId)
  | insertBefore (anchor node : NodeId)
  | insertAfter (anchor node : NodeId)
  | detach (id : NodeId)
  | remove (id : NodeId)
  | destroy (id : NodeId)
  | replaceWith (id : NodeId) (nodes : List NodeId)
  | clone (id : NodeId)
  | setSource (id : NodeId) (source : Option Text.Location)
  | restamp (id : NodeId) (source : Option Text.Location)
  | changeKind (id : NodeId) (change : Kind → Kind)
  | changeRaws (id : NodeId) (change : Raws → Raws)

/-- The edits that operations are made of. -/
structure TreeEdits (m : Type → Type) extends Builder m where
  parse : String → m (Except ParseError Unit)
  parseFragment : String → m (Except ParseError NodeId)
  insertBefore : NodeId → NodeId → m Unit
  insertAfter : NodeId → NodeId → m Unit
  detach : NodeId → m Unit
  remove : NodeId → m Unit
  destroy : NodeId → m Unit
  replaceWith : NodeId → List NodeId → m Unit
  clone : NodeId → m NodeId
  restamp : NodeId → Option Text.Location → m Unit

/-- The edits of a document. -/
def Edit.edits : TreeEdits Edit where
  toBuilder := builder
  parse := parse
  parseFragment := parseFragment
  insertBefore := insertBefore
  insertAfter := insertAfter
  detach := detach
  remove := remove
  destroy := destroy
  replaceWith := replaceWith
  clone := copy
  restamp := restamp

/-- The edits of an arena. -/
def Linking.edits : TreeEdits Linking where
  toBuilder := builder
  parse := parse
  parseFragment := parseFragment
  insertBefore := insertBefore
  insertAfter := insertAfter
  detach := detach
  remove := remove
  destroy := destroy
  replaceWith := replaceWith
  clone := clone
  restamp := restamp

/-- The answer of an operation: a node, or nothing, or why a text cannot be read. -/
def TreeOperation.run {m : Type → Type} [Monad m] (tree : TreeEdits m) :
    TreeOperation → m (Except ParseError (Option NodeId))
  | .create item => do return .ok (some (← tree.create item))
  | .createFragment => do return .ok (some (← tree.create Item.emptyRoot))
  | .parse css => do return (← tree.parse css).map fun _ => none
  | .parseFragment css => do return (← tree.parseFragment css).map some
  | .append parent node => do
      tree.append parent node
      return .ok none
  | .insertBefore anchor node => do
      tree.insertBefore anchor node
      return .ok none
  | .insertAfter anchor node => do
      tree.insertAfter anchor node
      return .ok none
  | .detach id => do
      tree.detach id
      return .ok none
  | .remove id => do
      tree.remove id
      return .ok none
  | .destroy id => do
      tree.destroy id
      return .ok none
  | .replaceWith id nodes => do
      tree.replaceWith id nodes
      return .ok none
  | .clone id => do return .ok (some (← tree.clone id))
  | .setSource id source => do
      tree.touch id (Item.stamp source)
      return .ok none
  | .restamp id source => do
      tree.restamp id source
      return .ok none
  | .changeKind id change => do
      tree.touch id fun item => { item with kind := change item.kind }
      return .ok none
  | .changeRaws id change => do
      tree.touch id fun item => { item with raws := change item.raws }
      return .ok none

/-- Every operation on the arena of a document follows that on the document. -/
theorem follows_run (numbered : document.Numbered) (operation : TreeOperation) :
    Follows (operation.run Linking.edits) (operation.run Edit.edits) document := by
  have answered : ∀ {α : Type} {link : Linking α} {edit : Edit α}
      (answer : α → Except ParseError (Option NodeId)), Follows link edit document →
      Follows (link >>= fun value => pure (answer value))
        (edit >>= fun value => pure (answer value)) document :=
    fun answer follows => follows.bind fun _ _ _ numbered => Follows.pure numbered _
  cases operation with
  | create item => exact answered _ (follows_create numbered item)
  | createFragment => exact answered _ (follows_create numbered Item.emptyRoot)
  | parse css => exact answered _ (follows_parse numbered css)
  | parseFragment css => exact answered _ (follows_parseFragment numbered css)
  | append parent node => exact answered _ (follows_append numbered parent node)
  | insertBefore anchor node =>
      exact answered _ (follows_insertBeside beside_before numbered anchor node)
  | insertAfter anchor node =>
      exact answered _ (follows_insertBeside beside_after numbered anchor node)
  | detach id => exact answered _ (follows_detach numbered id)
  | remove id => exact answered _ (follows_remove numbered id)
  | destroy id => exact answered _ (follows_destroy numbered id)
  | replaceWith id nodes => exact answered _ (follows_replaceWith numbered id nodes)
  | clone id => exact answered _ (follows_clone numbered id)
  | setSource id source => exact answered _ (follows_touch numbered id _)
  | restamp id source => exact answered _ (follows_restamp numbered id source)
  | changeKind id change => exact answered _ (follows_touch numbered id _)
  | changeRaws id change => exact answered _ (follows_touch numbered id _)

/-- The document after an operation, refused or not. -/
def Document.operate (document : Document) (operation : TreeOperation) : Document :=
  match operation.run Edit.edits document with
  | .ok _ after => after
  | .error _ after => after

/-- The arena after an operation, refused or not, if the operation ends. -/
def Arena.operate (arena : Arena) (operation : TreeOperation) : Option Arena :=
  (operation.run Linking.edits arena).map Prod.snd

theorem Document.Numbered.operate (numbered : document.Numbered) (operation : TreeOperation) :
    (document.operate operation).Numbered ∧
      document.arena.operate operation = some (document.operate operation).arena := by
  have follows := follows_run numbered operation
  unfold Follows Outcome at follows
  unfold Document.operate Arena.operate
  cases ran : operation.run Edit.edits document with
  | ok answer after =>
      rw [ran] at follows
      exact ⟨follows.1, congrArg (Option.map Prod.snd) follows.2⟩
  | error error after =>
      rw [ran] at follows
      exact ⟨follows.1, congrArg (Option.map Prod.snd) follows.2⟩

theorem Document.Numbered.operations (numbered : document.Numbered)
    (operations : List TreeOperation) :
    (operations.foldl Document.operate document).Numbered ∧
      operations.foldlM Arena.operate document.arena =
        some (operations.foldl Document.operate document).arena := by
  induction operations generalizing document with
  | nil => exact ⟨numbered, rfl⟩
  | cons operation rest ih =>
      obtain ⟨after, ran⟩ := numbered.operate operation
      rw [List.foldl_cons, List.foldlM_cons, ran]
      exact ih after

/-- **Every arena is well linked.**  Any operations on a new arena end, whichever of them
are refused; they leave the arena of the document that the same operations leave, and
its links belong together. -/
theorem linked_operations (operations : List TreeOperation) :
    ∃ arena, operations.foldlM Arena.operate Arena.new = some arena ∧
      arena = (operations.foldl Document.operate Document.new).arena ∧ arena.Linked := by
  obtain ⟨numbered, ran⟩ := Document.numbered_new.operations operations
  rw [Document.arena_new] at ran
  exact ⟨_, ran, rfl, numbered.linked⟩

end ApplyRule
