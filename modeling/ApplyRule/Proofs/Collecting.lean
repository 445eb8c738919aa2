/-
# ApplyRule.Proofs.Collecting -- taking definitions out

What becomes of a definition is told by its place: `Step.Declared` for declarations
and `Step.Ruled` for rules say which forest it leaves under the root and which sets
it registers.  `collect_declaration` and `collect_rule` are the steps on a node:
they are never refused, and what they leave is of that form (`Step.Collected`).

How a definition's value becomes trees is left open in `Step.atDefinition`, which finds
the definition and reports one that is misplaced, and in `Step.giveWay`, which registers
the rules that were made and puts the items in place (`refuse_definition`,
`collected_giveWay`).

Only a set that the options give can be refused (`keeps_registerOne`).
-/
import ApplyRule.Proofs.ScopeSteps

namespace ApplyRule

set_option autoImplicit false

open Document

/-! ## Where definitions stand -/

/-- The name of the set that a rule defines. -/
def Kind.ruleName? : Kind → Option String
  | .rule selector => setName? selector
  | _ => none

/-- The name of the set that a declaration defines. -/
def Kind.declaredName? (kind : Kind) : Option String :=
  kind.definition?.map Prod.fst

/-- The selector of a rule. -/
def Kind.selector? : Kind → Option String
  | .rule selector => some selector
  | _ => none

namespace Place

/-- Whether a node is a child of the root. -/
def Topmost (place : Place) : Prop :=
  place.above.head? = some .root

/-- Whether a node stands in a rule for the document root, where sets are defined. -/
def Accepted (place : Place) : Prop :=
  place.above.head? = some (.rule rootSelector)

instance (place : Place) : Decidable place.Topmost :=
  inferInstanceAs (Decidable (_ = _))

instance (place : Place) : Decidable place.Accepted :=
  inferInstanceAs (Decidable (_ = _))

/-- All that a declaration defines, if it is accepted and can be read. -/
def expansion? (place : Place) : Option Expansion :=
  match place.kind.definition? with
  | none => none
  | some (name, value) =>
      if place.Accepted then (expand place.source name value).toOption else none

/-- What is reported of a definition that stands elsewhere than where sets are defined: the
name of the set, and the selector of the rule that the definition stands in. -/
def misplaced (place : Place) (name : String) : Warning :=
  ⟨.misplacedSet name (place.above.head?.bind Kind.selector?), place.source⟩

/-- The forest under the root after a definition in the place was refused: one that is a child
of the root goes.  Which kinds define a set is told by `named`. -/
def refused (named : Kind → Option String) (place : Place) (below : Forest Node) : Forest Node :=
  if place.Topmost ∧ (named place.kind).isSome = true then below.without place.id else below

variable {place : Place} {named : Kind → Option String}

theorem refused_of_none (plain : named place.kind = none) (below : Forest Node) :
    place.refused named below = below := by
  rw [refused, plain]
  exact if_neg fun both => by cases both.2

theorem refused_of_some {name : String} (defines : named place.kind = some name)
    (below : Forest Node) :
    place.refused named below = if place.Topmost then below.without place.id else below := by
  rw [refused, defines, Option.isSome_some]
  simp only [and_true]

variable {kind : Kind} (above : place.above.head? = some kind)

include above

theorem topmost_iff : place.Topmost ↔ kind.isRoot = true := by
  rw [Topmost, above]
  cases kind <;> simp [Kind.isRoot]

theorem accepted_iff : place.Accepted ↔ kind = .rule rootSelector := by
  rw [Accepted, above, Option.some_inj]

end Place

namespace Step

variable {pass mid after : Pass} {sets items : List NodeId} {id scope : NodeId}
  {item rootItem : Item} {below children left : Forest Node} {stored more : List SetRule}
  {raised new : List Warning} {place : Place}

/-! ## One node -/

/-- What a step that registers nothing leaves as it was, and what it makes of the tree
under the root. -/
structure Answered (pass : Pass) (rootItem : Item) (left : Forest Node) (raised : List Warning)
    (after : Pass) : Prop where
  tidy : after.Tidy [] []
  options : after.options = pass.options
  registry : after.registry = pass.registry
  sets : after.sets = pass.sets
  warnings : after.warnings = pass.warnings ++ raised
  root : after.document.root = pass.document.root
  fresh : pass.document.fresh ≤ after.document.fresh
  under : after.document.find? after.document.root = some (rootItem, left)

theorem Answered.trans (first : Answered pass rootItem below raised mid)
    (second : Answered mid rootItem left new after) :
    Answered pass rootItem left (raised ++ new) after := by
  refine ⟨second.tidy, second.options.trans first.options, second.registry.trans first.registry,
    second.sets.trans first.sets, ?_, second.root.trans first.root,
    Nat.le_trans first.fresh second.fresh, second.under⟩
  rw [second.warnings, first.warnings, List.append_assoc]

/-- A step that only reports. -/
theorem answered_warn (tidy : pass.Tidy [] [])
    (rootFound : pass.document.find? pass.document.root = some (rootItem, below))
    (raised : List Warning) :
    Answered pass rootItem below raised { pass with warnings := pass.warnings ++ raised } :=
  ⟨tidy.warned _, rfl, rfl, rfl, rfl, rfl, Nat.le_refl _, rootFound⟩

theorem answered_self (tidy : pass.Tidy [] [])
    (rootFound : pass.document.find? pass.document.root = some (rootItem, below)) :
    Answered pass rootItem below [] pass :=
  ⟨tidy, rfl, rfl, rfl, (List.append_nil _).symm, rfl, Nat.le_refl _, rootFound⟩

/-- A node under the root is removed. -/
theorem answered_remove (tidy : pass.Tidy [] [])
    (rootFound : pass.document.find? pass.document.root = some (rootItem, below))
    (within : id ∈ below.ids) :
    ∃ after, edit (Edit.remove id) pass = .ok () after ∧
      Answered pass rootItem (below.without id) [] after := by
  obtain ⟨document, ran, removed⟩ := tidy.sound.remove_under rootFound within
  have trees : ∀ set ∈ pass.registry.ids, document.find? set = pass.document.find? set :=
    fun set member => removed.trees set (mem_tops_of_registered member)
      (tidy.ne_root (by simp [member]))
  refine ⟨_, edit_ok ran, ?_, rfl, rfl, Pass.Tidy.sets_congr rfl trees,
    (List.append_nil _).symm, removed.root, removed.fresh.ge, ?_⟩
  · refine tidy.edited removed.root removed.sound fun set member => ?_
    rw [item?, item?, trees set (by simpa using member)]
  · show document.find? document.root = _
    rw [removed.root]
    exact removed.under

/-- What a pass is after a step on one node under the root: the forest that is left
there, the sets that were registered, and what was reported. -/
structure Collected (pass : Pass) (rootItem : Item) (left : Forest Node) (stored : List SetRule)
    (raised : List Warning) (after : Pass) : Prop where
  tidy : after.Tidy [] []
  options : after.options = pass.options
  registers : Registers pass stored after
  warnings : after.warnings = pass.warnings ++ raised
  root : after.document.root = pass.document.root
  under : after.document.find? after.document.root = some (rootItem, left)

theorem Collected.trans (first : Collected pass rootItem below stored raised mid)
    (second : Collected mid rootItem left more new after) :
    Collected pass rootItem left (stored ++ more) (raised ++ new) after := by
  refine ⟨second.tidy, second.options.trans first.options,
    first.registers.trans second.registers, ?_, second.root.trans first.root, second.under⟩
  rw [second.warnings, first.warnings, List.append_assoc]

theorem Answered.collected (answered : Answered pass rootItem left raised after) :
    Collected pass rootItem left [] raised after :=
  ⟨answered.tidy, answered.options, ⟨by rw [answered.registry]; rfl, answered.sets⟩,
    answered.warnings, answered.root, answered.under⟩

theorem acceptScope_accepted (name : String)
    (known : pass.document.kind? scope = some (.rule rootSelector)) :
    acceptScope id name scope pass = .ok true pass := by
  refine (bind_ok document_ok).trans ?_
  simp only [known, if_true]
  rfl

/-- A definition elsewhere is reported, and goes if it stands in the root. -/
theorem acceptScope_refused (tidy : pass.Tidy [] [])
    (rootFound : pass.document.find? pass.document.root = some (rootItem, below))
    (member : place ∈ below.places [.root]) (name : String) {kind : Kind}
    (known : pass.document.kind? scope = some kind) (above : place.above.head? = some kind)
    (elsewhere : ¬ place.Accepted) :
    ∃ after, acceptScope place.id name scope pass = .ok false after ∧
      Answered pass rootItem (if place.Topmost then below.without place.id else below)
        [place.misplaced name] after := by
  obtain ⟨item, inner, path, -, found, -, -, same⟩ :=
    tidy.sound.exists_node_of_place rootFound member
  have source : place.source = item.source := congrArg Place.source same
  have notAccepted : ¬ some kind = some (.rule rootSelector) := fun eq =>
    elsewhere (above.trans eq)
  have isRoot : pass.document.isKind Kind.isRoot scope = kind.isRoot := by
    rw [isKind, known, Option.any_some]
  -- Whatever is reported, the definition goes if it stands in the root.
  have refused : ∀ raised, ∃ after, (do
      if (← document).isKind Kind.isRoot scope then edit (Edit.remove place.id)
      return false) { pass with warnings := pass.warnings ++ raised } = .ok false after ∧
        Answered pass rootItem (if place.Topmost then below.without place.id else below) raised
          after := by
    intro raised
    have reported := answered_warn tidy rootFound raised
    rw [bind_ok document_ok]
    simp only [isRoot, Place.topmost_iff above]
    split
    · obtain ⟨after, ran, removed⟩ := answered_remove reported.tidy reported.under
        (Forest.mem_ids_of_mem_places member)
      exact ⟨after, (bind_ok ran).trans rfl, List.append_nil raised ▸ reported.trans removed⟩
    · exact ⟨_, rfl, reported⟩
  obtain ⟨after, ran, answered⟩ := refused [place.misplaced name]
  refine ⟨after, ?_, answered⟩
  rw [Place.misplaced, above, source] at ran
  unfold acceptScope
  rw [bind_ok document_ok, known, if_neg notAccepted, bind_ok (source_ok found),
    bind_ok (warn_ok _ _), ← ran]
  cases kind <;> rfl

/-- What is done to a definition in the form of a declaration that is accepted where it
stands. -/
def atDefinition (id : NodeId)
    (take : (name value : String) → (scope : NodeId) → Option Text.Location → Step Unit) :
    Step Unit := do
  let some (name, value) := ((← document).kind? id).bind Kind.definition? | return
  let some scope := ← ask (·.parent? id) | return
  unless ← acceptScope id name scope do return
  take name value scope (← source id)

/-- A definition gives way to what was made of its value: the sets are registered, the items
that its scope does not have are put after it, and its scope is put in order. -/
def giveWay (id scope : NodeId) (sets : List (String × NodeId)) (items : List NodeId) :
    Step Unit := do
  removeCommentBefore id
  sets.forM fun (name, set) => store name set
  insertAllAfter scope id items
  edit (Edit.remove id)
  settleScope scope

theorem collectDeclaration_eq (id : NodeId) :
    collectDeclaration id = (atDefinition id fun name value scope source =>
      match expand source name value with
      | .error error => warn (.malformedSet name error) source
      | .ok expansion => do
          let sets ← expansion.sets.mapM fun set => do
            return (set.name, ← plantSet set)
          let items ← expansion.items.trees.mapM fun (item, children) =>
            edit (Edit.plant item children)
          giveWay id scope sets items) := rfl

variable {take : (name value : String) → (scope : NodeId) → Option Text.Location → Step Unit}

/-- A declaration elsewhere is reported if it defines a set, and goes if it stands in the
root. -/
theorem refuse_definition (tidy : pass.Tidy [] [])
    (rootFound : pass.document.find? pass.document.root = some (rootItem, below))
    (member : place ∈ below.places [.root]) (elsewhere : ¬ place.Accepted) :
    ∃ after, atDefinition place.id take pass = .ok () after ∧
      Answered pass rootItem (place.refused Kind.declaredName? below)
        (place.kind.declaredName?.map place.misplaced).toList after := by
  obtain ⟨own, _, _, -, found, -, -, same⟩ := tidy.sound.exists_node_of_place rootFound member
  have kind : place.kind = own.kind := congrArg Place.kind same
  obtain ⟨parent, _, parentKnown, kindKnown, above, -⟩ :=
    tidy.sound.parent_of_place rootFound member
  unfold atDefinition
  rw [bind_ok document_ok, kind?_of_find? found, Option.bind_some, ← kind]
  cases defines : place.kind.definition? with
  | none =>
      have plain : place.kind.declaredName? = none := by rw [Kind.declaredName?, defines]; rfl
      rw [Place.refused_of_none plain, plain]
      exact ⟨pass, rfl, answered_self tidy rootFound⟩
  | some definition =>
      obtain ⟨name, value⟩ := definition
      have declares : place.kind.declaredName? = some name := by
        rw [Kind.declaredName?, defines]
        rfl
      obtain ⟨after, ran, answered⟩ :=
        acceptScope_refused tidy rootFound member name kindKnown above elsewhere
      rw [Place.refused_of_some declares, declares]
      exact ⟨after, (bind_ok (ask_ok parentKnown)).trans (bind_ok ran), answered⟩

theorem refuse_declaration (tidy : pass.Tidy [] [])
    (rootFound : pass.document.find? pass.document.root = some (rootItem, below))
    (member : place ∈ below.places [.root]) (elsewhere : ¬ place.Accepted) :
    ∃ after, collectDeclaration place.id pass = .ok () after ∧
      Answered pass rootItem (place.refused Kind.declaredName? below)
        (place.kind.declaredName?.map place.misplaced).toList after :=
  refuse_definition tidy rootFound member elsewhere

/-- A declaration that defines no set is left. -/
theorem atDefinition_idle (plain : (pass.document.kind? id).bind Kind.definition? = none) :
    atDefinition id take pass = .ok () pass := by
  unfold atDefinition
  rw [bind_ok document_ok, plain]
  rfl

theorem atDefinition_plain (tidy : pass.Tidy [] [])
    (rootFound : pass.document.find? pass.document.root = some (rootItem, below))
    (member : place ∈ below.places [.root]) (plain : place.kind.definition? = none) :
    atDefinition place.id take pass = .ok () pass := by
  obtain ⟨own, _, _, -, found, -, -, same⟩ := tidy.sound.exists_node_of_place rootFound member
  have kind : place.kind = own.kind := congrArg Place.kind same
  exact atDefinition_idle (by rw [kind?_of_find? found, Option.bind_some, ← kind, plain])

/-- A declaration in a rule for the document root is taken out of that rule. -/
theorem accept_definition (tidy : pass.Tidy [] [])
    (rootFound : pass.document.find? pass.document.root = some (rootItem, below))
    (member : place ∈ below.places [.root]) (accepted : place.Accepted) {name value : String}
    (defines : place.kind.definition? = some (name, value)) :
    ∃ scope item own front inner back,
      below.find? scope = some (item, front ++ .cons ⟨place.id, own⟩ inner back) ∧
      item.kind = .rule rootSelector ∧
      pass.document.Scoped rootItem below scope item (front ++ .cons ⟨place.id, own⟩ inner back) ∧
      ∀ take, atDefinition place.id take pass = take name value scope place.source pass := by
  obtain ⟨own, inner, path, inside, found, -, -, same⟩ :=
    tidy.sound.exists_node_of_place rootFound member
  have kind : place.kind = own.kind := congrArg Place.kind same
  have source : place.source = own.source := congrArg Place.source same
  obtain ⟨parent, parentKind, parentKnown, kindKnown, above, standing⟩ :=
    tidy.sound.parent_of_place rootFound member
  obtain rfl := (Place.accepted_iff above).mp accepted
  rcases standing with ⟨isRoot, -⟩ | ⟨item, children, scopeFound, isScope, -, child⟩
  · cases isRoot
  obtain ⟨front, own', inner', back, rfl⟩ := Forest.exists_split child
  refine ⟨parent, item, own', front, inner', back, scopeFound, isScope,
    Scoped.start tidy.sound rootFound scopeFound (by rw [isScope]; rfl), fun take => ?_⟩
  unfold atDefinition
  rw [bind_ok document_ok, kind?_of_find? found, Option.bind_some, ← kind, defines]
  simp only
  rw [bind_ok (ask_ok parentKnown)]
  simp only
  rw [bind_ok (acceptScope_accepted name kindKnown)]
  simp only [if_true]
  rw [bind_ok (source_ok found), ← source]

/-- A rule elsewhere is reported if it defines a set, and goes if it stands in the root. -/
theorem refuse_rule (tidy : pass.Tidy [] [])
    (rootFound : pass.document.find? pass.document.root = some (rootItem, below))
    (member : place ∈ below.places [.root]) (elsewhere : ¬ place.Accepted) :
    ∃ after, collectRule place.id pass = .ok () after ∧
      Answered pass rootItem (place.refused Kind.ruleName? below)
        (place.kind.ruleName?.map place.misplaced).toList after := by
  obtain ⟨own, _, _, -, found, -, -, same⟩ := tidy.sound.exists_node_of_place rootFound member
  have kind : place.kind = own.kind := congrArg Place.kind same
  obtain ⟨parent, _, parentKnown, kindKnown, above, -⟩ :=
    tidy.sound.parent_of_place rootFound member
  unfold collectRule
  rw [bind_ok document_ok, kind?_of_find? found, ← kind]
  have idle (plain : place.kind.ruleName? = none) :
      Answered pass rootItem (place.refused Kind.ruleName? below)
        (place.kind.ruleName?.map place.misplaced).toList pass := by
    rw [Place.refused_of_none plain, plain]
    exact answered_self tidy rootFound
  cases shape : place.kind with
  | rule selector =>
      have ruleName : place.kind.ruleName? = setName? selector := by rw [shape]; rfl
      cases named : setName? selector with
      | none => exact ⟨pass, by simp only [named]; rfl, shape ▸ idle (ruleName.trans named)⟩
      | some name =>
          obtain ⟨after, ran, answered⟩ :=
            acceptScope_refused tidy rootFound member name kindKnown above elsewhere
          have defines : (Kind.rule selector).ruleName? = some name := named
          rw [Place.refused_of_some (ruleName.trans named), defines]
          simp only [named]
          exact ⟨after, (bind_ok (ask_ok parentKnown)).trans (bind_ok ran), answered⟩
  | _ => exact ⟨pass, rfl, shape ▸ idle (by rw [shape]; rfl)⟩

theorem Grown.registers (grown : Grown pass after) (tidy : pass.Tidy sets items) :
    Registers pass [] after := by
  refine ⟨by rw [grown.registry]; rfl, ?_⟩
  refine Pass.Tidy.sets_congr grown.registry fun set member => grown.found set ?_
  exact tidy.sound.mem_ids (Pass.Tidy.mem_tops
    (List.mem_append_left _ (List.mem_append_left _ member)))

/-- What was made of a definition's value finds its place. -/
theorem collected_giveWay {front back inner : Forest Node} {own : Item} {expansion : Expansion}
    {entries : List (String × NodeId)} {ids : List NodeId}
    (tidy : pass.Tidy (entries.map Prod.snd) ids)
    (held : pass.document.Scoped rootItem below scope item (front ++ .cons ⟨id, own⟩ inner back))
    (carriedSets : List.Forall₂ (fun set entry => entry.1 = set.name ∧
      pass.document.Carries entry.2 set.item set.children) expansion.sets entries)
    (carriedItems : List.Forall₂ (fun tree id => pass.document.Carries id tree.1 tree.2)
      expansion.items.trees ids) :
    ∃ after more, giveWay id scope entries ids pass = .ok () after ∧
      more.items =
        expansion.items.unmatched (front.uncommented ++ .cons ⟨id, own⟩ inner back).kinds ∧
      Collected pass rootItem
        (Forest.settled scope item (front.uncommented ++ (more ++ back)) below) expansion.sets []
        after := by
  obtain ⟨first, ranComment, tidyComment, heldComment, keptComment⟩ :=
    removeCommentBefore_scope tidy held
  have waiting : ∀ entry ∈ entries, entry.2 ∈ entries.map Prod.snd ++ ids := fun entry member =>
    List.mem_append_left _ (List.mem_map_of_mem member)
  rw [← List.append_nil (entries.map Prod.snd)] at tidyComment
  obtain ⟨second, ranStores, tidyStores, registers, options, warnings, root, trees⟩ :=
    tidy_stores expansion.sets tidyComment
      (forall₂_of_mem carriedSets fun set entry member holds =>
        ⟨holds.1, keptComment.carries (waiting entry member) holds.2⟩)
  obtain ⟨third, more, ranInsert, tidyInsert, same, heldInsert, keptInsert⟩ :=
    insertAllAfter_scope expansion.items tidyStores
      (heldComment.transfer root (trees _ List.mem_cons_self))
      (forall₂_of_mem carriedItems fun tree id member carries => by
        obtain ⟨children, found, items⟩ :=
          keptComment.carries (List.mem_append_right _ member) carries
        exact ⟨children, (trees id (List.mem_cons_of_mem _ member)).trans found, items⟩)
  have child : id ∈ (front.uncommented ++ .cons ⟨id, own⟩ inner (more ++ back)).ids := by simp
  obtain ⟨fourth, ranRemove, tidyRemove, heldRemove, keptRemove⟩ :=
    remove_child tidyInsert heldInsert child
  rw [Forest.replace_split (heldInsert.nodup tidyInsert.sound), Forest.nil_append] at heldRemove
  obtain ⟨after, ranSettle, done, under, keptSettle⟩ := settleScope_scope tidyRemove heldRemove
  refine ⟨after, more, ?_, same, done, ?_, ?_, ?_, ?_, under⟩
  · refine (bind_ok ranComment).trans ((bind_ok ranStores).trans ?_)
    exact (bind_ok ranInsert).trans ((bind_ok ranRemove).trans ranSettle)
  · rw [keptSettle.options, keptRemove.options, keptInsert.options, options, keptComment.options]
  · have later := keptInsert.registers.trans (keptRemove.registers.trans keptSettle.registers)
    simpa using (keptComment.registers.trans registers).trans later
  · rw [keptSettle.warnings, keptRemove.warnings, keptInsert.warnings, warnings,
      keptComment.warnings, List.append_nil]
  · rw [keptSettle.root, keptRemove.root, keptInsert.root, root, keptComment.root]

/-- All that a definition expands to finds its place. -/
theorem collected_expansion {front back inner : Forest Node} {own : Item} {expansion : Expansion}
    (tidy : pass.Tidy [] [])
    (held : pass.document.Scoped rootItem below scope item (front ++ .cons ⟨id, own⟩ inner back))
    (proper : expansion.Proper) :
    ∃ after more, (do
        let sets ← expansion.sets.mapM fun set => do
          return (set.name, ← plantSet set)
        let items ← expansion.items.trees.mapM fun (item, children) =>
          edit (Edit.plant item children)
        giveWay id scope sets items) pass = .ok () after ∧
      more.items =
        expansion.items.unmatched (front.uncommented ++ .cons ⟨id, own⟩ inner back).kinds ∧
      Collected pass rootItem
        (Forest.settled scope item (front.uncommented ++ (more ++ back)) below) expansion.sets []
        after := by
  obtain ⟨entries, first, ranSets, tidySets, grownSets, carriedSets⟩ :=
    tidy_plantSets _ tidy proper.sets
  obtain ⟨ids, second, ranItems, tidyItems, grownItems, carriedItems⟩ := tidy_plantItems
    expansion.items.trees tidySets fun tree member => proper.items.of_mem_trees member
  have grown := grownSets.trans grownItems
  obtain ⟨after, more, ran, same, collected⟩ := collected_giveWay tidyItems
    (held.transfer grown.root (grown.found _ (Forest.mem_ids_of_find? held.under)))
    (carriedSets.imp fun _ _ => And.imp_right grownItems.carries) carriedItems
  refine ⟨after, more, (bind_ok ranSets).trans ((bind_ok ranItems).trans ran), same,
    collected.tidy, collected.options.trans grown.options, ?_, ?_,
    collected.root.trans grown.root, collected.under⟩
  · exact (grown.registers tidy).trans collected.registers
  · rw [collected.warnings, grown.warnings]

/-- What becomes of a declaration under the root: the forest that is left there, and
the sets that are registered. -/
inductive Declared (below : Forest Node) (place : Place) : Forest Node → List SetRule → Prop where
  | idle (plain : place.Topmost → place.kind.definition? = none) (unread : place.expansion? = none) :
      Declared below place below []
  | dropped (top : place.Topmost) (defines : place.kind.definition?.isSome = true) :
      Declared below place (below.without place.id) []
  | taken {expansion : Expansion} {scope : NodeId} {item own : Item}
      {front inner back more : Forest Node} (read : place.expansion? = some expansion)
      (found : below.find? scope = some (item, front ++ .cons ⟨place.id, own⟩ inner back))
      (isScope : item.kind = .rule rootSelector)
      (new : more.items = expansion.items.unmatched
        (front.uncommented ++ .cons ⟨place.id, own⟩ inner back).kinds) :
      Declared below place
        (Forest.settled scope item (front.uncommented ++ (more ++ back)) below) expansion.sets

/-- **One declaration.**  It is taken out, reported or left, as its place says. -/
theorem collect_declaration (tidy : pass.Tidy [] [])
    (rootFound : pass.document.find? pass.document.root = some (rootItem, below))
    (member : place ∈ below.places [.root]) :
    ∃ left stored raised after, collectDeclaration place.id pass = .ok () after ∧
      Declared below place left stored ∧ Collected pass rootItem left stored raised after := by
  by_cases accepted : place.Accepted
  swap
  · obtain ⟨after, ran, answered⟩ := refuse_declaration tidy rootFound member accepted
    refine ⟨_, [], _, after, ran, ?_, answered.collected⟩
    rw [Place.refused, Kind.declaredName?, Option.isSome_map]
    split
    · rename_i goes
      exact .dropped goes.1 goes.2
    · rename_i stays
      refine .idle (fun top => ?_) ?_
      · exact Option.not_isSome_iff_eq_none.mp fun defines => stays ⟨top, defines⟩
      · rw [Place.expansion?]
        split
        · rfl
        · exact if_neg accepted
  rw [collectDeclaration_eq]
  cases defines : place.kind.definition? with
  | none =>
      refine ⟨below, [], [], pass, atDefinition_plain tidy rootFound member defines,
        .idle (fun _ => defines) ?_, (answered_self tidy rootFound).collected⟩
      rw [Place.expansion?, defines]
  | some definition =>
      obtain ⟨name, value⟩ := definition
      have read : place.expansion? = (expand place.source name value).toOption := by
        rw [Place.expansion?, defines]
        exact if_pos accepted
      have notTop : place.Topmost → place.kind.definition? = none := fun top => by
        cases top.symm.trans accepted
      obtain ⟨scope, item, own, front, inner, back, scopeFound, isScope, held, taken⟩ :=
        accept_definition tidy rootFound member accepted defines
      rw [taken]
      cases expanded : expand place.source name value with
      | error error =>
          rw [expanded] at read
          exact ⟨below, [], _, _, warn_ok _ _, .idle notTop read,
            (answered_warn tidy rootFound _).collected⟩
      | ok expansion =>
          rw [expanded] at read
          obtain ⟨after, more, ran, new, collected⟩ :=
            collected_expansion tidy held (proper_expand expanded)
          exact ⟨_, _, _, after, ran, .taken read scopeFound isScope new, collected⟩

/-- What becomes of a rule under the root. -/
inductive Ruled (preserve : Bool) (below : Forest Node) (place : Place) :
    Forest Node → List SetRule → Prop where
  | idle (plain : place.Topmost ∨ place.Accepted → place.kind.ruleName? = none) :
      Ruled preserve below place below []
  | dropped (top : place.Topmost) (defines : place.kind.ruleName?.isSome = true) :
      Ruled preserve below place (below.without place.id) []
  | copied {name : String} {own : Item} {inner : Forest Node} (accepted : place.Accepted)
      (defines : place.kind.ruleName? = some name) (stays : preserve = true)
      (found : below.find? place.id = some (own, inner)) :
      Ruled preserve below place below [⟨name, own, inner.items⟩]
  | taken {name : String} {scope : NodeId} {item own : Item} {front inner back : Forest Node}
      (accepted : place.Accepted) (defines : place.kind.ruleName? = some name)
      (goes : preserve = false)
      (found : below.find? scope = some (item, front ++ .cons ⟨place.id, own⟩ inner back))
      (isScope : item.kind = .rule rootSelector) :
      Ruled preserve below place
        (Forest.settled scope item (front.uncommented ++ back) below) [⟨name, own, inner.items⟩]

/-- A rule that was copied and registered goes, and its scope is put in order. -/
theorem collected_rule {front back inner : Forest Node} {own : Item} (tidy : pass.Tidy [] [])
    (held : pass.document.Scoped rootItem below scope item
      (front ++ .cons ⟨id, own⟩ inner back)) :
    ∃ after, (do
        removeCommentBefore id
        edit (Edit.remove id)
        settleScope scope) pass = .ok () after ∧
      Collected pass rootItem (Forest.settled scope item (front.uncommented ++ back) below) [] []
        after := by
  obtain ⟨first, ranComment, tidyComment, heldComment, keptComment⟩ :=
    removeCommentBefore_scope tidy held
  have child : id ∈ (front.uncommented ++ .cons ⟨id, own⟩ inner back).ids := by simp
  obtain ⟨second, ranRemove, tidyRemove, heldRemove, keptRemove⟩ :=
    remove_child tidyComment heldComment child
  rw [Forest.replace_split (heldComment.nodup tidyComment.sound), Forest.nil_append] at heldRemove
  obtain ⟨after, ranSettle, done, under, keptSettle⟩ := settleScope_scope tidyRemove heldRemove
  refine ⟨after, ?_, done, ?_, ?_, ?_, ?_, under⟩
  · exact (bind_ok ranComment).trans ((bind_ok ranRemove).trans ranSettle)
  · rw [keptSettle.options, keptRemove.options, keptComment.options]
  · exact (keptComment.registers.trans keptRemove.registers).trans keptSettle.registers
  · rw [keptSettle.warnings, keptRemove.warnings, keptComment.warnings, List.append_nil]
  · rw [keptSettle.root, keptRemove.root, keptComment.root]

/-- The copy of a rule is planted and registered, and the tree under the root stays. -/
theorem collected_copy {own : Item} {inner : Forest Node} (name : String) (tidy : pass.Tidy [] [])
    (rootFound : pass.document.find? pass.document.root = some (rootItem, below))
    (inside : below.find? id = some (own, inner)) (isRule : own.kind.isRule = true) :
    ∃ new planted after, edit (Edit.copy id) pass = .ok new planted ∧
      store name new planted = .ok () after ∧
      Collected pass rootItem below [⟨name, own, inner.items⟩] [] after := by
  have within := Forest.mem_ids_of_find? inside
  have found := (Forest.find?_eq_find? tidy.sound.nodup rootFound within).trans inside
  have notRoot : id ≠ pass.document.root := fun eq =>
    (Forest.nodup_below tidy.sound.nodup rootFound).1 (eq ▸ within)
  have proper : (⟨name, own, inner.items⟩ : SetRule).Proper :=
    ⟨isRule, tidy.sound.proper_below found notRoot⟩
  obtain ⟨new, planted, ranPlant, tidyPlant, grown, carries⟩ := tidy_plantSet tidy proper
  have copy : Edit.copy id pass.document = Edit.plant own inner.items pass.document :=
    (bind_ok (Edit.ask_ok found)).trans rfl
  have copied : edit (Edit.copy id) pass = .ok new planted := by
    rw [← ranPlant, plantSet, edit, edit, copy]
  obtain ⟨after, ranStore, tidyStore, stores⟩ := tidy_store name tidyPlant
  have under : after.document.find? after.document.root = some (rootItem, below) := by
    rw [stores.root, stores.trees _ List.mem_cons_self, grown.root,
      grown.found _ (Forest.mem_ids_of_find? rootFound), rootFound]
  refine ⟨new, planted, after, copied, ranStore, tidyStore, stores.options.trans grown.options,
    (grown.registers tidy).trans (registers_stored stores carries), ?_,
    stores.root.trans grown.root, under⟩
  rw [stores.warnings, grown.warnings, List.append_nil]

/-- **One rule.**  It is registered and taken out or left, or only reported or left, as
its place says. -/
theorem collect_rule (tidy : pass.Tidy [] [])
    (rootFound : pass.document.find? pass.document.root = some (rootItem, below))
    (member : place ∈ below.places [.root]) :
    ∃ left stored raised after, collectRule place.id pass = .ok () after ∧
      Ruled pass.options.preserve below place left stored ∧
      Collected pass rootItem left stored raised after := by
  by_cases accepted : place.Accepted
  swap
  · obtain ⟨after, ran, answered⟩ := refuse_rule tidy rootFound member accepted
    refine ⟨_, [], _, after, ran, ?_, answered.collected⟩
    rw [Place.refused]
    split
    · rename_i goes
      exact .dropped goes.1 goes.2
    · rename_i stays
      refine .idle fun stands => ?_
      have top := stands.resolve_right accepted
      exact Option.not_isSome_iff_eq_none.mp fun defines => stays ⟨top, defines⟩
  have self := (answered_self tidy rootFound).collected
  obtain ⟨own, inner, path, inside, found, -, -, same⟩ :=
    tidy.sound.exists_node_of_place rootFound member
  have kind : place.kind = own.kind := congrArg Place.kind same
  obtain ⟨parent, parentKind, parentKnown, kindKnown, above, standing⟩ :=
    tidy.sound.parent_of_place rootFound member
  obtain rfl := (Place.accepted_iff above).mp accepted
  unfold collectRule
  rw [bind_ok document_ok, kind?_of_find? found, ← kind]
  cases shape : place.kind with
  | rule selector =>
      simp only
      have ruleName : place.kind.ruleName? = setName? selector := by rw [shape]; rfl
      cases named : setName? selector with
      | none => exact ⟨below, [], [], pass, rfl, .idle fun _ => ruleName.trans named, self⟩
      | some name =>
          rw [named] at ruleName
          simp only
          rw [bind_ok (ask_ok parentKnown)]
          simp only
          rw [bind_ok (acceptScope_accepted name kindKnown)]
          simp only [if_true]
          rcases standing with ⟨isRoot, -⟩ | ⟨item, children, scopeFound, isScope, -, child⟩
          · cases isRoot
          obtain ⟨new, planted, registered, copied, ranStore, registers⟩ :=
            collected_copy name tidy rootFound inside (by rw [← kind, shape]; rfl)
          rw [bind_ok copied, bind_ok ranStore, bind_ok get_ok, registers.options]
          cases preserve : pass.options.preserve with
          | true =>
              exact ⟨below, _, [], registered, rfl, .copied above ruleName rfl inside, registers⟩
          | false =>
              obtain ⟨front, own', inner', back, rfl⟩ := Forest.exists_split child
              have nodup := (Forest.nodup_below tidy.sound.nodup rootFound).2
              have childFound : below.find? place.id = some (own', inner') :=
                (Forest.find?_eq_find? nodup scopeFound
                  (Forest.mem_ids_of_mem_tops child)).trans
                  (Forest.find?_split (Forest.nodup_below nodup scopeFound).2)
              rw [inside] at childFound
              cases childFound
              have held := Scoped.start registers.tidy.sound registers.under scopeFound
                (by rw [isScope]; rfl)
              obtain ⟨after, ran, collected⟩ := collected_rule registers.tidy held
              exact ⟨_, _, _, after, ran, .taken above ruleName rfl scopeFound isScope,
                registers.trans collected⟩
  | _ => exact ⟨below, [], [], pass, rfl, .idle fun _ => by rw [shape]; rfl, self⟩

/-! ## Any node -/

/-- A round of a loop over attached nodes: the node is there, or it is gone and
nothing happens. -/
theorem round_attached (tidy : pass.Tidy [] [])
    (rootFound : pass.document.find? pass.document.root = some (rootItem, below))
    {step : NodeId → Step Unit} {goal : Pass → Prop}
    (onRoot : step pass.document.root pass = .ok () pass)
    (alive : id ∈ below.ids → ∃ after, step id pass = .ok () after ∧ goal after)
    (gone : id ∉ below.ids → goal pass) :
    ∃ after, (do if (← document).isAttached id then step id) pass = .ok () after ∧ goal after := by
  rw [bind_ok document_ok]
  by_cases within : id ∈ below.ids
  · rw [if_pos ((tidy.sound.isAttached_iff rootFound).mpr (.inr within))]
    exact alive within
  · refine ⟨pass, ?_, gone within⟩
    split
    · rename_i attached
      rw [((tidy.sound.isAttached_iff rootFound).mp attached).resolve_right within]
      exact onRoot
    · rfl

/-- A node that is there is visited, and then the others are. -/
theorem visit_attached {step : NodeId → Step Unit} {todo : List NodeId} (tidy : pass.Tidy [] [])
    (rootFound : pass.document.find? pass.document.root = some (rootItem, below))
    (within : id ∈ below.ids) (ran : step id pass = .ok () mid) :
    forAttached (id :: todo) step pass = forAttached todo step mid := by
  refine bind_ok (?_ : (do if (← document).isAttached id then step id) pass = .ok () mid)
  rw [bind_ok document_ok, if_pos ((tidy.sound.isAttached_iff rootFound).mpr (.inr within))]
  exact ran

/-- What every round keeps is kept by a loop. -/
theorem loop_attached {step : NodeId → Step Unit} (keeps : List NodeId → Pass → Prop)
    (round : ∀ id todo pass, keeps (id :: todo) pass → ∃ after,
      (do if (← document).isAttached id then step id) pass = .ok () after ∧ keeps todo after)
    {todo : List NodeId} (start : keeps todo pass) :
    ∃ after, forAttached todo step pass = .ok () after ∧ keeps [] after := by
  induction todo generalizing pass with
  | nil => exact ⟨pass, rfl, start⟩
  | cons id rest ih =>
      obtain ⟨mid, ran, kept⟩ := round id rest pass start
      obtain ⟨after, ranRest, done⟩ := ih kept
      exact ⟨after, (bind_ok ran).trans ranRest, done⟩

theorem forAttached_append {step : NodeId → Step Unit} {first second : List NodeId}
    (ran : forAttached first step pass = .ok () mid)
    (ranMore : forAttached second step mid = .ok () after) :
    forAttached (first ++ second) step pass = .ok () after := by
  induction first generalizing pass with
  | nil =>
      cases ran
      exact ranMore
  | cons id others ih =>
      obtain ⟨_, next, one, more⟩ := exists_of_bind_ok ran
      exact (bind_ok one).trans (ih more)

/-- The root is no definition. -/
theorem collect_root (tidy : pass.Tidy [] []) :
    collectDeclaration pass.document.root pass = .ok () pass ∧
      collectRule pass.document.root pass = .ok () pass := by
  obtain ⟨rootItem, below, rootFound, kind⟩ := tidy.sound.root
  have known : pass.document.kind? pass.document.root = some .root := by
    rw [kind?_of_find? rootFound, kind]
  constructor
  · unfold collectDeclaration
    rw [bind_ok document_ok, known]
    rfl
  · unfold collectRule
    rw [bind_ok document_ok, known]
    rfl

/-- Visits that change nothing under the root, one after the other.  The nodes are in
calm places, or gone. -/
theorem visits_calm {step : NodeId → Step Unit} {calm : Place → Prop}
    (onRoot : ∀ pass : Pass, pass.Tidy [] [] → step pass.document.root pass = .ok () pass)
    (visit : ∀ (pass : Pass) (place : Place), pass.Tidy [] [] →
      pass.document.find? pass.document.root = some (rootItem, below) →
      place ∈ below.places [.root] → calm place →
      ∃ raised after, step place.id pass = .ok () after ∧
        Collected pass rootItem below [] raised after)
    (tidy : pass.Tidy [] [])
    (rootFound : pass.document.find? pass.document.root = some (rootItem, below))
    {todo : List NodeId}
    (calms : ∀ place ∈ below.places [.root], place.id ∈ todo → calm place) :
    ∃ raised after, forAttached todo step pass = .ok () after ∧
      Collected pass rootItem below [] raised after := by
  obtain ⟨after, ran, raised, collected, -⟩ := loop_attached
    (fun todo mid => ∃ raised, Collected pass rootItem below [] raised mid ∧
      ∀ place ∈ below.places [.root], place.id ∈ todo → calm place)
    (fun id todo mid ⟨raised, collected, calms⟩ => by
      have later : ∀ place ∈ below.places [.root], place.id ∈ todo → calm place :=
        fun place member waits => calms place member (List.mem_cons_of_mem _ waits)
      refine round_attached collected.tidy collected.under (onRoot mid collected.tidy)
        (fun alive => ?_) fun _ => ⟨raised, collected, later⟩
      obtain ⟨place, member, rfl⟩ : ∃ place ∈ below.places [.root], place.id = id :=
        Forest.exists_place alive
      obtain ⟨new, after, ran, more⟩ := visit mid place collected.tidy collected.under member
        (calms place member List.mem_cons_self)
      exact ⟨after, ran, raised ++ new, collected.trans more, later⟩)
    ⟨[], (answered_self tidy rootFound).collected, calms⟩
  exact ⟨raised, after, ran, collected⟩

/-- Where a definition that is accepted leaves a tidy pass, so does any attached node. -/
theorem tidy_atDefinition (tidy : pass.Tidy [] [])
    (attached : pass.document.isAttached id = true)
    (each : ∀ {rootItem item own : Item} {below front inner back : Forest Node} {scope : NodeId},
      pass.document.Scoped rootItem below scope item (front ++ .cons ⟨id, own⟩ inner back) →
        ∀ name value source, ∃ after, take name value scope source pass = .ok () after ∧
          after.Tidy [] []) :
    ∃ after, atDefinition id take pass = .ok () after ∧ after.Tidy [] [] := by
  obtain ⟨rootItem, below, rootFound, kind⟩ := tidy.sound.root
  rcases (tidy.sound.isAttached_iff rootFound).mp attached with rfl | within
  · refine ⟨pass, atDefinition_idle ?_, tidy⟩
    rw [kind?_of_find? rootFound, kind]
    rfl
  obtain ⟨place, member, rfl⟩ : ∃ place ∈ below.places [.root], place.id = id :=
    Forest.exists_place within
  by_cases accepted : place.Accepted
  swap
  · obtain ⟨after, ran, answered⟩ := refuse_definition tidy rootFound member accepted
    exact ⟨after, ran, answered.tidy⟩
  cases defines : place.kind.definition? with
  | none => exact ⟨pass, atDefinition_plain tidy rootFound member defines, tidy⟩
  | some definition =>
      obtain ⟨scope, item, own, front, inner, back, -, -, held, taken⟩ :=
        accept_definition tidy rootFound member accepted defines
      rw [taken]
      exact each held _ _ _

theorem tidy_collectDeclaration (tidy : pass.Tidy [] [])
    (attached : pass.document.isAttached id = true) :
    ∃ after, collectDeclaration id pass = .ok () after ∧ after.Tidy [] [] := by
  obtain ⟨rootItem, below, rootFound, -⟩ := tidy.sound.root
  rcases (tidy.sound.isAttached_iff rootFound).mp attached with rfl | within
  · exact ⟨pass, (collect_root tidy).1, tidy⟩
  · obtain ⟨place, member, rfl⟩ : ∃ place ∈ below.places [.root], place.id = id :=
      Forest.exists_place within
    obtain ⟨_, _, _, after, ran, -, collected⟩ := collect_declaration tidy rootFound member
    exact ⟨after, ran, collected.tidy⟩

theorem tidy_collectRule (tidy : pass.Tidy [] [])
    (attached : pass.document.isAttached id = true) :
    ∃ after, collectRule id pass = .ok () after ∧ after.Tidy [] [] := by
  obtain ⟨rootItem, below, rootFound, -⟩ := tidy.sound.root
  rcases (tidy.sound.isAttached_iff rootFound).mp attached with rfl | within
  · exact ⟨pass, (collect_root tidy).2, tidy⟩
  · obtain ⟨place, member, rfl⟩ : ∃ place ∈ below.places [.root], place.id = id :=
      Forest.exists_place within
    obtain ⟨_, _, _, after, ran, -, collected⟩ := collect_rule tidy rootFound member
    exact ⟨after, ran, collected.tidy⟩

/-! ## Whole steps -/

/-- Why a step was refused, and what it left: only what the options give is
refused, and the pass is tidy then too. -/
def Refused (error : Error) (after : Pass) : Prop :=
  (∀ cause, error ≠ .tree cause) ∧ after.Tidy [] []

/-- A step that keeps a pass tidy, whether it succeeds or is refused. -/
def Keeps (step : Step Unit) (pass : Pass) : Prop :=
  Outcome step pass (fun _ after => after.Tidy [] []) Refused

variable {failed : Error → Pass → Prop}

theorem keeps_of_ok {step : Step Unit}
    (ran : ∃ after, step pass = .ok () after ∧ after.Tidy [] []) :
    Outcome step pass (fun _ after => after.Tidy [] []) failed := by
  obtain ⟨after, eq, tidy⟩ := ran
  exact .of_ok eq tidy

/-- Steps on attached nodes, one after the other. -/
theorem keeps_forAttached {step : NodeId → Step Unit} (ids : List NodeId)
    (each : ∀ id pass, pass.Tidy [] [] → pass.document.isAttached id = true →
      Outcome (step id) pass (fun _ after => after.Tidy [] []) failed) (tidy : pass.Tidy [] []) :
    Outcome (forAttached ids step) pass (fun _ after => after.Tidy [] []) failed := by
  refine .forM tidy fun id _ pass tidy => ?_
  refine .bind_of_ok document_ok ?_
  split
  · rename_i attached
    exact each id pass tidy attached
  · exact .pure tidy

/-- The nodes of a class under the root, as a loop lists them. -/
theorem underRoot_places
    (rootFound : pass.document.find? pass.document.root = some (rootItem, below)) (p : Kind → Bool) :
    underRoot p pass = .ok ((below.placesOf p [.root]).map Place.id) pass := by
  have asked : pass.document.select? p pass.document.root =
      some ((below.placesOf p [.root]).map Place.id) := by
    rw [Forest.map_id_placesOf, select?, below?, rootFound]
    rfl
  exact (bind_ok document_ok).trans (ask_ok asked)

theorem keeps_extractDeclarations (tidy : pass.Tidy [] []) :
    Outcome extractDeclarations pass (fun _ after => after.Tidy [] []) failed := by
  obtain ⟨rootItem, below, rootFound, -⟩ := tidy.sound.root
  refine .bind_of_ok (underRoot_places rootFound Kind.isDeclaration) ?_
  exact keeps_forAttached _ (fun id pass tidy attached =>
    keeps_of_ok (tidy_collectDeclaration tidy attached)) tidy

theorem keeps_extractRules (tidy : pass.Tidy [] []) :
    Outcome extractRules pass (fun _ after => after.Tidy [] []) failed := by
  obtain ⟨rootItem, below, rootFound, -⟩ := tidy.sound.root
  refine .bind_of_ok (underRoot_places rootFound Kind.isRule) ?_
  exact keeps_forAttached _ (fun id pass tidy attached =>
    keeps_of_ok (tidy_collectRule tidy attached)) tidy

end Step

end ApplyRule
