/-
# ApplyRule.Proofs.Misplaced -- definitions where none is a scope

Where no rule is a rule for the document root, every definition is misplaced: it is
reported, and goes with all below it if it is a child of the root.  The loops list their
nodes before anything goes, first the declarations and then the rules.  So a declaration is
reported wherever it stands, and a rule unless it stands below a child of the root that is
itself a definition in the form of a rule, and is gone by then (`Place.misplaced?`).

A loop is followed child by child (`Refuses.sweep`).  What was kept of the children comes
first, and the text before the first of them is the text that was there first.  A child
that stays has all its nodes visited and none of them changed; of a child that goes, the
other nodes are passed over.

So nothing is registered, and the tree is the old one without those of the root's children
that are definitions (`extract_misplaced`).
-/
import ApplyRule.Proofs.Idempotence

namespace ApplyRule

set_option autoImplicit false

open Document

/-! ## What is reported, and what stays -/

/-- A definition in the form of a declaration holds nothing, and is no rule. -/
theorem Kind.leaf_of_declares (kind : Kind) (declares : kind.declaredName?.isSome = true) :
    kind.isContainer = false ∧ kind.ruleName? = none := by
  cases kind with
  | declaration property value => exact ⟨rfl, rfl⟩
  | _ => cases declares

namespace Place

/-- The kind of the child of the root that a node stands below. -/
def top? (place : Place) : Option Kind :=
  place.above.dropLast.getLast?

/-- What is reported of a place when all that stands below a definition at the top goes with
it.  Which kinds define a set is told by `named`. -/
def misplaced? (named : Kind → Option String) (place : Place) : Option Warning :=
  if (place.top?.bind named).isSome then none else (named place.kind).map place.misplaced

end Place

namespace Forest

/-- The trees whose tops are kept, each with all below it. -/
def keep (p : Kind → Bool) : Forest Node → Forest Node
  | .nil => .nil
  | .cons node children rest =>
      if p node.item.kind then .cons node children (rest.keep p) else rest.keep p

/-- The text before the first tree. -/
def lead (forest : Forest Node) : String :=
  (forest.roots.head?.map (·.item.raws.before)).getD ""

/-- The children of a root without those that are definitions; the text before the first of
them stays first. -/
def withoutDefinitions (forest : Forest Node) : Forest Node :=
  (forest.keep fun kind => kind.declaredName?.isNone && kind.ruleName?.isNone).mapFirst
    (Node.precede forest.lead)

/-- What is reported where no rule is a rule for the document root: all declarations that are
definitions, and then the rules. -/
def misplaced (forest : Forest Node) : List Warning :=
  ((forest.places [.root]).filterMap fun place =>
      place.kind.declaredName?.map place.misplaced) ++
    (forest.places [.root]).filterMap (Place.misplaced? Kind.ruleName?)

variable {forest children rest : Forest Node} {place : Place} {p : Kind → Bool}
  {above : List Kind}

theorem mapFirst_lead (forest : Forest Node) :
    forest.mapFirst (Node.precede forest.lead) = forest := by
  cases forest <;> rfl

theorem ids_mapFirst_precede (text : String) (forest : Forest Node) :
    (forest.mapFirst (Node.precede text)).ids = forest.ids := by
  cases forest <;> rfl

/-- A child that goes leaves its text, if it is the first, which is the same for all. -/
theorem without_mapFirst (text : String) (id : NodeId) (forest : Forest Node) :
    (forest.mapFirst (Node.precede text)).without id =
      (replace id .nil forest).mapFirst (Node.precede text) := by
  cases forest with
  | nil => rfl
  | cons first children rest =>
      show (replace id .nil (.cons (first.precede text) children rest)).mapFirst _ = _
      rw [replace, replace]
      show (if first.id = id then _ else _ : Forest Node).mapFirst _ = _
      split <;> rfl

/-- What stands below a node stands nowhere else. -/
theorem not_mem_ids_beside {front inner back : Forest Node} {node : Node} {id : NodeId}
    (nodup : (front ++ .cons node inner back).ids.Nodup) (inside : id ∈ inner.ids) :
    id ∉ (front ++ back).ids := by
  rw [ids_append] at nodup
  obtain ⟨-, nodupHere, apart⟩ := List.nodup_append'.mp nodup
  rw [ids_cons] at apart
  rw [ids_append, List.mem_append, not_or]
  exact ⟨fun before => apart before (List.mem_cons_of_mem _ (List.mem_append_left _ inside)),
    fun after => (nodup_parts nodupHere).2.2.2 inside after⟩

theorem keep_keep (p q : Kind → Bool) (forest : Forest Node) :
    (forest.keep p).keep q = forest.keep fun kind => p kind && q kind := by
  induction forest with
  | nil => rfl
  | cons node children rest _ ih =>
      by_cases stays : p node.item.kind = true <;> simp [keep, stays, ih]

theorem mem_places_keep (member : place ∈ (forest.keep p).places above) :
    place ∈ forest.places above := by
  induction forest with
  | nil => cases member
  | cons node children rest _ ih =>
      rw [keep] at member
      rw [places, List.mem_cons, List.mem_append]
      split at member
      · rw [places, List.mem_cons, List.mem_append] at member
        exact member.imp_right (Or.imp_right ih)
      · exact .inr (.inr (ih member))

/-- What stands above a forest stands above all of its nodes. -/
theorem above_suffix (member : place ∈ forest.places above) : above <:+ place.above := by
  induction forest generalizing above with
  | nil => cases member
  | cons node children rest ihc ihr =>
      rcases List.mem_cons.mp member with rfl | deeper
      · exact List.suffix_refl _
      · rcases List.mem_append.mp deeper with inside | outside
        · exact (List.suffix_cons _ _).trans (ihc inside)
        · exact ihr outside

theorem top?_of_mem_places {kind : Kind} (member : place ∈ forest.places [kind, .root]) :
    place.top? = some kind := by
  obtain ⟨more, split⟩ := above_suffix member
  rw [Place.top?, ← split]
  simp

/-- Where no node is of a kind, nothing stands directly below one of that kind. -/
theorem above_ne {kind parent : Kind} (outer : parent ≠ kind)
    (others : ∀ place ∈ forest.places (parent :: above), place.kind ≠ kind)
    (member : place ∈ forest.places (parent :: above)) : place.above.head? ≠ some kind := by
  induction forest generalizing parent above with
  | nil => cases member
  | cons node children rest ihc ihr =>
      obtain ⟨own, deeper⟩ := List.forall_mem_cons.mp others
      obtain ⟨inside, outside⟩ := List.forall_mem_append.mp deeper
      rcases List.mem_cons.mp member with rfl | deeper
      · exact fun same => outer (Option.some.inj same)
      · rcases List.mem_append.mp deeper with among | among
        · exact ihc own inside among
        · exact ihr outer outside among

section Reports

variable {named : Kind → Option String}

/-- Only nodes of the class are reported. -/
theorem filterMap_placesOf (selected : ∀ kind, (named kind).isSome = true → p kind = true)
    (above : List Kind) (forest : Forest Node) :
    (forest.placesOf p above).filterMap (fun place => (named place.kind).map place.misplaced) =
      (forest.places above).filterMap fun place => (named place.kind).map place.misplaced := by
  rw [placesOf, List.filterMap_filter]
  refine List.filterMap_congr fun place _ => ?_
  split
  · rfl
  · rename_i other
    cases defines : named place.kind with
    | none => rfl
    | some name => exact absurd (selected _ (by rw [defines]; rfl)) other

/-- Below a child of the root that is no definition everything is reported. -/
theorem misplaced?_inside {kind : Kind} (plain : named kind = none) (forest : Forest Node) :
    (forest.places [kind, .root]).filterMap (Place.misplaced? named) =
      (forest.places [kind, .root]).filterMap fun place =>
        (named place.kind).map place.misplaced := by
  refine List.filterMap_congr fun place member => ?_
  rw [Place.misplaced?, top?_of_mem_places member, Option.bind_some, plain]
  rfl

/-- Below one that is a definition nothing is. -/
theorem misplaced?_below {kind : Kind} {name : String} (defines : named kind = some name)
    (forest : Forest Node) :
    (forest.places [kind, .root]).filterMap (Place.misplaced? named) = [] := by
  refine List.filterMap_eq_nil_iff.mpr fun place member => ?_
  rw [Place.misplaced?, top?_of_mem_places member, Option.bind_some, defines]
  rfl

theorem misplaced?_top (node : Node) :
    Place.misplaced? named (.ofNode [.root] node) =
      (named node.item.kind).map (Place.misplaced (.ofNode [.root] node)) :=
  rfl

/-- Of a child of the root that is no definition everything is reported. -/
theorem misplaced?_plain {node : Node} (plain : named node.item.kind = none)
    (inner : Forest Node) :
    ((Forest.tree node inner).places [.root]).filterMap (Place.misplaced? named) =
      ((Forest.tree node inner).places [.root]).filterMap fun place =>
        (named place.kind).map place.misplaced := by
  rw [places_tree, List.filterMap_cons, List.filterMap_cons, misplaced?_inside plain,
    misplaced?_top]
  rfl

/-- Of one that is a definition only that itself is. -/
theorem misplaced?_defines {node : Node} {name : String}
    (defines : named node.item.kind = some name) (inner : Forest Node) :
    ((Forest.tree node inner).places [.root]).filterMap (Place.misplaced? named) =
      [(Place.ofNode [.root] node).misplaced name] := by
  rw [places_tree, List.filterMap_cons, misplaced?_below defines, misplaced?_top, defines]
  rfl

/-- An item of a class that cannot hold others has nothing below it. -/
theorem leaf_of_housed {node : Node} (housed : (Forest.cons node children rest).items.Housed)
    (leaf : node.item.kind.isContainer = false) : children = .nil := by
  have empty := housed.1.resolve_right (by rw [leaf]; exact Bool.false_ne_true)
  exact eq_nil_of_items empty

/-- Definitions that hold no others are all reported. -/
theorem misplaced?_leaves (leaves : ∀ kind, (named kind).isSome = true → kind.isContainer = false)
    (housed : forest.items.Housed) :
    (forest.places [.root]).filterMap (Place.misplaced? named) =
      (forest.places [.root]).filterMap fun place => (named place.kind).map place.misplaced := by
  induction forest with
  | nil => rfl
  | cons node children rest _ ih =>
      have first : Forest.cons node children rest = .tree node children ++ rest := rfl
      rw [first, places_append, List.filterMap_append, List.filterMap_append, ih housed.2.2]
      cases defines : named node.item.kind with
      | none => rw [misplaced?_plain defines]
      | some name =>
          rw [leaf_of_housed housed (leaves _ (by rw [defines]; rfl))]
          rfl

/-- Where only trees of one node went that are no definitions, the same is reported. -/
theorem misplaced?_keep
    (leaves : ∀ kind, p kind = false → kind.isContainer = false ∧ named kind = none)
    (housed : forest.items.Housed) :
    ((forest.keep p).places [.root]).filterMap (Place.misplaced? named) =
      (forest.places [.root]).filterMap (Place.misplaced? named) := by
  induction forest with
  | nil => rfl
  | cons node children rest _ ih =>
      rw [keep, places, List.filterMap_cons, List.filterMap_append, ← ih housed.2.2]
      cases stays : p node.item.kind with
      | true =>
          rw [if_pos rfl, places, List.filterMap_cons, List.filterMap_append]
      | false =>
          obtain ⟨leaf, plain⟩ := leaves _ stays
          rw [leaf_of_housed housed leaf, misplaced?_top, plain]
          rfl

end Reports

end Forest

/-- No node below the root has the kind of a root. -/
theorem Document.Sound.not_root_of_place {document : Document} {tops : List NodeId}
    {rootItem : Item} {below : Forest Node} {place : Place} (sound : document.Sound tops)
    (rootFound : document.find? document.root = some (rootItem, below))
    (member : place ∈ below.places [.root]) : place.kind ≠ .root := by
  intro isRoot
  obtain ⟨item, _, _, -, found, -, -, same⟩ := sound.exists_node_of_place rootFound member
  have kind : item.kind = .root := (congrArg Place.kind same).symm.trans isRoot
  have known := sound.alone ⟨place.id, item⟩
    ((Forest.labels_sublist_of_find? found).subset List.mem_cons_self) (by rw [kind]; rfl)
  exact (Forest.nodup_below sound.nodup rootFound).1
    (known ▸ Forest.mem_ids_of_mem_places member)

namespace Step

open Forest

variable {pass : Pass} {rootItem : Item} {below done rest : Forest Node}
  {step : NodeId → Step Unit} {p : Kind → Bool} {named : Kind → Option String} {text : String}

/-! ## One loop -/

/-- A step on the nodes of a class refuses those in a place where no sets are defined: it
reports what defines a set, and removes it if it is a child of the root. -/
structure Refuses (step : NodeId → Step Unit) (p : Kind → Bool)
    (named : Kind → Option String) : Prop where
  selected : ∀ kind, (named kind).isSome = true → p kind = true
  onRoot : ∀ pass : Pass, pass.Tidy [] [] → step pass.document.root pass = .ok () pass
  visit : ∀ {pass : Pass} {rootItem : Item} {below : Forest Node} {place : Place},
    pass.Tidy [] [] → pass.document.find? pass.document.root = some (rootItem, below) →
      place ∈ below.places [.root] → ¬ place.Accepted →
        ∃ after, step place.id pass = .ok () after ∧
          Answered pass rootItem (place.refused named below)
            ((named place.kind).map place.misplaced).toList after

theorem refuses_declarations :
    Refuses collectDeclaration Kind.isDeclaration Kind.declaredName? where
  selected kind defines := by
    cases kind with
    | declaration property value => rfl
    | _ => cases defines
  onRoot _ tidy := (collect_root tidy).1
  visit := refuse_declaration

theorem refuses_rules : Refuses collectRule Kind.isRule Kind.ruleName? where
  selected kind defines := by
    cases kind with
    | rule selector => rfl
    | _ => cases defines
  onRoot _ tidy := (collect_root tidy).2
  visit := refuse_rule

namespace Refuses

variable (refuses : Refuses step p named)

include refuses

/-- Nodes that are gone are passed over. -/
theorem pass_over (tidy : pass.Tidy [] [])
    (rootFound : pass.document.find? pass.document.root = some (rootItem, below))
    {todo : List NodeId} (gone : ∀ id ∈ todo, id ∉ below.ids) :
    forAttached todo step pass = .ok () pass := by
  induction todo with
  | nil => rfl
  | cons id others ih =>
      obtain ⟨here, later⟩ := List.forall_mem_cons.mp gone
      obtain ⟨_, round, rfl⟩ := round_attached tidy rootFound (refuses.onRoot pass tidy)
        (fun alive => absurd alive here) fun _ => rfl
      exact (bind_ok round).trans (ih later)

/-- Nodes that stay are reported one after the other. -/
theorem stay {places : List Place} (tidy : pass.Tidy [] [])
    (rootFound : pass.document.find? pass.document.root = some (rootItem, below))
    (among : ∀ place ∈ places, place ∈ below.places [.root])
    (elsewhere : ∀ place ∈ places, ¬ place.Accepted)
    (stays : ∀ place ∈ places, place.Topmost → named place.kind = none) :
    ∃ after, forAttached (places.map Place.id) step pass = .ok () after ∧
      Answered pass rootItem below
        (places.filterMap fun place => (named place.kind).map place.misplaced) after := by
  induction places generalizing pass with
  | nil => exact ⟨pass, rfl, answered_self tidy rootFound⟩
  | cons place others ih =>
      obtain ⟨member, amongOthers⟩ := List.forall_mem_cons.mp among
      obtain ⟨here, elsewhere⟩ := List.forall_mem_cons.mp elsewhere
      obtain ⟨stays, later⟩ := List.forall_mem_cons.mp stays
      obtain ⟨mid, ran, answered⟩ := refuses.visit tidy rootFound member here
      have same : place.refused named below = below :=
        if_neg fun goes => by rw [stays goes.1] at goes; cases goes.2
      rw [same] at answered
      obtain ⟨after, ranOthers, more⟩ := ih answered.tidy answered.under amongOthers elsewhere later
      have within := mem_ids_of_mem_places member
      refine ⟨after, (visit_attached tidy rootFound within ran).trans ranOthers, ?_⟩
      have both := answered.trans more
      rw [List.filterMap_cons]
      cases defines : named place.kind <;> rwa [defines] at both

/-- A child of the root that is no definition stays, with all below it. -/
theorem child_stays {node : Node} {inner : Forest Node} (tidy : pass.Tidy [] [])
    (rootFound : pass.document.find? pass.document.root =
      some (rootItem, (done ++ .cons node inner rest).mapFirst (Node.precede text)))
    (elsewhere : ∀ place ∈ (Forest.tree node inner).places [.root], ¬ place.Accepted)
    (plain : named node.item.kind = none) :
    ∃ after, forAttached (((Forest.tree node inner).placesOf p [.root]).map Place.id) step pass =
        .ok () after ∧
      Answered pass rootItem ((done ++ .cons node inner rest).mapFirst (Node.precede text))
        (((Forest.tree node inner).places [.root]).filterMap (Place.misplaced? named)) after := by
  have among : ∀ place ∈ (Forest.tree node inner).places [.root],
      place ∈ ((done ++ .cons node inner rest).mapFirst (Node.precede text)).places [.root] := by
    intro place member
    rw [places_mapFirst_precede, places_append,
      show Forest.cons node inner rest = Forest.tree node inner ++ rest from rfl, places_append]
    exact List.mem_append_right _ (List.mem_append_left _ member)
  have others : ∀ place ∈ (Forest.tree node inner).places [.root], place.kind ≠ .root :=
    fun place member => tidy.sound.not_root_of_place rootFound (among place member)
  rw [misplaced?_plain plain, ← filterMap_placesOf refuses.selected]
  refine refuses.stay tidy rootFound
    (fun place member => among place (mem_places_of_mem_placesOf member))
    (fun place member => elsewhere place (mem_places_of_mem_placesOf member))
    fun place member top => ?_
  -- Only the child itself stands directly below the root.
  rw [places_tree] at others
  obtain ⟨own, inside⟩ := List.forall_mem_cons.mp others
  have member := mem_places_of_mem_placesOf member
  rw [places_tree] at member
  rcases List.mem_cons.mp member with rfl | deeper
  · exact plain
  · exact absurd top (above_ne own inside deeper)

/-- One that is a definition goes, and so do all nodes below it, which are passed over. -/
theorem child_goes {node : Node} {inner : Forest Node} (tidy : pass.Tidy [] [])
    (rootFound : pass.document.find? pass.document.root =
      some (rootItem, (done ++ .cons node inner rest).mapFirst (Node.precede text)))
    (elsewhere : ¬ (Place.ofNode [.root] node).Accepted) {name : String}
    (defines : named node.item.kind = some name) :
    ∃ after, forAttached (((Forest.tree node inner).placesOf p [.root]).map Place.id) step pass =
        .ok () after ∧
      Answered pass rootItem ((done ++ rest).mapFirst (Node.precede text))
        (((Forest.tree node inner).places [.root]).filterMap (Place.misplaced? named)) after := by
  have nodup := (nodup_below tidy.sound.nodup rootFound).2
  rw [ids_mapFirst_precede] at nodup
  have member : Place.ofNode [.root] node ∈
      ((done ++ .cons node inner rest).mapFirst (Node.precede text)).places [.root] := by
    rw [places_mapFirst_precede, places_append]
    exact List.mem_append_right _ List.mem_cons_self
  obtain ⟨mid, ran, answered⟩ := refuses.visit tidy rootFound member elsewhere
  have own : named (Place.ofNode [.root] node).kind = some name := defines
  have left : (Place.ofNode [.root] node).refused named
      ((done ++ .cons node inner rest).mapFirst (Node.precede text)) =
        (done ++ rest).mapFirst (Node.precede text) := by
    rw [Place.refused_of_some own, if_pos (show Place.Topmost (.ofNode [.root] node) from rfl),
      without_mapFirst]
    exact congrArg _ (replace_split nodup .nil)
  rw [left, own] at answered
  have gone : ∀ id ∈ (inner.placesOf p [node.item.kind, .root]).map Place.id,
      id ∉ ((done ++ rest).mapFirst (Node.precede text)).ids := by
    intro id member
    obtain ⟨place, among, rfl⟩ := List.mem_map.mp member
    rw [ids_mapFirst_precede]
    exact not_mem_ids_beside nodup (mem_ids_of_mem_placesOf among)
  have passed := refuses.pass_over answered.tidy answered.under gone
  rw [misplaced?_defines defines]
  refine ⟨mid, ?_, answered⟩
  rw [Forest.tree, placesOf_cons, if_pos (refuses.selected _ (by rw [defines]; rfl)),
    show (Forest.nil : Forest Node).placesOf p [.root] = [] from rfl, List.append_nil]
  exact (visit_attached tidy rootFound (mem_ids_of_mem_places member) ran).trans passed

/-- **One loop.**  Of the children of the root those are left that are no definitions. -/
theorem sweep (tidy : pass.Tidy [] [])
    (rootFound : pass.document.find? pass.document.root =
      some (rootItem, (done ++ rest).mapFirst (Node.precede text)))
    (elsewhere : ∀ place ∈ rest.places [.root], ¬ place.Accepted) :
    ∃ after, forAttached ((rest.placesOf p [.root]).map Place.id) step pass = .ok () after ∧
      Answered pass rootItem
        ((done ++ rest.keep fun kind => (named kind).isNone).mapFirst (Node.precede text))
        ((rest.places [.root]).filterMap (Place.misplaced? named)) after := by
  induction rest generalizing done pass with
  | nil => exact ⟨pass, rfl, answered_self tidy rootFound⟩
  | cons node inner rest _ ih =>
      have first : Forest.cons node inner rest = Forest.tree node inner ++ rest := rfl
      rw [first, places_append] at elsewhere ⊢
      rw [placesOf_append, List.map_append, List.filterMap_append, ← first]
      obtain ⟨own, later⟩ := List.forall_mem_append.mp elsewhere
      cases defines : named node.item.kind with
      | none =>
          obtain ⟨mid, ran, stays⟩ := refuses.child_stays tidy rootFound own defines
          have moved : (done ++ Forest.tree node inner) ++ rest = done ++ .cons node inner rest :=
            Forest.append_assoc ..
          obtain ⟨after, ranLater, swept⟩ := ih stays.tidy (moved ▸ stays.under) later
          refine ⟨after, forAttached_append ran ranLater, ?_⟩
          rw [keep, defines]
          have kept := stays.trans swept
          rw [Forest.append_assoc] at kept
          exact kept
      | some name =>
          obtain ⟨mid, ran, goes⟩ := refuses.child_goes tidy rootFound
            (own _ List.mem_cons_self) defines
          obtain ⟨after, ranLater, swept⟩ := ih goes.tidy goes.under later
          refine ⟨after, forAttached_append ran ranLater, ?_⟩
          rw [keep, defines]
          exact goes.trans swept

/-- The loop over the nodes that are there when it begins. -/
theorem sweeps (tidy : pass.Tidy [] [])
    (rootFound : pass.document.find? pass.document.root =
      some (rootItem, below.mapFirst (Node.precede text)))
    (elsewhere : ∀ place ∈ below.places [.root], ¬ place.Accepted) :
    ∃ after, (underRoot p >>= fun ids => forAttached ids step) pass = .ok () after ∧
      Answered pass rootItem
        ((below.keep fun kind => (named kind).isNone).mapFirst (Node.precede text))
        ((below.places [.root]).filterMap (Place.misplaced? named)) after := by
  have started : pass.document.find? pass.document.root =
      some (rootItem, (.nil ++ below).mapFirst (Node.precede text)) := rootFound
  obtain ⟨after, ran, answered⟩ := refuses.sweep tidy started elsewhere
  have listed := underRoot_places rootFound p
  rw [placesOf, places_mapFirst_precede] at listed
  exact ⟨after, (bind_ok listed).trans ran, answered⟩

end Refuses

end Step

/-- **Where no rule is a rule for the document root.**  After any operations on the pass of a
parsed stylesheet, no set is found then.  Every definition is reported with the selector of
the rule that it stands in, first the declarations and then the rules; only a rule that stands
below a child of the root that is such a rule too is gone by then.  The children of the root
that are definitions are taken out, with all below them.  Nothing else is changed but the text
before the first child, which is that of the old one. -/
theorem extract_misplaced {css : String} {document : Document} (options : Options)
    (operations : List Operation) {start : Pass} {rootItem : Item} {below : Forest Node}
    (parsed : Document.parse css = .ok document)
    (isStart : start = Pass.operate { document, options } operations)
    (rootFound : start.document.find? start.document.root = some (rootItem, below))
    (unscoped : ∀ place ∈ below.places [.root], place.kind ≠ .rule rootSelector) :
    ∃ after, Step.extract start = .ok () after ∧
      after.registry = start.registry ∧ after.sets = start.sets ∧
      after.warnings = start.warnings ++ below.misplaced ∧
      after.document.root = start.document.root ∧
      after.document.find? after.document.root = some (rootItem, below.withoutDefinitions) := by
  have tidy : start.Tidy [] [] :=
    isStart ▸ Pass.tidy_operate operations (Pass.tidy_of_parse parsed options)
  have housed := (Forest.housed_of_find? tidy.sound.housed rootFound).2
  have elsewhere : ∀ place ∈ below.places [.root], ¬ place.Accepted := fun place member =>
    Forest.above_ne (by simp) unscoped member
  obtain ⟨declared, ranDeclarations, declaring⟩ := Step.refuses_declarations.sweeps
    tidy ((Forest.mapFirst_lead below).symm ▸ rootFound) elsewhere
  obtain ⟨after, ranRules, ruling⟩ := Step.refuses_rules.sweeps declaring.tidy declaring.under
    fun place member => elsewhere place (Forest.mem_places_keep member)
  have extracted := declaring.trans ruling
  refine ⟨after, (bind_ok ranDeclarations).trans ranRules, extracted.registry, extracted.sets, ?_,
    extracted.root, ?_⟩
  · have later := Forest.misplaced?_keep (p := fun kind => kind.declaredName?.isNone)
      (fun kind goes => kind.leaf_of_declares (by simpa using goes)) housed
    rw [extracted.warnings, Forest.misplaced?_leaves (fun kind declares =>
      (kind.leaf_of_declares declares).1) housed, later]
    rfl
  · rw [extracted.under, Forest.keep_keep]
    rfl

/-- The pole of `extract_misplaced`: `--l` is gone when rules are looked for, and `.b` comes
first then. -/
theorem extract_misplaced_nested :
    ∃ document after rootItem left,
      Document.parse (" --a\x7bx:y\x7d.b\x7b--c:\x7bz:w\x7d;--d\x7be:f\x7d\x7d" ++
        "--g:\x7bi:j\x7d;--k\x7b--l\x7bm:n\x7d--o:\x7bp:q\x7d\x7d") = .ok document ∧
      Step.extract { document, options := {} } = .ok () after ∧ after.registry.names = [] ∧
      after.warnings.map Warning.cause =
        [.misplacedSet "c" (some ".b"), .misplacedSet "g" none, .misplacedSet "o" (some "--k"),
          .misplacedSet "a" none, .misplacedSet "d" (some ".b"), .misplacedSet "k" none] ∧
      after.document.find? after.document.root = some (rootItem, left) ∧
      left.roots.map (fun node => (node.item.kind, node.item.raws.before)) =
        [(.rule ".b", " ")] := by
  obtain ⟨document, parsed, computed⟩ := exists_ok_of_any
    (Document.parse (" --a\x7bx:y\x7d.b\x7b--c:\x7bz:w\x7d;--d\x7be:f\x7d\x7d" ++
      "--g:\x7bi:j\x7d;--k\x7b--l\x7bm:n\x7d--o:\x7bp:q\x7d\x7d"))
    (fun document => (document.find? document.root).any fun pair : Item × Forest Node => decide (
      (∀ place ∈ pair.2.places [.root], place.kind ≠ .rule rootSelector) ∧
      pair.2.misplaced.map Warning.cause =
        [.misplacedSet "c" (some ".b"), .misplacedSet "g" none, .misplacedSet "o" (some "--k"),
          .misplacedSet "a" none, .misplacedSet "d" (some ".b"), .misplacedSet "k" none] ∧
      pair.2.withoutDefinitions.roots.map (fun node => (node.item.kind, node.item.raws.before)) =
        [(.rule ".b", " ")])) (by decide +kernel)
  obtain ⟨⟨rootItem, below⟩, rootFound, holds⟩ := (Option.any_eq_true ..).mp computed
  obtain ⟨unscoped, causes, kept⟩ := of_decide_eq_true holds
  obtain ⟨after, ran, registry, -, warnings, -, found⟩ :=
    extract_misplaced {} [] parsed rfl rootFound unscoped
  exact ⟨document, after, rootItem, _, parsed, ran, by rw [registry]; rfl,
    by rw [warnings]; exact causes, found, kept⟩

end ApplyRule
