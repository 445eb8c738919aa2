/-
# ApplyRule.Proofs.AnyOrder -- the order of references does not matter

What becomes of a reference depends on its place and on the sets, and on no other
reference.  `Forest.settle` reads off a forest what it comes to once the references
in `pending` are resolved, whatever their order: it asks only which they are.

* `settle_leave`, `settle_replace` -- to resolve one of them leaves the same to
  come to.
* `Destined` -- so the whole loop does, and at its end there is nothing left to
  resolve.

The text before the first child of the root outlives that child: it is the `lead`
of whatever comes first in the end.
-/
import ApplyRule.Proofs.Resolution

namespace ApplyRule

set_option autoImplicit false

open Document

/-- What a node gives way to if it is resolved, unless it stays. -/
def Place.outcome? (sets : Sets) (place : Place) : Option (Forest Item) :=
  match place.kind.reference? with
  | none => none
  | some target =>
      if place.enclosed then
        (target.bind sets).map fun (rule, body) => body.reindent rule.raws.before
      else some .nil

namespace Forest

/-- What a forest below nodes of the kinds `above` comes to once the references in
`pending` are resolved. -/
def settle (sets : Sets) (pending : List NodeId) (above : List Kind) : Forest Node → Forest Item
  | .nil => .nil
  | .cons node children rest =>
      match if node.id ∈ pending then (Place.ofNode above node).outcome? sets else none with
      | some more => more ++ rest.settle sets pending above
      | none =>
          .cons node.item (children.settle sets pending (node.item.kind :: above))
            (rest.settle sets pending above)

variable {sets : Sets} {pending others : List NodeId} {above : List Kind}
  {forest more : Forest Node} {id : NodeId} {place : Place}

@[simp] theorem settle_append (first second : Forest Node) :
    (first ++ second).settle sets pending above =
      first.settle sets pending above ++ second.settle sets pending above := by
  induction first with
  | nil => rfl
  | cons node children rest _ ih =>
      rw [cons_append, settle, settle, ih]
      split
      · rw [append_assoc]
      · rfl

/-- Only which nodes are pending matters. -/
theorem settle_congr (same : ∀ id, id ∈ pending ↔ id ∈ others) :
    forest.settle sets pending above = forest.settle sets others above := by
  induction forest generalizing above with
  | nil => rfl
  | cons node children rest ihc ihr => simp only [settle, same, ihc, ihr]

theorem settle_nil : forest.settle sets [] above = forest.items := by
  induction forest generalizing above with
  | nil => rfl
  | cons node children rest ihc ihr =>
      simp only [settle, List.not_mem_nil, if_false, ihc, ihr]
      rfl

/-- Where there is no reference, nothing gives way. -/
theorem settle_of_plain (plain : forest.items.Plain) :
    forest.settle sets pending above = forest.items := by
  induction forest generalizing above with
  | nil => rfl
  | cons node children rest ihc ihr =>
      obtain ⟨own, below, later⟩ := plain_cons.mp plain
      have stays : (Place.ofNode above node).outcome? sets = none := by
        simp [Place.outcome?, Place.ofNode, own]
      simp only [settle, stays, ite_self, ihc below, ihr later]
      rfl

/-- A node that stays, or is not there, can as well be resolved first. -/
theorem settle_leave
    (stays : ∀ place ∈ forest.places above, place.id = id → place.outcome? sets = none) :
    forest.settle sets (id :: pending) above = forest.settle sets pending above := by
  induction forest generalizing above with
  | nil => rfl
  | cons node children rest ihc ihr =>
      have below : children.settle sets (id :: pending) (node.item.kind :: above) =
          children.settle sets pending (node.item.kind :: above) :=
        ihc fun place member => stays place
          (List.mem_cons_of_mem _ (List.mem_append_left _ member))
      have later : rest.settle sets (id :: pending) above = rest.settle sets pending above :=
        ihr fun place member => stays place
          (List.mem_cons_of_mem _ (List.mem_append_right _ member))
      rw [settle, settle, below, later]
      by_cases here : node.id = id
      · simp only [stays _ List.mem_cons_self here, ite_self]
      · simp only [List.mem_cons, here, false_or]

/-- A node that gives way can as well do so first. -/
theorem settle_replace (nodup : forest.ids.Nodup) (member : place ∈ forest.places above)
    (gives : place.outcome? sets = some more.items) (plain : more.items.Plain) :
    forest.settle sets (place.id :: pending) above =
      (replace place.id more forest).settle sets pending above := by
  induction forest generalizing above with
  | nil => cases member
  | cons node children rest ihc ihr =>
      obtain ⟨⟨notBelow, notRest⟩, nodupBelow, nodupRest, disjoint⟩ := nodup_parts nodup
      -- The trees that the node is not in come to the same.
      have aside : ∀ {path : List Kind} {tree : Forest Node}, place.id ∉ tree.ids →
          tree.settle sets (place.id :: pending) path = tree.settle sets pending path :=
        fun absent => settle_leave fun other among same =>
          absurd (same ▸ mem_ids_of_mem_places among) absent
      rcases List.mem_cons.mp member with rfl | deeper
      · have pends : node.id ∈ (Place.ofNode above node).id :: pending := List.mem_cons_self
        have absent : (Place.ofNode above node).id ∉ rest.ids := notRest
        rw [settle, if_pos pends, gives, replace]
        simp only [Place.ofNode, if_true]
        rw [settle_append, settle_of_plain plain]
        exact congrArg _ (aside absent)
      · have elsewhere : node.id ≠ place.id := by
          intro same
          rcases List.mem_append.mp deeper with inside | outside
          · exact notBelow (same ▸ mem_ids_of_mem_places inside)
          · exact notRest (same ▸ mem_ids_of_mem_places outside)
        have pends : (node.id ∈ place.id :: pending) = (node.id ∈ pending) := by
          simp [elsewhere]
        rw [replace, if_neg elsewhere, settle, settle]
        simp only [pends]
        rcases List.mem_append.mp deeper with inside | outside
        · have absent : place.id ∉ rest.ids := disjoint (mem_ids_of_mem_places inside)
          rw [ihc nodupBelow inside, aside absent, replace_of_not_mem absent]
        · have absent : place.id ∉ children.ids := fun both =>
            disjoint both (mem_ids_of_mem_places outside)
          rw [ihr nodupRest outside, aside absent, replace_of_not_mem absent]

/-- The text before the first tree, if there is one. -/
def LedBy (lead : String) (forest : Forest Node) : Prop :=
  ∀ first ∈ forest.roots.head?, first.item.raws.before = lead

theorem exists_ledBy (forest : Forest Node) : ∃ lead, forest.LedBy lead := by
  cases forest with
  | nil => exact ⟨"", nofun⟩
  | cons first children rest =>
      refine ⟨first.item.raws.before, ?_⟩
      rintro _ ⟨⟩
      rfl

variable {lead : String}

theorem LedBy.items (led : forest.LedBy lead) :
    forest.items.mapFirst (Item.precede lead) = forest.items := by
  cases forest with
  | nil => rfl
  | cons first children rest =>
      have own : first.item.raws.before = lead := led first rfl
      show Forest.cons (first.item.precede lead) _ _ = Forest.cons first.item _ _
      rw [← own]
      rfl

theorem LedBy.replace (led : forest.LedBy lead) (inner : id ∉ forest.tops) :
    (replace id more forest).LedBy lead := by
  cases forest with
  | nil => exact led
  | cons first children rest =>
      rw [tops_cons, List.mem_cons, not_or] at inner
      rw [Forest.replace, if_neg (Ne.symm inner.1)]
      exact led

/-- A removed child hands its text on. -/
theorem LedBy.without (led : forest.LedBy lead) (id : NodeId) : (forest.without id).LedBy lead := by
  cases forest with
  | nil => exact led
  | cons first children rest =>
      have own : first.item.raws.before = lead := led first rfl
      rw [Forest.without, own]
      cases Forest.replace id .nil (.cons first children rest) with
      | nil =>
          intro first among
          cases among
      | cons next children rest =>
          intro first among
          cases among
          rfl

/-- The text before the first child is not what decides what becomes of it. -/
theorem settle_mapFirst_precede (forest : Forest Node) :
    ((forest.mapFirst (Node.precede lead)).settle sets pending above).mapFirst
        (Item.precede lead) =
      (forest.settle sets pending above).mapFirst (Item.precede lead) := by
  cases forest with
  | nil => rfl
  | cons first children rest =>
      have own : Place.ofNode above (first.precede lead) = Place.ofNode above first := rfl
      have known : (first.precede lead).id = first.id := rfl
      have changed : (Forest.cons first children rest).mapFirst (Node.precede lead) =
          .cons (first.precede lead) children rest := rfl
      rw [changed, settle, settle, own, known]
      split <;> rfl

theorem settle_without (led : forest.LedBy lead) :
    ((forest.without id).settle sets pending above).mapFirst (Item.precede lead) =
      ((Forest.replace id .nil forest).settle sets pending above).mapFirst (Item.precede lead) := by
  cases forest with
  | nil => rfl
  | cons first children rest =>
      have own : first.item.raws.before = lead := led first rfl
      rw [Forest.without, own]
      exact settle_mapFirst_precede _

end Forest

namespace Step

variable {pass prepared : Pass} {id : NodeId} {rootItem : Item} {below left : Forest Node}
  {place : Place} {raised : List Warning} {todo : List NodeId}

/-- What a verdict leaves comes to the same as before. -/
theorem Verdict.settle {lead : String} (verdict : Verdict pass below place left raised)
    (todo : List NodeId)
    (plain : ∀ name rule body, pass.sets name = some (rule, body) → body.Plain)
    (nodup : below.ids.Nodup) (member : place ∈ below.places [.root])
    {target : Option String} (refers : place.kind.reference? = some target)
    (inner : place.enclosed = true → place.id ∉ below.tops) (led : below.LedBy lead) :
    left.LedBy lead ∧
      (left.settle pass.sets todo [.root]).mapFirst (Item.precede lead) =
        (below.settle pass.sets (place.id :: todo) [.root]).mapFirst (Item.precede lead) := by
  -- A reference that stays is the only node of its identity.
  have stays : place.outcome? pass.sets = none →
      below.settle pass.sets (place.id :: todo) [.root] = below.settle pass.sets todo [.root] :=
    fun none_ => Forest.settle_leave fun other among same =>
      Forest.eq_of_mem_places nodup among member same ▸ none_
  cases verdict with
  | orphaned outside =>
      have gives : place.outcome? pass.sets = some (.nil : Forest Node).items := by
        simp [Place.outcome?, refers, outside, Forest.items, Forest.map]
      refine ⟨led.without _, ?_⟩
      rw [Forest.settle_without led, Forest.settle_replace nodup member gives (by simp [
        Forest.Plain, Forest.items, Forest.map, Forest.labels])]
  | nameless inside refers' =>
      refine ⟨led, by rw [stays (by simp [Place.outcome?, refers', inside])]⟩
  | unknown inside refers' absent =>
      refine ⟨led, by rw [stays (by simp [Place.outcome?, refers', inside, absent])]⟩
  | known inside refers' found copied new =>
      refine ⟨led.replace (inner inside), ?_⟩
      rw [Forest.settle_replace nodup member]
      · simp [Place.outcome?, refers', inside, found, copied]
      · rw [copied]
        exact (plain _ _ _ found).reindent _

/-- A node that is not under the root is no reference once the sets are prepared. -/
theorem resolve_elsewhere (tidy : pass.Tidy [] [])
    (plain : ∀ name rule body, pass.sets name = some (rule, body) → body.Plain)
    (rootFound : pass.document.find? pass.document.root = some (rootItem, below))
    (outside : id ∉ below.ids) : resolve id pass = .ok () pass := by
  refine resolve_other fun kind known => ?_
  obtain ⟨item, children, found, rfl⟩ := find?_of_kind? known
  obtain ⟨top, topItem, topChildren, isTop, topFound, inTree⟩ :=
    Forest.exists_tree tidy.sound.nodup (Forest.mem_ids_of_find? found)
  rcases List.mem_cons.mp (tidy.sound.mem_tops.mp isTop) with rfl | registered
  · have same : pass.document.find? pass.document.root = some (topItem, topChildren) := topFound
    rw [rootFound] at same
    cases same
    obtain rfl := inTree.resolve_right outside
    obtain ⟨_, _, found', kind⟩ := tidy.sound.root
    rw [found] at found'
    cases found'
    rw [kind]
    rfl
  · rw [List.append_nil, List.append_nil] at registered
    rcases inTree with rfl | inside
    · obtain ⟨_, _, found', isRule⟩ := isKind_iff.mp (tidy.rules id (by simpa using registered))
      rw [found] at found'
      cases found'
      cases shape : item.kind with
      | rule _ => rfl
      | _ => simp [shape, Kind.isRule] at isRule
    · obtain ⟨⟨name, set⟩, entry, rfl⟩ := List.mem_map.mp registered
      have lookup : pass.registry.lookup? name = some set :=
        (NameMap.find?_eq_some_iff tidy.names).mpr entry
      have holds := plain name _ _ (Pass.Tidy.sets_of_lookup? lookup topFound)
      have within : topChildren.find? id = some (item, children) :=
        (Forest.find?_eq_find? tidy.sound.nodup topFound inside).symm.trans found
      refine holds item ?_
      rw [Forest.items, Forest.labels_map]
      exact List.mem_map_of_mem (f := Node.item)
        ((Forest.labels_sublist_of_find? within).subset List.mem_cons_self)

/-- A pass that comes to the forest `final` under the root once the references in
`todo` are resolved. -/
structure Destined (prepared : Pass) (lead : String) (final : Forest Item) (todo : List NodeId)
    (rootItem : Item) (below : Forest Node) (pass : Pass) : Prop where
  answered : ∃ raised, Answered prepared rootItem below raised pass
  led : below.LedBy lead
  comes : (below.settle prepared.sets todo [.root]).mapFirst (Item.precede lead) = final

section Loop

variable {lead : String} {final : Forest Item}

/-- **One reference.**  Whichever is resolved next, the pass comes to the same. -/
theorem Destined.visit
    (plain : ∀ name rule body, prepared.sets name = some (rule, body) → body.Plain)
    (destined : Destined prepared lead final (id :: todo) rootItem below pass) :
    ∃ left after, resolve id pass = .ok () after ∧
      Destined prepared lead final todo rootItem left after := by
  obtain ⟨⟨raised, answered⟩, led, comes⟩ := destined
  have tidy := answered.tidy
  have nodup := (Forest.nodup_below tidy.sound.nodup answered.under).2
  have plainHere : ∀ name rule body, pass.sets name = some (rule, body) → body.Plain := by
    rw [answered.sets]
    exact plain
  -- A node that is no reference, or not there, changes nothing.
  have idle : (∀ place ∈ below.places [.root], place.id = id → place.kind.reference? = none) →
      Destined prepared lead final todo rootItem below pass := by
    intro none_
    refine ⟨⟨raised, answered⟩, led, ?_⟩
    rw [← comes, Forest.settle_leave]
    intro place member same
    simp [Place.outcome?, none_ place member same]
  by_cases alive : id ∈ below.ids
  · obtain ⟨place, member, rfl⟩ : ∃ place ∈ below.places [.root], place.id = id :=
      Forest.exists_place alive
    cases refers : place.kind.reference? with
    | none =>
        refine ⟨below, pass, resolve_other fun kind known => ?_, idle fun other among same => ?_⟩
        · obtain ⟨item, _, _, -, found, -, -, same⟩ := tidy.sound.exists_node_of_place answered.under member
          rw [kind?_of_find? found] at known
          cases known
          rw [← refers, same]
          rfl
        · rw [Forest.eq_of_mem_places nodup among member same, refers]
    | some target =>
        obtain ⟨left, new, after, ran, verdict, step⟩ :=
          resolve_reference tidy answered.under member refers
        obtain ⟨ledLeft, same⟩ := verdict.settle todo plainHere nodup member refers
          (not_mem_tops_of_enclosed tidy answered.under member) led
        refine ⟨left, after, ran, ⟨_, answered.trans step⟩, ledLeft, ?_⟩
        rw [answered.sets] at same
        rw [same, comes]
  · refine ⟨below, pass, resolve_elsewhere tidy plainHere answered.under alive, idle ?_⟩
    intro place member same
    exact absurd (same ▸ Forest.mem_ids_of_mem_places member) alive

/-- **All references**, in the order in which they are listed. -/
theorem Destined.run
    (plain : ∀ name rule body, prepared.sets name = some (rule, body) → body.Plain)
    (destined : Destined prepared lead final todo rootItem below pass) :
    ∃ left after, todo.forM resolve pass = .ok () after ∧
      after.document.find? after.document.root = some (rootItem, left) ∧ left.items = final := by
  induction todo generalizing below pass with
  | nil =>
      obtain ⟨⟨_, answered⟩, led, comes⟩ := destined
      refine ⟨below, pass, rfl, answered.under, ?_⟩
      rw [← comes, Forest.settle_nil, led.items]
  | cons id rest ih =>
      obtain ⟨_, mid, ran, visited⟩ := destined.visit plain
      obtain ⟨left, after, ranRest, done⟩ := ih visited
      exact ⟨left, after, (bind_ok ran).trans ranRest, done⟩

end Loop

end Step

/-- **The order of references does not matter.**  Once the sets are prepared, the
references in the document can be resolved in any order: every run succeeds, and any
two leave the same tree under the root, hence the same text. -/
theorem resolve_perm {css : String} {document : Document} {options : Options} {prepared : Pass}
    (parsed : Document.parse css = .ok document)
    (ran : Step.prepare { document, options } = .ok () prepared) :
    ∃ references,
      prepared.document.select? (Kind.isAtRule referenceRule) prepared.document.root =
        some references ∧
      ∀ first second : List NodeId, first.Perm references → second.Perm references →
        ∃ after after' rootItem below below',
          first.forM Step.resolve prepared = .ok () after ∧
          second.forM Step.resolve prepared = .ok () after' ∧
          after.document.find? after.document.root = some (rootItem, below) ∧
          after'.document.find? after'.document.root = some (rootItem, below') ∧
          below.items = below'.items ∧ after.document.css = after'.document.css := by
  obtain ⟨tidy, plain⟩ := Step.prepared_plain parsed ran
  obtain ⟨rootItem, below, rootFound, -⟩ := tidy.sound.root
  obtain ⟨lead, led⟩ := below.exists_ledBy
  obtain ⟨references, listed⟩ : ∃ references, prepared.document.select?
      (Kind.isAtRule referenceRule) prepared.document.root = some references := by
    rw [select?, below?, rootFound]
    exact ⟨_, rfl⟩
  refine ⟨references, listed, fun first second one other => ?_⟩
  let final := (below.settle prepared.sets references [.root]).mapFirst (Item.precede lead)
  -- Both orders begin with the same references pending.
  have begun : ∀ order, order.Perm references →
      Step.Destined prepared lead final order rootItem below prepared := by
    intro order perm
    refine ⟨⟨[], Step.answered_self tidy rootFound⟩, led, ?_⟩
    rw [Forest.settle_congr fun id => perm.mem_iff]
  obtain ⟨left, after, ranOne, under, items⟩ := (begun first one).run plain
  obtain ⟨left', after', ranOther, under', items'⟩ := (begun second other).run plain
  have same : left.items = left'.items := items.trans items'.symm
  refine ⟨after, after', rootItem, left, left', ranOne, ranOther, under, under', same, ?_⟩
  simp only [Document.css, print?, under, under', Option.map_some, same]

/-- The pole of `resolve_perm`: references at the top, one in a rule, and one in the
block of another, last to first. -/
theorem resolve_perm_reverse :
    ∃ document prepared references after after',
      Document.parse (" @apply --a;\n@apply --b;:root\x7b--a:\x7bb:c\x7d\x7d" ++
        ".x\x7b@apply --a\x7b@apply --u;\x7d@apply --u\x7b@apply --a;\x7d\x7d") = .ok document ∧
      Step.prepare { document, options := {} } = .ok () prepared ∧
      prepared.document.select? (Kind.isAtRule referenceRule) prepared.document.root =
        some references ∧
      references.length = 6 ∧
      references.forM Step.resolve prepared = .ok () after ∧
      references.reverse.forM Step.resolve prepared = .ok () after' ∧
      after.document.css = after'.document.css := by
  obtain ⟨document, prepared, parsed, ran, holds⟩ := Step.exists_ran Step.prepare
    (" @apply --a;\n@apply --b;:root\x7b--a:\x7bb:c\x7d\x7d" ++
      ".x\x7b@apply --a\x7b@apply --u;\x7d@apply --u\x7b@apply --a;\x7d\x7d") {}
    (fun pass => (pass.document.select? (Kind.isAtRule referenceRule) pass.document.root).any
      fun references => references.length = 6)
    (by decide +kernel)
  obtain ⟨references, listed, anyOrder⟩ := resolve_perm parsed ran
  rw [listed] at holds
  obtain ⟨after, after', _, _, _, ranOne, ranOther, -, -, -, same⟩ :=
    anyOrder references references.reverse (List.Perm.refl _) references.reverse_perm
  exact ⟨document, prepared, references, after, after', parsed, ran, listed,
    of_decide_eq_true holds, ranOne, ranOther, same⟩

end ApplyRule
