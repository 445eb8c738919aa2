/-
# ApplyRule.Proofs.Override -- which definition of a name is registered

Where definitions stand one after the other in a scope at the front of a document, all of
them are found: the declarations in the first pass, with what is in their values, and the
rules in the second.  Each pass is a run over the children of the scope
(`Step.take_declarations`, `Step.take_rules`), with one lemma for a single child.  What is
registered for a name is the definition that counts (`Step.extract_defines`).
-/
import ApplyRule.Proofs.SingleScope

namespace ApplyRule

set_option autoImplicit false

open Document

/-- The content of the sets that are registered for definitions, in their order. -/
theorem Sets.body_foldl_put {stored : List SetRule} {list : List Definition}
    (same : stored.map SetRule.entry = list.map Definition.entry) {sets : Sets}
    (empty : ∀ name, sets name = none) (name : String) :
    (stored.foldl Sets.put sets name).map (fun pair => pair.2.unplaced) =
      (list.filter (·.name = name)).getLast?.map Definition.body := by
  have entries : ((stored.map SetRule.entry).filter (·.1 = name)).getLast?.map Prod.snd =
      ((list.map Definition.entry).filter (·.1 = name)).getLast?.map Prod.snd := by rw [same]
  rw [List.filter_map, List.filter_map, List.getLast?_map, List.getLast?_map, Option.map_map,
    Option.map_map] at entries
  rw [foldl_put_eq, empty, Option.or_none, ← List.head?_filter, List.filter_reverse,
    List.head?_reverse, Option.map_map]
  exact entries

namespace Step

variable {pass mid after : Pass} {id scope : NodeId} {item own rootItem : Item}
  {front inner back rest below done todo : Forest Node} {first second : List NodeId}
  {list : List Definition}

/-! ## One visit -/

/-- Declarations in calm places are only reported. -/
theorem visits_declarations (tidy : pass.Tidy [] [])
    (under : pass.document.find? pass.document.root = some (rootItem, below))
    {todo : List NodeId}
    (calms : ∀ place ∈ below.places [.root], place.id ∈ todo → place.Calm) :
    ∃ raised after, forAttached todo collectDeclaration pass = .ok () after ∧
      Collected pass rootItem below [] raised after := by
  refine visits_calm (fun pass tidy => (collect_root tidy).1)
    (fun pass place tidy under member calm => ?_) tidy under calms
  obtain ⟨left, stored, raised, after, ran, declared, collected⟩ :=
    collect_declaration tidy under member
  cases declared with
  | idle => exact ⟨raised, after, ran, collected⟩
  | dropped top defines =>
      rw [(calm (.inl top)).1] at defines
      cases defines
  | taken read =>
      unfold Place.expansion? at read
      split at read
      · cases read
      · rename_i defines
        split at read
        · rename_i accepted
          rw [(calm (.inr accepted)).1] at defines
          cases defines
        · cases read

/-- Rules in calm places are only reported. -/
theorem visits_rules (tidy : pass.Tidy [] [])
    (under : pass.document.find? pass.document.root = some (rootItem, below))
    {todo : List NodeId}
    (calms : ∀ place ∈ below.places [.root], place.id ∈ todo → place.Calm) :
    ∃ raised after, forAttached todo collectRule pass = .ok () after ∧
      Collected pass rootItem below [] raised after := by
  refine visits_calm (fun pass tidy => (collect_root tidy).2)
    (fun pass place tidy under member calm => ?_) tidy under calms
  obtain ⟨left, stored, raised, after, ran, ruled, collected⟩ := collect_rule tidy under member
  cases ruled with
  | idle => exact ⟨raised, after, ran, collected⟩
  | dropped top defines =>
      rw [(calm (.inl top)).2] at defines
      cases defines
  | copied accepted defines =>
      rw [(calm (.inr accepted)).2] at defines
      cases defines
  | taken accepted defines =>
      rw [(calm (.inr accepted)).2] at defines
      cases defines

/-- A definition is taken out of the scope it stands in. -/
theorem take_declaration {name value : String} {expansion : Expansion} (tidy : pass.Tidy [] [])
    (under : pass.document.find? pass.document.root = some (rootItem, below))
    (around : Forest.Around scope rest (front ++ .cons ⟨id, own⟩ inner back) below)
    (plain : front.uncommented = front) (defines : own.kind.definition? = some (name, value))
    (expanded : expand own.source name value = .ok expansion) :
    ∃ more left raised after, forAttached [id] collectDeclaration pass = .ok () after ∧
      more.items = expansion.items.unmatched (front ++ .cons ⟨id, own⟩ inner back).kinds ∧
      Forest.Around scope rest (front ++ (more ++ back)) left ∧
      Collected pass rootItem left expansion.sets raised after := by
  have nodup := (Forest.nodup_below tidy.sound.nodup under).2
  have member := around.mem_child
  obtain ⟨item, isScope, rfl⟩ := around.exists_scope
  obtain ⟨left, stored, raised, after, ran, declared, collected⟩ :=
    collect_declaration tidy under member
  have attached : forAttached [id] collectDeclaration pass = .ok () after :=
    visit_attached tidy under (Forest.mem_ids_of_mem_places member) ran
  have read : (Place.ofNode [.rule rootSelector, .root] ⟨id, own⟩).expansion? = some expansion := by
    have accepted : (Place.ofNode [.rule rootSelector, .root] ⟨id, own⟩).Accepted := rfl
    simp only [Place.expansion?, Place.ofNode, defines, expanded] at accepted ⊢
    rw [if_pos accepted]
    rfl
  cases declared with
  | idle _ unread =>
      rw [unread] at read
      cases read
  | dropped top => cases top
  | @taken _ other item' own' front' inner' back' more known found isScope' new =>
      rw [read] at known
      cases known
      obtain ⟨rfl, rfl, rfl, rfl, rfl, rfl⟩ := Forest.child_unique nodup found
      rw [plain] at new collected
      exact ⟨more, _, raised, after, attached, new, Forest.around_settled isScope _ _, collected⟩

/-- A rule is registered, and it is taken out of its scope or left there. -/
theorem take_rule {name : String} (tidy : pass.Tidy [] [])
    (under : pass.document.find? pass.document.root = some (rootItem, below))
    (around : Forest.Around scope rest (front ++ .cons ⟨id, own⟩ inner back) below)
    (plain : front.uncommented = front) (defines : own.kind.ruleName? = some name) :
    ∃ keep left raised after, forAttached [id] collectRule pass = .ok () after ∧
      (keep = .nil ∨ keep = .tree ⟨id, own⟩ inner) ∧
      Forest.Around scope rest (front ++ (keep ++ back)) left ∧
      Collected pass rootItem left [⟨name, own, inner.items⟩] raised after := by
  have nodup := (Forest.nodup_below tidy.sound.nodup under).2
  have member := around.mem_child
  obtain ⟨item, isScope, rfl⟩ := around.exists_scope
  obtain ⟨left, stored, raised, after, ran, ruled, collected⟩ := collect_rule tidy under member
  have attached : forAttached [id] collectRule pass = .ok () after :=
    visit_attached tidy under (Forest.mem_ids_of_mem_places member) ran
  cases ruled with
  | idle unnamed =>
      cases (unnamed (.inr rfl)).symm.trans defines
  | dropped top => cases top
  | @copied other own' inner' accepted named stays found =>
      cases defines.symm.trans named
      have child : id ∈ (front ++ .cons ⟨id, own⟩ inner back).tops := by simp
      have here := (Forest.find?_cons_below nodup (Forest.mem_ids_of_mem_tops child)).trans
        (Forest.find?_split (Forest.nodup_parts nodup).2.1)
      cases found.symm.trans here
      exact ⟨_, _, raised, after, attached, .inr rfl, around, collected⟩
  | @taken other scope' item' own' front' inner' back' accepted named goes found isScope' =>
      cases defines.symm.trans named
      obtain ⟨rfl, rfl, rfl, rfl, rfl, rfl⟩ := Forest.child_unique nodup found
      rw [plain] at collected
      exact ⟨.nil, _, raised, after, attached, .inl rfl, Forest.around_settled isScope _ _,
        collected⟩

/-! ## One visit after the other -/

/-- What visits to children of a scope leave: the children behind `front` in the place of
those visited, which are as `fits` says, and the sets that are registered for `list`. -/
def Taken (collect : NodeId → Step Unit) (pass : Pass) (rootItem : Item) (scope : NodeId)
    (rest front back : Forest Node) (visited : List NodeId) (fits : Forest Node → Prop)
    (list : List Definition) : Prop :=
  ∃ new left stored raised after, forAttached visited collect pass = .ok () after ∧
    Forest.Around scope rest (front ++ (new ++ back)) left ∧ fits new ∧
    stored.map SetRule.entry = list.map Definition.entry ∧
    Collected pass rootItem left stored raised after

/-- What the visits to some children leave, and those to the children behind them. -/
theorem Taken.next {collect : NodeId → Step Unit} {visited waiting : List NodeId}
    {fits fitsMore fitsAll : Forest Node → Prop} {more : List Definition}
    (taken : Taken collect pass rootItem scope rest front back visited fits list)
    (later : ∀ {mid left new}, mid.Tidy [] [] →
      mid.document.find? mid.document.root = some (rootItem, left) →
      Forest.Around scope rest (front ++ new ++ back) left → fits new →
      Taken collect mid rootItem scope rest (front ++ new) .nil waiting fitsMore more)
    (both : ∀ {new others}, fits new → fitsMore others → fitsAll (new ++ others)) :
    Taken collect pass rootItem scope rest front .nil (visited ++ waiting) fitsAll
      (list ++ more) := by
  obtain ⟨new, mid, stored, raised, half, ran, around, fit, sets, collected⟩ := taken
  rw [← Forest.append_assoc] at around
  obtain ⟨others, left, storedMore, raisedMore, after, ranMore, aroundMore, fitMore, setsMore,
    collectedMore⟩ := later collected.tidy collected.under around fit
  refine ⟨new ++ others, left, stored ++ storedMore, raised ++ raisedMore, after,
    forAttached_append ran ranMore, ?_, both fit fitMore, ?_, collected.trans collectedMore⟩
  · rw [Forest.append_assoc, ← Forest.append_assoc]
    exact aroundMore
  · rw [List.map_append, List.map_append, sets, setsMore]

/-! ## The declarations of a scope -/

/-- The rules in the value of a declaration that are put in its place. -/
theorem rulesOf_unmatched {seen following more : List Definition} {present : List String}
    {name value : String} {body : Forest Item} {items : Forest Item}
    (rules : RulesOf done.items seen) (defines : own.kind.definition? = some (name, value))
    (later : Defines false back.items more)
    (swallows : ∀ definition ∈ following, definition.swallowed = true)
    (read : RulesOf items (Definition.rules following))
    (known : Definition.Present present seen
      (⟨name, .declaration, false, body⟩ :: (following ++ more))) :
    RulesOf (items.unmatched (done ++ .cons ⟨id, own⟩ inner back).kinds)
      (Definition.kept present (Definition.rules following)) := by
  refine read.unmatched
    (fun definition member => swallows definition (List.mem_of_mem_filter member)) fun other => ?_
  obtain ⟨property, kind⟩ := Kind.eq_declaration defines
  have isOther : .rule (writtenName other) ≠ own.kind := by simp [kind]
  rw [Forest.kinds_append, Forest.kinds_cons, List.mem_append, List.mem_cons,
    rules.mem_forest_kinds, or_iff_right isOther, Forest.kinds_eq, later.mem_kinds rfl, known,
    Definition.directNames_declaration rfl swallows]

/-- **The declarations of a scope, one after the other.**  Each is registered with those
in its value, and the rules there are put in its place where no rule of their name is. -/
theorem take_declarations {swallowed : Bool} {items : Forest Item}
    (defines : Defines swallowed items list) (direct : swallowed = false)
    (isTodo : todo.items = items) {seen : List Definition} {present : List String}
    (tidy : pass.Tidy [] [])
    (under : pass.document.find? pass.document.root = some (rootItem, below))
    (around : Forest.Around scope rest (done ++ todo) below) (rules : RulesOf done.items seen)
    (known : Definition.Present present seen list) :
    Taken collectDeclaration pass rootItem scope rest done .nil
      ((todo.placesOf Kind.isDeclaration [.rule rootSelector, .root]).map Place.id)
      (fun new => RulesOf new.items (Definition.kept present (Definition.rules list)))
      (Definition.declarations list) := by
  induction defines generalizing pass below done todo seen present with
  | nil =>
      cases todo with
      | nil =>
          exact ⟨.nil, below, [], [], pass, rfl, around, .nil, rfl,
            (answered_self tidy under).collected⟩
      | cons node inner others => cases isTodo
  | @rule swallowed item children rest' name more isRule named quiet later ih =>
      subst direct
      cases todo with
      | nil => cases isTodo
      | cons node inner others =>
          rw [Forest.items_cons, Forest.cons.injEq] at isTodo
          obtain ⟨rfl, rfl, rfl⟩ := isTodo
          -- What is below the rule is calm.
          have among : ∀ place ∈ inner.places [node.item.kind, .rule rootSelector, .root],
              place ∈ below.places [.root] := fun place member =>
            around.mem_places.1 place (by simp [Forest.places, member])
          obtain ⟨raised, mid, ran, collected⟩ := visits_declarations tidy under
            (Forest.calm_visits Kind.isDeclaration
              (Forest.nodup_below tidy.sound.nodup under).2 among quiet)
          have own : RulesOf (Forest.tree node inner).items
              [⟨name, .rule, false, inner.items.unplaced⟩] := .cons isRule named quiet rfl .nil
          have first : Taken collectDeclaration pass rootItem scope rest done others
              ((inner.placesOf Kind.isDeclaration
                [node.item.kind, .rule rootSelector, .root]).map Place.id)
              (fun new => RulesOf new.items [⟨name, .rule, false, inner.items.unplaced⟩]) [] :=
            ⟨_, below, [], raised, mid, ran, around, own, rfl, collected⟩
          have plain : node.item.kind.isDeclaration = false := by rw [isRule]; rfl
          rw [Forest.placesOf_cons, plain, if_neg Bool.false_ne_true, List.nil_append,
            List.map_append, Definition.kept_rule]
          exact first.next (fun tidy under around new =>
            ih rfl rfl tidy under around (rules.append_forest new) known.rule) RulesOf.append_forest
  | @declaration swallowed item rest' after name value split body following more isDefinition cut
      parsed trails inValue _ later _ ih =>
      subst direct
      cases todo with
      | nil => cases isTodo
      | cons node inner others =>
          rw [Forest.items_cons, Forest.cons.injEq] at isTodo
          obtain ⟨rfl, leaf, rfl⟩ := isTodo
          obtain ⟨id, item⟩ := node
          have swallows := inValue.swallowed_of_mem rfl
          obtain ⟨expansion, expanded, entries, items⟩ :
              ∃ expansion, expand item.source name value = .ok expansion ∧ _ :=
            expand_defines cut parsed trails inValue
          obtain ⟨new, mid, raised, half, ran, unmatched, aroundMid, collected⟩ :=
            take_declaration tidy under around rules.uncommented isDefinition expanded
          have newRules : RulesOf new.items
              (Definition.kept present (Definition.rules following)) :=
            unmatched ▸ rulesOf_unmatched rules isDefinition later swallows items known
          have first : Taken collectDeclaration pass rootItem scope rest done others [id]
              (fun new => RulesOf new.items
                (Definition.kept present (Definition.rules following)))
              (⟨name, .declaration, false, body.items.unplaced⟩ ::
                Definition.declarations following) :=
            ⟨new, mid, _, raised, half, ran, aroundMid, newRules, entries, collected⟩
          obtain ⟨property, kind⟩ : ∃ property, item.kind = .declaration property value :=
            Kind.eq_declaration isDefinition
          have isDeclaration : item.kind.isDeclaration = true := by rw [kind]; rfl
          have none_ : inner = .nil := by
            cases inner with
            | nil => rfl
            | cons node deeper more => cases leaf
          rw [Forest.placesOf_cons, isDeclaration, if_pos rfl, none_, List.map_append,
            Definition.kept_declaration, Definition.declarations_declaration, ← List.cons_append]
          exact first.next (fun tidy under around new =>
            ih rfl rfl tidy under around (rules.append_forest new) (known.declaration swallows _))
            RulesOf.append_forest

/-! ## The rules of a scope -/

/-- **The rules of a scope, one after the other.**  Each is registered. -/
theorem take_rules (rules : RulesOf todo.items list) {seen : List Definition}
    (tidy : pass.Tidy [] [])
    (under : pass.document.find? pass.document.root = some (rootItem, below))
    (around : Forest.Around scope rest (done ++ todo) below) (before : RulesOf done.items seen) :
    Taken collectRule pass rootItem scope rest done .nil
      ((todo.placesOf Kind.isRule [.rule rootSelector, .root]).map Place.id) (fun _ => True)
      list := by
  generalize isTodo : todo.items = items at rules
  induction rules generalizing pass below done todo seen with
  | nil =>
      cases todo with
      | nil =>
          exact ⟨.nil, below, [], [], pass, rfl, around, trivial, rfl,
            (answered_self tidy under).collected⟩
      | cons node inner others => cases isTodo
  | @cons _ _ _ own more isRule named quiet body later ih =>
      cases todo with
      | nil => cases isTodo
      | cons node inner others =>
          rw [Forest.items_cons, Forest.cons.injEq] at isTodo
          obtain ⟨rfl, rfl, rfl⟩ := isTodo
          obtain ⟨id, item⟩ := node
          have defines : item.kind.ruleName? = some own.name := by
            rw [isRule]
            exact named
          obtain ⟨keep, left, raised, half, ran, kept, aroundMid, collected⟩ :=
            take_rule tidy under around before.uncommented defines
          -- What is below the rule is calm, or gone with it.
          have calms : ∀ place ∈ left.places [.root],
              place.id ∈ (inner.placesOf Kind.isRule
                [item.kind, .rule rootSelector, .root]).map Place.id → place.Calm := by
            rcases kept with rfl | rfl
            · intro place member waits
              obtain ⟨other, visited, same⟩ := List.mem_map.mp waits
              exact absurd (same ▸ Forest.mem_ids_of_mem_placesOf visited)
                (Forest.Around.gone (Forest.nodup_below tidy.sound.nodup under).2 around aroundMid
                  member)
            · refine Forest.calm_visits _
                (Forest.nodup_below collected.tidy.sound.nodup collected.under).2
                (fun place member => aroundMid.mem_places.1 place ?_) quiet
              simp [Forest.tree, Forest.places, member]
          obtain ⟨raisedMore, mid, ranInner, collectedInner⟩ :=
            visits_rules collected.tidy collected.under calms
          have stays : ∃ list, RulesOf keep.items list := by
            rcases kept with rfl | rfl
            · exact ⟨_, .nil⟩
            · exact ⟨_, .cons isRule named quiet body .nil⟩
          have first : Taken collectRule pass rootItem scope rest done others
              ([id] ++ (inner.placesOf Kind.isRule
                [item.kind, .rule rootSelector, .root]).map Place.id)
              (fun new => ∃ list, RulesOf new.items list) [own] :=
            ⟨keep, left, _, _, mid, forAttached_append ran ranInner, aroundMid, stays,
              by simp [SetRule.entry, Definition.entry, body], collected.trans collectedInner⟩
          have visited : item.kind.isRule = true := by rw [isRule]; rfl
          rw [Forest.placesOf_cons, visited, if_pos rfl, List.map_append, List.map_append,
            ← List.append_assoc]
          exact first.next (fun tidy under around left => left.elim fun _ rules =>
            ih tidy under around (before.append_forest rules) rfl) fun _ _ => trivial

/-! ## A whole scope -/

theorem calm_first {first : List Place} (tidy : pass.Tidy [] [])
    (under : pass.document.find? pass.document.root = some (rootItem, below))
    (calm : ∀ place ∈ first, place ∈ below.places [.root] ∧ place.Calm) :
    ∀ place ∈ below.places [.root], place.id ∈ first.map Place.id → place.Calm := by
  intro place member waits
  obtain ⟨other, among, same⟩ := List.mem_map.mp waits
  obtain rfl := Forest.eq_of_mem_places (Forest.nodup_below tidy.sound.nodup under).2
    (calm other among).1 member same
  exact (calm other among).2

/-- The declarations under a root that holds one scope. -/
theorem extractDeclarations_around (tidy : pass.Tidy [] [])
    (under : pass.document.find? pass.document.root = some (rootItem, below))
    (around : Forest.Around scope rest todo below) (defines : Defines false todo.items list)
    (quiet : rest.items.quiet .root = true) :
    ∃ new left stored raised after, extractDeclarations pass = .ok () after ∧
      Forest.Around scope rest new left ∧
      RulesOf new.items
        (Definition.kept (Definition.directNames list) (Definition.rules list)) ∧
      stored.map SetRule.entry = (Definition.declarations list).map Definition.entry ∧
      Collected pass rootItem left stored raised after := by
  obtain ⟨first, places, calm⟩ := around.placesOf Kind.isDeclaration
  obtain ⟨raised, one, ranFirst, collectedFirst⟩ :=
    visits_declarations tidy under (calm_first tidy under calm)
  have begun : RulesOf (Forest.nil : Forest Node).items [] := .nil
  have known : Definition.Present (Definition.directNames list) [] list := fun name => by simp
  obtain ⟨new, left, stored, raised', two, ran, aroundNew, rules, sets, collected⟩ :=
    take_declarations defines rfl rfl collectedFirst.tidy collectedFirst.under around begun known
  rw [Forest.append_nil] at aroundNew
  obtain ⟨raised'', after, ranRest, collectedRest⟩ :=
    visits_declarations collected.tidy collected.under
      (Forest.calm_visits Kind.isDeclaration
        (Forest.nodup_below collected.tidy.sound.nodup collected.under).2
        aroundNew.mem_places.2 quiet)
  refine ⟨new, left, _, _, after, ?_, aroundNew, rules, ?_,
    (collectedFirst.trans collected).trans collectedRest⟩
  · refine (bind_ok (underRoot_places under _)).trans ?_
    rw [places, List.map_append, List.map_append]
    exact forAttached_append ranFirst (forAttached_append ran ranRest)
  · rw [List.append_nil, List.nil_append, sets]

/-- The rules under a root that holds one scope. -/
theorem extractRules_around (tidy : pass.Tidy [] [])
    (under : pass.document.find? pass.document.root = some (rootItem, below))
    (around : Forest.Around scope rest todo below) (rules : RulesOf todo.items list)
    (quiet : rest.items.quiet .root = true) :
    ∃ left stored raised after, extractRules pass = .ok () after ∧
      stored.map SetRule.entry = list.map Definition.entry ∧
      Collected pass rootItem left stored raised after := by
  obtain ⟨first, places, calm⟩ := around.placesOf Kind.isRule
  obtain ⟨raised, one, ranFirst, collectedFirst⟩ :=
    visits_rules tidy under (calm_first tidy under calm)
  have begun : RulesOf (Forest.nil : Forest Node).items [] := .nil
  obtain ⟨new, left, stored, raised', two, ran, aroundNew, -, sets, collected⟩ :=
    take_rules rules collectedFirst.tidy collectedFirst.under around begun
  rw [Forest.append_nil] at aroundNew
  obtain ⟨raised'', after, ranRest, collectedRest⟩ :=
    visits_rules collected.tidy collected.under
      (Forest.calm_visits Kind.isRule
        (Forest.nodup_below collected.tidy.sound.nodup collected.under).2
        aroundNew.mem_places.2 quiet)
  refine ⟨left, _, _, after, ?_, ?_, (collectedFirst.trans collected).trans collectedRest⟩
  · refine (bind_ok (underRoot_places under _)).trans ?_
    rw [places, List.map_append, List.map_append]
    exact forAttached_append ranFirst (forAttached_append ran ranRest)
  · rw [List.append_nil, List.nil_append, sets]

end Step

/-- What is registered for a name, without the places it was written at. -/
def Pass.body? (pass : Pass) (name : String) : Option (Forest Item) :=
  (pass.sets name).map fun pair => pair.2.unplaced

/-- What is found where definitions stand one after the other in the one scope of a document. -/
theorem Step.extract_defines {css : String} {document : Document} (options : Options) {scope : Item}
    {children rest : Forest Item} {list : List Definition}
    (parsed : Document.parse css = .ok document)
    (written : document.items = .cons scope children rest)
    (isScope : scope.kind = .rule rootSelector) (defines : Defines false children list)
    (quiet : rest.quiet .root = true) :
    ∃ after, Step.extract { document, options } = .ok () after ∧
      (∀ name, name ∈ after.registry.names ↔ name ∈ list.map Definition.name) ∧
      ∀ name, after.body? name = (Definition.counting name list).map Definition.body ∧
        ((Definition.ofName .rule name list).length ≤ 1 ∨
            (∀ last, (Definition.ofName .rule name list).getLast? = some last →
              last.swallowed = false) →
          after.body? name = (Definition.overriding name list).map Definition.body) := by
  have tidy := Pass.tidy_of_parse parsed options
  obtain ⟨rootItem, below, under, -⟩ := tidy.sound.root
  have items : below.items = .cons scope children rest := by
    rw [← written, Document.items, under]
    rfl
  cases below with
  | nil => cases items
  | cons node inner others =>
      rw [Forest.items_cons, Forest.cons.injEq] at items
      obtain ⟨rfl, rfl, rfl⟩ := items
      have around : Forest.Around node.id others inner (.cons node inner others) :=
        .inl ⟨node.item, isScope, rfl⟩
      obtain ⟨new, left, stored, raised, mid, ranDeclarations, aroundNew, rules, sets, declared⟩ :=
        Step.extractDeclarations_around tidy under around defines quiet
      obtain ⟨last, more, raised', after, ranRules, setsMore, ruled⟩ :=
        Step.extractRules_around declared.tidy declared.under aroundNew rules quiet
      have registers := declared.registers.trans ruled.registers
      have entries : (stored ++ more).map SetRule.entry =
          (Definition.declarations list ++ Definition.kept (Definition.directNames list)
            (Definition.rules list)).map Definition.entry := by
        rw [List.map_append, List.map_append, sets, setsMore]
      have body : ∀ name, after.body? name =
          (Definition.counting name list).map Definition.body := by
        intro name
        have empty : ∀ name, ({ document, options } : Pass).sets name = none := fun _ => rfl
        rw [Pass.body?, registers.sets, Sets.body_foldl_put entries empty, Definition.getLast?_kept]
      refine ⟨after, (bind_ok ranDeclarations).trans ranRules, fun name => ?_,
        fun name => ⟨body name, fun clear => ?_⟩⟩
      · have names := congrArg (List.map Prod.fst) entries
        rw [List.map_map, List.map_map] at names
        rw [registers.names, mem_foldl_addName, ← Definition.mem_names_kept]
        have none_ : name ∉ ({ document, options } : Pass).registry.names := List.not_mem_nil
        rw [or_iff_right none_]
        exact names ▸ Iff.rfl
      · rw [body, Definition.counting_eq_overriding clear]

end ApplyRule
