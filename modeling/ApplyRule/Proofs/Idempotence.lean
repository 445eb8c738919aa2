/-
# ApplyRule.Proofs.Idempotence -- what is found once is found

Extraction visits the declarations and then the rules that are there when it begins.
Once it is done, a second one finds nothing new: what is left was visited, and is
reported again at most.  Rules that are to stay are registered again, with the same
content in the same order (`Forest.ruleSets`).

The exception is what was not there when the first one began.  The text after the
block of a definition is read and put in its place, and none of it is visited.  A
definition inside a rule for the document root in that text is found the second time
only (`extract_again_nested`).  `Place.tame` says that a definition brings no such
text, and `extract_twice` that extraction is idempotent where all definitions are
tame.
-/
import ApplyRule.Proofs.Operations

namespace ApplyRule

set_option autoImplicit false

open Document

/-- Whether there is nothing to take out in a place: no declaration there defines a
set that is accepted and can be read, or is dropped. -/
def Place.spent (place : Place) : Bool :=
  place.expansion?.isNone && !(decide place.Topmost && place.kind.definition?.isSome)

/-- Whether there is nothing to take out of a forest below an item of the kind
`parent`. -/
def Forest.spent (parent : Kind) : Forest Item → Bool
  | .nil => true
  | .cons item children rest =>
      (Place.ofNode [parent] ⟨.null, item⟩).spent && children.spent item.kind && rest.spent parent

/-- Whether nothing that comes in the place of a definition could be taken out in its
turn. -/
def Place.tame (place : Place) : Bool :=
  place.expansion?.all fun expansion => expansion.items.spent (.rule rootSelector)

namespace Place

variable {place other : Place}

/-- What decides is the nearest node above. -/
theorem spent_congr (above : place.above.head? = other.above.head?) (kind : place.kind = other.kind)
    (source : place.source = other.source) : place.spent = other.spent := by
  unfold spent expansion? Topmost Accepted
  simp only [above, kind, source]
  rfl

theorem spent_of_idle (plain : place.Topmost → place.kind.definition? = none)
    (unread : place.expansion? = none) : place.spent = true := by
  rw [spent, unread]
  by_cases top : place.Topmost
  · simp [plain top]
  · simp [top]

end Place

namespace Forest

variable {forest : Forest Node} {place : Place} {parent : Kind}

theorem spent_of_mem_places {path : List Kind} (spent : forest.items.spent parent = true)
    (member : place ∈ forest.places (parent :: path)) : place.spent = true := by
  induction forest generalizing parent path with
  | nil => cases member
  | cons node children rest ihc ihr =>
      have parts : ((Place.ofNode [parent] ⟨.null, node.item⟩).spent = true ∧
          children.items.spent node.item.kind = true) ∧ rest.items.spent parent = true := by
        rw [← Bool.and_eq_true, ← Bool.and_eq_true]
        exact spent
      rcases List.mem_cons.mp member with rfl | deeper
      · rw [← parts.1.1]
        exact Place.spent_congr rfl rfl rfl
      · rcases List.mem_append.mp deeper with inside | outside
        · exact ihc parts.1.2 inside
        · exact ihr parts.2 outside

theorem spent_unmatched {items : Forest Item} (spent : items.spent parent = true)
    (present : List Kind) : (items.unmatched present).spent parent = true := by
  induction items generalizing present with
  | nil => rfl
  | cons item children rest _ ih =>
      rw [Forest.spent, Bool.and_eq_true, Bool.and_eq_true] at spent
      rw [unmatched]
      split
      · exact ih spent.2 present
      · rw [Forest.spent, Bool.and_eq_true, Bool.and_eq_true]
        exact ⟨spent.1, ih spent.2 _⟩

/-- The set that a rule in the forest defines. -/
def setAt? (forest : Forest Node) (place : Place) : Option SetRule :=
  if place.Accepted then
    place.kind.ruleName?.bind fun name =>
      (forest.find? place.id).map fun pair => ⟨name, pair.1, pair.2.items⟩
  else none

theorem setAt?_of_none (plain : place.Accepted → place.kind.ruleName? = none) :
    forest.setAt? place = none := by
  unfold setAt?
  split
  · rename_i accepted
    rw [plain accepted]
    rfl
  · rfl

theorem setAt?_of_found {name : String} {own : Item} {inner : Forest Node}
    (accepted : place.Accepted) (defines : place.kind.ruleName? = some name)
    (found : forest.find? place.id = some (own, inner)) :
    forest.setAt? place = some ⟨name, own, inner.items⟩ := by
  rw [setAt?, if_pos accepted, defines, Option.bind_some, found]
  rfl

/-- The sets that the rules in the forest define, in document order. -/
def ruleSets (forest : Forest Node) : List SetRule :=
  (forest.placesOf Kind.isRule [.root]).filterMap forest.setAt?

end Forest

/-! ## Registering again -/

/-- The last of several sets of a name counts. -/
theorem Sets.foldl_put_eq (list : List SetRule) (sets : Sets) (name : String) :
    list.foldl Sets.put sets name =
      ((list.reverse.find? fun set => set.name = name).map fun set =>
        (set.item, set.children)).or (sets name) := by
  induction list using List.reverseRecOn with
  | nil => rfl
  | append_singleton rest set ih =>
      rw [List.foldl_append, List.foldl_cons, List.foldl_nil, List.reverse_append,
        List.reverse_singleton, List.singleton_append, List.find?_cons]
      by_cases same : set.name = name
      · simp [Sets.put, same]
      · simp [Sets.put, same, ih]

theorem Sets.foldl_put_twice (list : List SetRule) (sets : Sets) :
    list.foldl Sets.put (list.foldl Sets.put sets) = list.foldl Sets.put sets := by
  funext name
  rw [foldl_put_eq, foldl_put_eq, ← Option.or_assoc, Option.or_self]

theorem mem_addName {name other : String} {names : List String} :
    other ∈ addName names name ↔ other ∈ names ∨ other = name := by
  unfold addName
  split
  · rename_i known
    exact ⟨.inl, fun member => member.elim id fun same => same ▸ known⟩
  · rw [List.mem_append, List.mem_singleton]

theorem mem_foldl_addName {name : String} {list names : List String} :
    name ∈ list.foldl addName names ↔ name ∈ names ∨ name ∈ list := by
  induction list generalizing names with
  | nil => simp
  | cons first rest ih => rw [List.foldl_cons, ih, mem_addName, List.mem_cons, or_assoc]

theorem foldl_addName_of_subset {list names : List String} (known : ∀ name ∈ list, name ∈ names) :
    list.foldl addName names = names := by
  induction list with
  | nil => rfl
  | cons first rest ih =>
      have present : addName names first = names := if_pos (known first List.mem_cons_self)
      rw [List.foldl_cons, present, ih fun name member => known name (List.mem_cons_of_mem _ member)]

namespace Step

variable {start pass once : Pass} {id : NodeId} {rootItem : Item} {first below : Forest Node}
  {todo : List NodeId} {place : Place}

/-- To register the same sets again changes nothing. -/
theorem Registers.again {list : List SetRule} (one : Registers start list once)
    (other : Registers once list pass) :
    pass.registry.names = once.registry.names ∧ pass.sets = once.sets := by
  constructor
  · rw [other.names]
    refine foldl_addName_of_subset ?_
    rw [one.names]
    exact fun name member => mem_foldl_addName.mpr (.inr member)
  · rw [other.sets, one.sets, Sets.foldl_put_twice]

/-! ## Declarations -/

/-- How far a loop over the declarations has come: what can be taken out is still to
come. -/
structure Declaring (start : Pass) (rootItem : Item) (todo : List NodeId) (below : Forest Node)
    (pass : Pass) : Prop where
  tidy : pass.Tidy [] []
  options : pass.options = start.options
  under : pass.document.find? pass.document.root = some (rootItem, below)
  pending : ∀ place ∈ below.places [.root], place.spent = false →
    place.id ∈ todo ∧ place.tame = true

/-- **One declaration.**  What comes in its place is spent. -/
theorem Declaring.visit (declaring : Declaring start rootItem (id :: todo) below pass)
    (alive : id ∈ below.ids) :
    ∃ after, collectDeclaration id pass = .ok () after ∧
      ∃ left, Declaring start rootItem todo left after := by
  obtain ⟨tidy, options, under, pending⟩ := declaring
  have nodup := (Forest.nodup_below tidy.sound.nodup under).2
  obtain ⟨place, member, rfl⟩ : ∃ place ∈ below.places [.root], place.id = id :=
    Forest.exists_place alive
  obtain ⟨left, stored, raised, after, ran, declared, collected⟩ :=
    collect_declaration tidy under member
  refine ⟨after, ran, left, collected.tidy, collected.options.trans options, collected.under, ?_⟩
  -- What was there before and is not the declaration is still to come.
  have later : ∀ other ∈ below.places [.root], other.id ≠ place.id → other.spent = false →
      other.id ∈ todo ∧ other.tame = true := by
    intro other among ne unspent
    obtain ⟨waits, tame⟩ := pending other among unspent
    exact ⟨(List.mem_cons.mp waits).resolve_left ne, tame⟩
  intro other among unspent
  cases declared with
  | idle plain unread =>
      refine later other among (fun same => ?_) unspent
      obtain rfl := Forest.eq_of_mem_places nodup among member same
      rw [Place.spent_of_idle plain unread] at unspent
      cases unspent
  | dropped =>
      obtain ⟨_, _, found⟩ := Forest.exists_find? alive
      obtain ⟨stays, apart⟩ := Forest.mem_places_without nodup found among
      exact later other stays (fun same => apart (same ▸ List.mem_cons_self)) unspent
  | @taken expansion scope item own front inner back more read found isScope new =>
      obtain ⟨path, old, outside⟩ := Forest.places_settled nodup found [.root]
      have nodupChildren := (Forest.nodup_below nodup found).2
      rcases outside _ other among with ⟨stays, apart⟩ | inside
      · exact later other stays (fun same => apart (same ▸ by simp)) unspent
      · -- A sibling of the declaration, or what comes in its place.
        have sibling : other ∈ front.places (item.kind :: path) ∨
            other ∈ back.places (item.kind :: path) → other.id ∈ todo ∧ other.tame = true := by
          intro beside
          obtain ⟨stays, ne⟩ := Forest.places_beside nodupChildren beside
          exact later other (old other stays) ne unspent
        rw [Forest.places_append, Forest.places_append, List.mem_append, List.mem_append] at inside
        rcases inside with before | newcomer | after
        · exact sibling (.inl (Forest.mem_places_uncommented before))
        · have tame : place.tame = true := by
            refine (pending place member ?_).2
            simp [Place.spent, read]
          rw [Place.tame, read, Option.all_some] at tame
          have spent : more.items.spent item.kind = true := by
            rw [new, isScope]
            exact Forest.spent_unmatched tame _
          rw [Forest.spent_of_mem_places spent newcomer] at unspent
          cases unspent
        · exact sibling (.inr after)

/-- After all declarations were visited there is nothing left to take out. -/
theorem exhausted_extractDeclarations (tidy : start.Tidy [] [])
    (rootFound : start.document.find? start.document.root = some (rootItem, below))
    (tame : ∀ place ∈ below.places [.root], place.tame = true) :
    ∃ after, extractDeclarations start = .ok () after ∧
      ∃ left, Declaring start rootItem [] left after := by
  have begun : Declaring start rootItem
      ((below.placesOf Kind.isDeclaration [.root]).map Place.id) below start := by
    refine ⟨tidy, rfl, rootFound, fun place member unspent => ⟨?_, tame place member⟩⟩
    refine List.mem_map_of_mem (List.mem_filter.mpr ⟨member, ?_⟩)
    cases shape : place.kind with
    | declaration property value => rfl
    | _ =>
        have plain : place.kind.definition? = none := by rw [shape]; rfl
        rw [Place.spent_of_idle (fun _ => plain) (by simp [Place.expansion?, plain])] at unspent
        cases unspent
  obtain ⟨after, ran, done⟩ := loop_attached
    (fun todo pass => ∃ left, Declaring start rootItem todo left pass)
    (by
      rintro id todo pass ⟨left, declaring⟩
      refine round_attached declaring.tidy declaring.under (collect_root declaring.tidy).1
        declaring.visit fun gone => ?_
      refine ⟨left, declaring.tidy, declaring.options, declaring.under, ?_⟩
      intro place member unspent
      obtain ⟨waits, tame⟩ := declaring.pending place member unspent
      refine ⟨(List.mem_cons.mp waits).resolve_left fun same => gone ?_, tame⟩
      exact same ▸ Forest.mem_ids_of_mem_places member)
    ⟨below, begun⟩
  exact ⟨after, (bind_ok (underRoot_places rootFound _)).trans ran, done⟩

/-- Where there is nothing to take out, declarations are only reported. -/
theorem extractDeclarations_spent (tidy : start.Tidy [] [])
    (rootFound : start.document.find? start.document.root = some (rootItem, below))
    (spent : ∀ place ∈ below.places [.root], place.spent = true) :
    ∃ raised after, extractDeclarations start = .ok () after ∧
      Collected start rootItem below [] raised after := by
  obtain ⟨raised, after, ran, done⟩ := visits_calm (fun pass tidy => (collect_root tidy).1)
    (fun pass place tidy under member done => by
      obtain ⟨left, stored, raised, after, ran, declared, step⟩ :=
        collect_declaration tidy under member
      cases declared with
      | idle => exact ⟨raised, after, ran, step⟩
      | dropped top defines => simp [Place.spent, top, defines] at done
      | taken read => simp [Place.spent, read] at done)
    tidy rootFound fun place member _ => spent place member
  exact ⟨raised, after, (bind_ok (underRoot_places rootFound _)).trans ran, done⟩

/-! ## Rules -/

/-- How far a loop over the rules has come.  If definitions are to stay, those that
were seen are registered. -/
structure Ruling (start : Pass) (rootItem : Item) (first : Forest Node) (todo : List NodeId)
    (below : Forest Node) (pass : Pass) : Prop where
  tidy : pass.Tidy [] []
  options : pass.options = start.options
  under : pass.document.find? pass.document.root = some (rootItem, below)
  within : ∀ place ∈ below.places [.root], place ∈ first.places [.root]
  topmost : ∀ place ∈ below.places [.root], place.Topmost →
    place.kind.ruleName?.isSome = true → place.id ∈ todo
  accepted : start.options.preserve = false → ∀ place ∈ below.places [.root], place.Accepted →
    place.kind.ruleName?.isSome = true → place.id ∈ todo
  stay : start.options.preserve = true → ∃ seen, below.Walk Kind.isRule [.root] todo seen ∧
    Registers start (seen.filterMap below.setAt?) pass

/-- A rule that stays is found where it was when a child of the root is removed. -/
theorem setAt?_without (tidy : pass.Tidy [] [])
    (rootFound : pass.document.find? pass.document.root = some (rootItem, below))
    (member : place ∈ below.places [.root]) (top : place.Topmost) {other : Place}
    (stays : other ∈ (below.without place.id).places [.root]) :
    (below.without place.id).setAt? other = below.setAt? other := by
  have nodup := (Forest.nodup_below tidy.sound.nodup rootFound).2
  obtain ⟨item, children, found⟩ := Forest.exists_find? (Forest.mem_ids_of_mem_places member)
  obtain ⟨among, outside⟩ := Forest.mem_places_without nodup found stays
  by_cases accepted : other.Accepted
  · -- An accepted rule is no child of the root, and the removed one is.
    have isTop : place.id ∈ below.tops := by
      obtain ⟨_, kind, -, -, above, ⟨-, child⟩ | ⟨_, _, _, rfl, notRoot, -⟩⟩ :=
        tidy.sound.parent_of_place rootFound member
      · exact child
      · rw [(Place.topmost_iff above).mp top] at notRoot
        cases notRoot
    have inner : other.id ∉ below.tops := by
      obtain ⟨_, kind, -, -, above, ⟨rfl, -⟩ | ⟨_, _, parentFound, -, -, child⟩⟩ :=
        tidy.sound.parent_of_place rootFound among
      · cases (Place.accepted_iff above).mp accepted
      · exact Forest.not_mem_tops_below nodup parentFound (Forest.mem_ids_of_mem_tops child)
    rw [Forest.setAt?, Forest.setAt?, Forest.find?_without nodup isTop found inner outside]
  · rw [Forest.setAt?, Forest.setAt?, if_neg accepted, if_neg accepted]

namespace Ruling

variable {left : Forest Node} {stored : List SetRule} {raised : List Warning} {after : Pass}
  (ruling : Ruling start rootItem first (place.id :: todo) below pass)

include ruling

/-- What is left after one rule is still to come, unless it is the rule itself, which is then
not to be taken out. -/
theorem step (collected : Collected pass rootItem left stored raised after)
    (old : ∀ other ∈ left.places [.root], other ∈ below.places [.root])
    (done : ∀ other ∈ left.places [.root], other.id = place.id →
      other.kind.ruleName?.isSome = true →
        ¬ other.Topmost ∧ (start.options.preserve = false → ¬ other.Accepted))
    (stay : start.options.preserve = true → ∃ seen, left.Walk Kind.isRule [.root] todo seen ∧
      Registers start (seen.filterMap left.setAt?) after) :
    Ruling start rootItem first todo left after where
  tidy := collected.tidy
  options := collected.options.trans ruling.options
  under := collected.under
  within other among := ruling.within other (old other among)
  topmost other among top defines := by
    have waits := ruling.topmost other (old other among) top defines
    exact (List.mem_cons.mp waits).resolve_left fun same => (done other among same defines).1 top
  accepted goes other among isAccepted defines := by
    have waits := ruling.accepted goes other (old other among) isAccepted defines
    exact (List.mem_cons.mp waits).resolve_left fun same =>
      (done other among same defines).2 goes isAccepted
  stay := stay

/-- A rule that stays comes after those that were seen. -/
theorem registered (member : place ∈ below.places [.root])
    (registers : Registers pass (below.setAt? place).toList after)
    (stays : start.options.preserve = true) :
    ∃ seen, below.Walk Kind.isRule [.root] todo seen ∧
      Registers start (seen.filterMap below.setAt?) after := by
  obtain ⟨seen, walk, before⟩ := ruling.stay stays
  have nodup := (Forest.nodup_below ruling.tidy.sound.nodup ruling.under).2
  refine ⟨seen ++ [place], walk.leave nodup member rfl, ?_⟩
  have own : [place].filterMap below.setAt? = (below.setAt? place).toList := by
    cases set : below.setAt? place <;> simp [set]
  rw [List.filterMap_append, own]
  exact before.trans registers

/-- A rule that goes from under the root was not among those that were seen. -/
theorem unregistered (member : place ∈ below.places [.root]) (top : place.Topmost)
    (registers : Registers pass [] after) (stays : start.options.preserve = true) :
    ∃ seen, (below.without place.id).Walk Kind.isRule [.root] todo seen ∧
      Registers start (seen.filterMap (below.without place.id).setAt?) after := by
  obtain ⟨seen, walk, before⟩ := ruling.stay stays
  have nodup := (Forest.nodup_below ruling.tidy.sound.nodup ruling.under).2
  obtain ⟨item, children, found⟩ := Forest.exists_find? (Forest.mem_ids_of_mem_places member)
  obtain ⟨ahead, split, gone⟩ := walk.without nodup found
  refine ⟨seen, ⟨ahead, split, gone⟩, ?_⟩
  have sets : seen.filterMap (below.without place.id).setAt? = seen.filterMap below.setAt? := by
    refine List.filterMap_congr fun other among => ?_
    refine setAt?_without ruling.tidy ruling.under member top
      (Forest.mem_places_of_mem_placesOf (p := Kind.isRule) ?_)
    rw [split]
    exact List.mem_append_left _ among
  rw [sets, ← List.append_nil (seen.filterMap below.setAt?)]
  exact before.trans registers

omit ruling in
/-- **One rule.**  It is registered, and what is left is still to come. -/
theorem visit (ruling : Ruling start rootItem first (id :: todo) below pass)
    (alive : id ∈ below.ids) :
    ∃ after, collectRule id pass = .ok () after ∧
      ∃ left, Ruling start rootItem first todo left after := by
  have nodup := (Forest.nodup_below ruling.tidy.sound.nodup ruling.under).2
  obtain ⟨place, member, rfl⟩ : ∃ place ∈ below.places [.root], place.id = id :=
    Forest.exists_place alive
  obtain ⟨left, stored, raised, after, ran, ruled, collected⟩ :=
    collect_rule ruling.tidy ruling.under member
  rw [ruling.options] at ruled
  refine ⟨after, ran, left, ?_⟩
  have itself : ∀ other ∈ below.places [.root], other.id = place.id → other = place :=
    fun other among same => Forest.eq_of_mem_places nodup among member same
  cases ruled with
  | idle plain =>
      refine ruling.step collected (fun _ => id) (fun other among same defines => ?_)
        (ruling.registered member ?_)
      · obtain rfl := itself other among same
        refine ⟨fun top => ?_, fun _ isAccepted => ?_⟩
        · rw [plain (.inl top)] at defines
          cases defines
        · rw [plain (.inr isAccepted)] at defines
          cases defines
      · rw [Forest.setAt?_of_none fun isAccepted => plain (.inr isAccepted)]
        exact collected.registers
  | dropped top defines =>
      obtain ⟨item, children, found⟩ := Forest.exists_find? alive
      refine ruling.step collected (fun other among => ?_) (fun other among same => ?_)
        (ruling.unregistered member top collected.registers)
      · exact (Forest.mem_places_without nodup found among).1
      · obtain ⟨-, apart⟩ := Forest.mem_places_without nodup found among
        exact absurd (same ▸ List.mem_cons_self) apart
  | @copied name own inner isAccepted defines stays inside =>
      refine ruling.step collected (fun _ => id) (fun other among same _ => ?_)
        (ruling.registered member ?_)
      · obtain rfl := itself other among same
        refine ⟨fun top => ?_, fun goes => ?_⟩
        · rw [Place.Topmost, isAccepted] at top
          cases top
        · rw [stays] at goes
          cases goes
      · rw [Forest.setAt?_of_found isAccepted defines inside]
        exact collected.registers
  | @taken name scope item own front inner back isAccepted defines goes scopeFound isScope =>
      obtain ⟨path, old, outside⟩ := Forest.places_settled nodup scopeFound [.root]
      have nodupChildren := (Forest.nodup_below nodup scopeFound).2
      have others : ∀ other ∈ (Forest.settled scope item (front.uncommented ++ back)
          below).places [.root], other ∈ below.places [.root] ∧ other.id ≠ place.id := by
        intro other among
        rcases outside _ other among with ⟨stays, apart⟩ | inside
        · exact ⟨stays, fun same => apart (same ▸ by simp)⟩
        · rw [Forest.places_append, List.mem_append] at inside
          obtain ⟨stays, ne⟩ := Forest.places_beside nodupChildren
            (inside.imp_left Forest.mem_places_uncommented)
          exact ⟨old other stays, ne⟩
      refine ruling.step collected (fun other among => (others other among).1)
        (fun other among same => absurd same (others other among).2) fun stays => ?_
      rw [stays] at goes
      cases goes

end Ruling

theorem isRule_of_ruleName? {kind : Kind} (defines : kind.ruleName?.isSome = true) :
    kind.isRule = true := by
  cases kind with
  | rule selector => rfl
  | _ => cases defines

/-- After all rules were visited, no definition is left but those that are to stay. -/
theorem exhausted_extractRules (tidy : start.Tidy [] [])
    (rootFound : start.document.find? start.document.root = some (rootItem, below)) :
    ∃ after, extractRules start = .ok () after ∧
      ∃ left, Ruling start rootItem below [] left after := by
  have waits : ∀ place ∈ below.places [.root], place.kind.ruleName?.isSome = true →
      place.id ∈ (below.placesOf Kind.isRule [.root]).map Place.id := fun place member defines =>
    List.mem_map_of_mem (List.mem_filter.mpr ⟨member, isRule_of_ruleName? defines⟩)
  have begun : Ruling start rootItem below ((below.placesOf Kind.isRule [.root]).map Place.id)
      below start :=
    ⟨tidy, rfl, rootFound, fun _ member => member, fun place member _ => waits place member,
      fun _ place member _ => waits place member, fun _ => ⟨[], .start .., rfl, rfl⟩⟩
  obtain ⟨after, ran, done⟩ := loop_attached
    (fun todo pass => ∃ left, Ruling start rootItem below todo left pass)
    (fun id todo pass ⟨left, ruling⟩ =>
      round_attached ruling.tidy ruling.under (collect_root ruling.tidy).2 ruling.visit
        fun gone => by
          have still : ∀ place ∈ left.places [.root], place.id ∈ id :: todo → place.id ∈ todo :=
            fun place member waits => (List.mem_cons.mp waits).resolve_left fun same =>
              gone (same ▸ Forest.mem_ids_of_mem_places member)
          refine ⟨left, ruling.tidy, ruling.options, ruling.under, ruling.within, ?_, ?_, ?_⟩
          · exact fun place member top defines =>
              still place member (ruling.topmost place member top defines)
          · exact fun goes place member accepted defines =>
              still place member (ruling.accepted goes place member accepted defines)
          · intro stays
            obtain ⟨seen, walk, registers⟩ := ruling.stay stays
            exact ⟨seen, walk.skip gone, registers⟩)
    ⟨below, begun⟩
  exact ⟨after, (bind_ok (underRoot_places rootFound _)).trans ran, done⟩

/-- Where no definition is left but those that are to stay, these are registered. -/
theorem extractRules_spent (tidy : start.Tidy [] [])
    (rootFound : start.document.find? start.document.root = some (rootItem, below))
    (topmost : ∀ place ∈ below.places [.root], place.Topmost → place.kind.ruleName? = none)
    (accepted : start.options.preserve = false → ∀ place ∈ below.places [.root],
      place.Accepted → place.kind.ruleName? = none) :
    ∃ raised after, extractRules start = .ok () after ∧
      Collected start rootItem below below.ruleSets raised after := by
  have nodup := (Forest.nodup_below tidy.sound.nodup rootFound).2
  obtain ⟨after, ran, seen, raised, walk, done⟩ := loop_attached
    (fun todo pass => ∃ seen raised, below.Walk Kind.isRule [.root] todo seen ∧
      Collected start rootItem below (seen.filterMap below.setAt?) raised pass)
    (fun id todo pass ⟨seen, raised, walk, collected⟩ =>
      round_attached collected.tidy collected.under (collect_root collected.tidy).2
        (fun alive => by
          obtain ⟨place, member, rfl⟩ : ∃ place ∈ below.places [.root], place.id = id :=
            Forest.exists_place alive
          obtain ⟨left, stored, new, after, ran, ruled, step⟩ :=
            collect_rule collected.tidy collected.under member
          refine ⟨after, ran, seen ++ [place], raised ++ new, walk.leave nodup member rfl, ?_⟩
          rw [collected.options] at ruled
          rw [List.filterMap_append]
          cases ruled with
          | idle plain =>
              have nothing : below.setAt? place = none :=
                Forest.setAt?_of_none fun isAccepted => plain (.inr isAccepted)
              rw [List.filterMap_cons_none nothing, List.filterMap_nil]
              exact collected.trans step
          | dropped top defines =>
              rw [topmost place member top] at defines
              cases defines
          | @copied name own inner isAccepted defines stays inside =>
              have itsSet := Forest.setAt?_of_found isAccepted defines inside
              rw [List.filterMap_cons_some itsSet, List.filterMap_nil]
              exact collected.trans step
          | taken isAccepted defines goes =>
              rw [accepted goes place member isAccepted] at defines
              cases defines)
        fun gone => ⟨seen, raised, walk.skip gone, collected⟩)
    ⟨[], [], .start .., (answered_self tidy rootFound).collected⟩
  rw [← walk.finish] at done
  exact ⟨raised, after, (bind_ok (underRoot_places rootFound _)).trans ran, done⟩

/-- Find the sets that the document defines. -/
def extract : Step Unit := do
  extractDeclarations
  extractRules

end Step

/-- **Extraction is idempotent where definitions are tame.**  After any operations on
the pass of a parsed stylesheet, let no definition that can be taken out bring text
that holds another one in a rule for the document root.  Then a second extraction
leaves the tree under the root, the names of the sets in their order, and the content
of each set as they are after the first. -/
theorem extract_twice {css : String} {document : Document} (options : Options)
    (operations : List Operation) {start : Pass} {rootItem : Item} {below : Forest Node}
    (parsed : Document.parse css = .ok document)
    (isStart : start = Pass.operate { document, options } operations)
    (rootFound : start.document.find? start.document.root = some (rootItem, below))
    (tame : ∀ place ∈ below.places [.root], place.tame = true) :
    ∃ once twice left, Step.extract start = .ok () once ∧ Step.extract once = .ok () twice ∧
      once.document.find? once.document.root = some (rootItem, left) ∧
      twice.document.find? twice.document.root = some (rootItem, left) ∧
      twice.registry.names = once.registry.names ∧ twice.sets = once.sets := by
  have tidy : start.Tidy [] [] :=
    isStart ▸ Pass.tidy_operate operations (Pass.tidy_of_parse parsed options)
  obtain ⟨declared, ranDeclarations, between, declaring⟩ :=
    Step.exhausted_extractDeclarations tidy rootFound tame
  obtain ⟨once, ranRules, left, ruling⟩ :=
    Step.exhausted_extractRules declaring.tidy declaring.under
  -- What the first extraction leaves is spent, as the rules only take away.
  have spent : ∀ place ∈ left.places [.root], place.spent = true := by
    intro place member
    by_contra unspent
    exact List.not_mem_nil (declaring.pending place (ruling.within place member)
      (by simpa using unspent)).1
  obtain ⟨_, again, ranAgain, repeated⟩ :=
    Step.extractDeclarations_spent ruling.tidy ruling.under spent
  have none_ : ∀ place : Place, (place.kind.ruleName?.isSome = true → place.id ∈ []) →
      place.kind.ruleName? = none := fun place absent => by
    rw [← Option.not_isSome_iff_eq_none]
    exact fun defines => List.not_mem_nil (absent defines)
  have sameOptions : again.options = declared.options := repeated.options.trans ruling.options
  obtain ⟨_, twice, ranTwice, registered⟩ := Step.extractRules_spent repeated.tidy repeated.under
    (fun place member top => none_ place (ruling.topmost place member top))
    (fun goes place member accepted => none_ place
      (ruling.accepted (sameOptions ▸ goes) place member accepted))
  have registers : Step.Registers once left.ruleSets twice :=
    repeated.registers.trans registered.registers
  refine ⟨once, twice, left, (bind_ok ranDeclarations).trans ranRules,
    (bind_ok ranAgain).trans ranTwice, ruling.under, registered.under, ?_⟩
  cases preserve : declared.options.preserve with
  | true =>
      obtain ⟨seen, walk, stored⟩ := ruling.stay preserve
      have same : seen.filterMap left.setAt? = left.ruleSets := by
        rw [Forest.ruleSets, walk.finish]
      rw [same] at stored
      exact stored.again registers
  | false =>
      -- No rule is left to be registered.
      have nothing : left.ruleSets = [] := by
        rw [Forest.ruleSets, List.filterMap_eq_nil_iff]
        intro place member
        have among := Forest.mem_places_of_mem_placesOf member
        exact Forest.setAt?_of_none fun accepted =>
          none_ place (ruling.accepted preserve place among accepted)
      rw [nothing] at registers
      exact ⟨registers.names, registers.sets⟩

/-- The pole of `extract_twice`: the text after a block brings a rule, a set that stays
and a definition that is misplaced, and all is found at once. -/
theorem extract_twice_preserved :
    ∃ document once twice rootItem left,
      Document.parse
          ":root\x7b--a:\x7bx:y\x7d .b\x7b--c:\x7bz:w\x7d\x7d --d\x7be:f\x7d\x7d" =
        .ok document ∧
      Step.extract { document, options := { preserve := true } } = .ok () once ∧
      Step.extract once = .ok () twice ∧
      once.document.find? once.document.root = some (rootItem, left) ∧
      twice.document.find? twice.document.root = some (rootItem, left) ∧
      twice.registry.names = once.registry.names ∧ twice.sets = once.sets := by
  obtain ⟨document, parsed, holds⟩ := exists_ok_of_any
    (Document.parse
      ":root\x7b--a:\x7bx:y\x7d .b\x7b--c:\x7bz:w\x7d\x7d --d\x7be:f\x7d\x7d")
    (fun document => (document.find? document.root).any fun pair =>
      (pair.2.places [.root]).all Place.tame) (by decide +kernel)
  obtain ⟨⟨rootItem, below⟩, rootFound, tame⟩ := (Option.any_eq_true ..).mp holds
  obtain ⟨once, twice, left, results⟩ := extract_twice { preserve := true } [] parsed rfl rootFound
    (List.all_eq_true.mp tame)
  exact ⟨document, once, twice, rootItem, left, parsed, results⟩

/-- A definition in a rule for the document root that stands in the text after the
block of another is found by the second extraction only. -/
theorem extract_again_nested :
    ∃ document once twice,
      Document.parse ":root\x7b--a:\x7bx:y\x7d :root\x7b--c:\x7bz:w\x7d\x7d\x7d" =
        .ok document ∧
      Step.extract { document, options := {} } = .ok () once ∧
      Step.extract once = .ok () twice ∧
      once.document.css = ":root\x7b :root\x7b--c:\x7bz:w\x7d\x7d\n\x7d" ∧
      twice.document.css = ":root\x7b\n\x7d" ∧
      once.registry.names = ["a"] ∧ twice.registry.names = ["a", "c"] := by
  obtain ⟨document, once, parsed, ran, holds⟩ := Step.exists_ran Step.extract
    ":root\x7b--a:\x7bx:y\x7d :root\x7b--c:\x7bz:w\x7d\x7d\x7d" {}
    (fun once => Step.extract.leads (fun twice => decide (
      once.document.css = ":root\x7b :root\x7b--c:\x7bz:w\x7d\x7d\n\x7d" ∧
      twice.document.css = ":root\x7b\n\x7d" ∧
      once.registry.names = ["a"] ∧ twice.registry.names = ["a", "c"])) once)
    (by decide +kernel)
  obtain ⟨twice, again, computed⟩ := Step.exists_of_leads holds
  exact ⟨document, once, twice, parsed, ran, again, of_decide_eq_true computed⟩

end ApplyRule
