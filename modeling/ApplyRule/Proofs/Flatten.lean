/-
# ApplyRule.Proofs.Flatten -- references between sets are resolved depth first

`Progress start chain flattened raised pass` says how far the flattening of the
sets of `start` has come: the sets in `chain` are being flattened, those in
`flattened` are done and hold no reference, all others and the tree under the root
are as they were, and `raised` are the warnings so far.  As long as none of these reports a loop, every
flattened set refers only to sets that were flattened before it, and holds what it
stands for (`Settled`).

`Working` is the invariant of the loop over the references of one set: what is
left of the set still stands for what the whole set stood for, and the names that
the set refers to are those already visited and those left.

`Step.atNested` is what becomes of one reference inside a set, for any way to bring what
it refers to; the step of a pass is `Step.flattenOne`.

`flattens` is what one run of `flatten` does, by recursion on the names that are
not in the chain; `progress_resolveNested` is the whole.
-/
import ApplyRule.Proofs.Substitution
import Mathlib.Data.List.Chain

namespace ApplyRule

set_option autoImplicit false

open Document

/-- The sets of a pass. -/
def Pass.sets (pass : Pass) : Sets := fun name =>
  (pass.registry.lookup? name).bind fun id =>
    (pass.document.find? id).map fun pair => (pair.1, pair.2.items)

/-- Names that each refer to the next, the last of which comes earlier too. -/
def Sets.Loop (sets : Sets) (names : List String) : Prop :=
  names.IsChain sets.Refers ∧ ∃ path last, names = path ++ [last] ∧ last ∈ path

/-- No warning reports a loop. -/
def Quiet (raised : List Warning) : Prop :=
  ∀ warning ∈ raised, ∀ names, warning.cause ≠ .circularReference names

/-- Each name refers only to names after it, and its set holds what it stands
for. -/
def Settled (sets current : Sets) : List String → Prop
  | [] => True
  | name :: rest =>
      (∀ other, sets.Refers name other → other ∈ rest) ∧
        (∃ rule body expanded, sets name = some (rule, body) ∧
          current name = some (rule, expanded) ∧ Expands sets body expanded) ∧
        Settled sets current rest

/-- How far the flattening of the sets of `start` has come. -/
structure Progress (start : Pass) (chain flattened : List String) (raised : List Warning)
    (pass : Pass) : Prop where
  origin : start.Tidy [] []
  tidy : pass.Tidy [] []
  root : pass.document.root = start.document.root
  outside : pass.document.find? start.document.root = start.document.find? start.document.root
  registry : pass.registry = start.registry
  warnings : pass.warnings = start.warnings ++ raised
  loops : ∀ warning ∈ raised, ∀ names, warning.cause = .circularReference names →
    start.sets.Loop names
  settled : Quiet raised → Settled start.sets pass.sets flattened
  untouched : ∀ name, name ∉ flattened → name ∉ chain → pass.sets name = start.sets name
  plain : ∀ name ∈ flattened, ∀ rule items, pass.sets name = some (rule, items) → items.Plain
  apart : ∀ name ∈ chain, name ∉ flattened

theorem Quiet.left {first second : List Warning} (quiet : Quiet (first ++ second)) :
    Quiet first :=
  fun warning member => quiet warning (List.mem_append_left _ member)

theorem Settled.congr {sets current other : Sets} {flattened : List String}
    (settled : Settled sets current flattened)
    (same : ∀ name ∈ flattened, other name = current name) : Settled sets other flattened := by
  induction flattened with
  | nil => trivial
  | cons name rest ih =>
      obtain ⟨earlier, ⟨rule, body, expanded, original, now, stands⟩, later⟩ := settled
      refine ⟨earlier, ⟨rule, body, expanded, original, ?_, stands⟩, ih later fun other member =>
        same other (List.mem_cons_of_mem _ member)⟩
      rw [same name List.mem_cons_self]
      exact now

theorem Settled.of_mem {sets current : Sets} {flattened : List String} {name : String}
    (settled : Settled sets current flattened) (member : name ∈ flattened) :
    ∃ rule body expanded, sets name = some (rule, body) ∧ current name = some (rule, expanded) ∧
      Expands sets body expanded := by
  induction flattened with
  | nil => cases member
  | cons first rest ih =>
      obtain ⟨-, own, later⟩ := settled
      rcases List.mem_cons.mp member with rfl | after
      · exact own
      · exact ih later after

/-! ## Names and identities -/

namespace Pass.Tidy

variable {pass : Pass}

theorem sets_of_lookup? {name : String} {set : NodeId} {rule : Item} {children : Forest Node}
    (known : pass.registry.lookup? name = some set)
    (found : pass.document.find? set = some (rule, children)) :
    pass.sets name = some (rule, children.items) := by
  rw [Pass.sets, known, Option.bind_some, found, Option.map_some]

theorem sets_eq_none {name : String} :
    pass.registry.lookup? name = none → pass.sets name = none := by
  intro none_
  rw [Pass.sets, none_, Option.bind_none]

/-- The sets are the same as long as their trees are. -/
theorem sets_congr {after : Pass} (registry : after.registry = pass.registry)
    (trees : ∀ set ∈ pass.registry.ids, after.document.find? set = pass.document.find? set) :
    after.sets = pass.sets := by
  funext name
  unfold Pass.sets
  rw [registry]
  cases known : pass.registry.lookup? name with
  | none => rfl
  | some set =>
      rw [Option.bind_some, Option.bind_some, trees set (Registry.mem_ids_of_lookup? known)]

/-- A registered name has a rule. -/
theorem exists_set (tidy : pass.Tidy [] []) {name : String} {set : NodeId}
    (known : pass.registry.lookup? name = some set) :
    ∃ rule children, pass.document.find? set = some (rule, children) :=
  tidy.sound.exists_tree (Step.mem_tops_of_registered (Registry.mem_ids_of_lookup? known))

theorem isSome_sets (tidy : pass.Tidy [] []) {name : String} :
    (pass.sets name).isSome = true ↔ ∃ set, pass.registry.lookup? name = some set := by
  constructor
  · intro some_
    cases known : pass.registry.lookup? name with
    | none => rw [sets_eq_none known] at some_; cases some_
    | some set => exact ⟨set, rfl⟩
  · rintro ⟨set, known⟩
    obtain ⟨rule, children, found⟩ := tidy.exists_set known
    rw [sets_of_lookup? known found]
    rfl

/-- Different names have different rules. -/
theorem lookup?_inj (tidy : pass.Tidy [] []) {name other : String} {set : NodeId}
    (known : pass.registry.lookup? name = some set)
    (also : pass.registry.lookup? other = some set) : name = other := by
  have nodup : pass.registry.ids.Nodup := by
    have := tidy.sound.nodup_tops
    simp only [List.append_nil, List.nodup_cons] at this
    exact this.2
  exact congrArg Prod.fst (List.inj_on_of_nodup_map nodup (NameMap.mem_of_find? known)
    (NameMap.mem_of_find? also) rfl)

end Pass.Tidy

/-! ## One reference -/

namespace Step

variable {pass after : Pass} {id set : NodeId} {rule : Item} {children more forest : Forest Node}
  {raised : List Warning}

/-- The sets that do not hold the reference stay. -/
theorem Resolved.elsewhere (resolved : Resolved pass id children more raised after)
    (tidy : pass.Tidy [] []) (registered : set ∈ pass.registry.ids)
    (found : pass.document.find? set = some (rule, forest)) (within : id ∈ forest.ids)
    {other : NodeId} (otherRegistered : other ∈ pass.registry.ids) (ne : other ≠ set) :
    after.document.find? other = pass.document.find? other := by
  obtain ⟨otherRule, inside, otherFound⟩ :=
    tidy.sound.exists_tree (mem_tops_of_registered otherRegistered)
  have absent : id ∉ inside.ids := fun member =>
    ne (tidy.sound.top_unique (mem_tops_of_registered otherRegistered)
      (mem_tops_of_registered registered) otherFound found (List.mem_cons_of_mem _ member)
      (List.mem_cons_of_mem _ within))
  rw [resolved.trees other otherRegistered, otherFound, Option.map_some,
    Forest.replace_of_not_mem absent]

/-- The tree under the root does not hold the reference, and stays. -/
theorem Resolved.outside (resolved : Resolved pass id children more raised after)
    (tidy : pass.Tidy [] []) (registered : set ∈ pass.registry.ids)
    (found : pass.document.find? set = some (rule, forest)) (within : id ∈ forest.ids) :
    after.document.find? pass.document.root = pass.document.find? pass.document.root := by
  obtain ⟨rootItem, below, rootFound, -⟩ := tidy.sound.root
  have absent : id ∉ below.ids := fun both =>
    tidy.ne_root (by simp [registered]) (tidy.sound.top_unique (mem_tops_of_registered registered)
      List.mem_cons_self found rootFound (List.mem_cons_of_mem _ within)
      (List.mem_cons_of_mem _ both))
  rw [resolved.under rootItem below rootFound fun child => absent (Forest.mem_ids_of_mem_tops child),
    rootFound, Forest.replace_of_not_mem absent]

theorem Resolved.elsewhere_sets (resolved : Resolved pass id children more raised after)
    (tidy : pass.Tidy [] []) {name other : String} (known : pass.registry.lookup? name = some set)
    (found : pass.document.find? set = some (rule, forest)) (within : id ∈ forest.ids)
    (ne : other ≠ name) : after.sets other = pass.sets other := by
  unfold Pass.sets
  rw [resolved.registry]
  cases otherKnown : pass.registry.lookup? other with
  | none => rfl
  | some otherSet =>
      have differ : otherSet ≠ set := by
        rintro rfl
        exact ne (tidy.lookup?_inj otherKnown known)
      rw [Option.bind_some, Option.bind_some,
        resolved.elsewhere tidy (Registry.mem_ids_of_lookup? known) found within
          (Registry.mem_ids_of_lookup? otherKnown) differ]

/-! ## The references of one set -/

/-- The loop over the references of the set `name`, which began in `before`: the set
holds `forest` now, and `body` at first. -/
structure Working (start before : Pass) (chain : List String) (name : String) (set : NodeId)
    (rule : Item) (body : Forest Item) (flattened : List String) (raised : List Warning)
    (pass : Pass) (forest : Forest Node) : Prop where
  progress : Progress start (chain ++ [name]) flattened raised pass
  fresh : name ∉ chain
  known : start.registry.lookup? name = some set
  original : start.sets name = some (rule, body)
  found : pass.document.find? set = some (rule, forest)
  frame : ∀ other ∈ chain, ∀ id, start.registry.lookup? other = some id →
    pass.document.find? id = before.document.find? id
  visited : ∃ done, body.targets = done ++ forest.items.targets ∧
    (Quiet raised → ∀ other ∈ done, (start.sets other).isSome = true → other ∈ flattened)
  expands : Quiet raised → ∀ expanded, Expands start.sets forest.items expanded →
    Expands start.sets body expanded

section Working

variable {start before : Pass} {chain flattened : List String} {name : String} {body : Forest Item}

theorem Working.nodup
    (working : Working start before chain name set rule body flattened raised pass forest) :
    forest.ids.Nodup :=
  (Forest.nodup_below working.progress.tidy.sound.nodup working.found).2

/-- A name that the set refers to is one that the graph has from it. -/
theorem Working.refers
    (working : Working start before chain name set rule body flattened raised pass forest)
    {target : String} (among : target ∈ forest.items.targets)
    (isSet : (start.sets target).isSome = true) : start.sets.Refers name target := by
  obtain ⟨done, eq, -⟩ := working.visited
  exact ⟨rule, body, working.original, eq ▸ List.mem_append_right _ among, isSet⟩

/-- Other sets are flattened meanwhile. -/
theorem Working.resume {flattened' : List String} {more : List Warning} {later : Pass}
    (working : Working start before chain name set rule body flattened raised pass forest)
    (progress : Progress start (chain ++ [name]) flattened' (raised ++ more) later)
    (grows : flattened ⊆ flattened')
    (frame : ∀ other ∈ chain ++ [name], ∀ id, start.registry.lookup? other = some id →
      later.document.find? id = pass.document.find? id) :
    Working start before chain name set rule body flattened' (raised ++ more) later forest := by
  refine ⟨progress, working.fresh, working.known, working.original, ?_, ?_, ?_, ?_⟩
  · rw [frame name (by simp) set working.known]
    exact working.found
  · intro other member id known
    rw [frame other (List.mem_append_left _ member) id known]
    exact working.frame other member id known
  · obtain ⟨done, eq, visited⟩ := working.visited
    exact ⟨done, eq, fun quiet other member isSet =>
      grows (visited quiet.left other member isSet)⟩
  · exact fun quiet => working.expands quiet.left

/-- The first reference is replaced by what it stands for, or by nothing and a
report. -/
theorem Working.step {item : Item} {target : Option String} {changed : Forest Node}
    {new : List Warning}
    (working : Working start before chain name set rule body flattened raised pass forest)
    (first : Forest.FirstReplaced id item children more forest changed)
    (refers : item.kind.reference? = some target)
    (resolved : Resolved pass id children more new after) (plain : more.items.Plain)
    (loops : ∀ warning ∈ new, ∀ names, warning.cause = .circularReference names →
      start.sets.Loop names)
    (gives : Quiet (raised ++ new) → start.sets.Gives target more.items ∧
      ∀ other ∈ target, (start.sets other).isSome = true → other ∈ flattened) :
    Working start before chain name set rule body flattened (raised ++ new) after changed := by
  obtain ⟨progress, fresh, known, original, found, frame, visited, expands⟩ := working
  have nodup := (Forest.nodup_below progress.tidy.sound.nodup found).2
  have within := Forest.mem_ids_of_find? (first.find? nodup)
  have nowKnown : pass.registry.lookup? name = some set := progress.registry ▸ known
  have registered := Registry.mem_ids_of_lookup? nowKnown
  have others : ∀ other, other ≠ name → after.sets other = pass.sets other := fun other ne =>
    resolved.elsewhere_sets progress.tidy nowKnown found within ne
  have notDone : name ∉ flattened := progress.apart name (by simp)
  have differ : ∀ other ∈ flattened, other ≠ name := fun other member eq => notDone (eq ▸ member)
  refine ⟨⟨progress.origin, resolved.tidy, resolved.root.trans progress.root, ?_, ?_, ?_, ?_, ?_,
    ?_, ?_, progress.apart⟩, fresh, known, original, ?_, ?_, ?_, ?_⟩
  · rw [← progress.outside, ← progress.root]
    exact resolved.outside progress.tidy registered found within
  · rw [resolved.registry, progress.registry]
  · rw [resolved.warnings, progress.warnings, List.append_assoc]
  · intro warning member
    rcases List.mem_append.mp member with old | raisedNow
    · exact progress.loops warning old
    · exact loops warning raisedNow
  · exact fun quiet => (progress.settled quiet.left).congr fun other member =>
      others other (differ other member)
  · intro other notFlattened notChain
    rw [others other fun eq => notChain (by simp [eq])]
    exact progress.untouched other notFlattened notChain
  · intro other member
    rw [others other (differ other member)]
    exact progress.plain other member
  · rw [resolved.trees set registered, found, Option.map_some, first.eq_replace nodup]
  · intro other member otherId otherKnown
    have ne : otherId ≠ set := by
      rintro rfl
      exact fresh (progress.tidy.lookup?_inj (progress.registry ▸ otherKnown) nowKnown ▸ member)
    rw [resolved.elsewhere progress.tidy registered found within
      (Registry.mem_ids_of_lookup? (progress.registry ▸ otherKnown)) ne]
    exact frame other member otherId otherKnown
  · obtain ⟨done, eq, seen⟩ := visited
    obtain ⟨tail, old, left⟩ := first.targets refers
    refine ⟨done ++ target.toList, ?_, ?_⟩
    · rw [eq, old, left, plain.targets, List.nil_append, List.append_assoc]
    · intro quiet other member isSet
      rcases List.mem_append.mp member with before | now
      · exact seen quiet.left other before isSet
      · exact (gives quiet).2 other (by simpa using now) isSet
  · intro quiet expanded stands
    exact expands quiet.left expanded (first.expands refers plain (gives quiet).1 stands)

end Working

/-- What becomes of one reference inside a set, where `bring` brings what its set holds: it is
reported if it closes a loop or names no set, and goes if it is not brought. -/
def atNested (waiting chain flattened : List String) (id : NodeId)
    (bring : (target : String) → target ∈ waiting → Step (List String)) :
    Step (List String) := do
  let some (.atRule _ params _) := (← document).kind? id | return flattened
  match referenceName? params with
  | none =>
      edit (Edit.remove id)
      return flattened
  | some target =>
      if target ∈ chain then
        dropReference (.circularReference (chain ++ [target])) id
        return flattened
      else if known : target ∈ waiting then
        bring target known
      else
        dropReference (.unknownSet target) id
        return flattened

/-- What becomes of one reference inside a set. -/
def flattenOne (waiting chain flattened : List String) (id : NodeId) : Step (List String) :=
  atNested waiting chain flattened id fun target _ => do
    let flattened ← flatten (waiting.erase target) chain target flattened
    if let some set := (← get).registry.lookup? target then
      substitute id set
    return flattened

theorem flatten_eq (waiting chain : List String) (name : String) (flattened : List String) :
    flatten waiting chain name flattened = (do
      if name ∈ flattened then return flattened
      let some set := (← get).registry.lookup? name | return flattened
      let references ← ask (·.select? (Kind.isAtRule referenceRule) set)
      let flattened ← references.foldlM (flattenOne waiting (chain ++ [name])) flattened
      return name :: flattened) := by
  rw [flatten]
  rfl

/-- What becomes of a reference is the same where it is brought the same. -/
theorem atNested_congr {waiting chain flattened : List String} {name params : String}
    {hasBlock : Bool} {bring other : (target : String) → target ∈ waiting → Step (List String)}
    (known : pass.document.kind? id = some (.atRule name params hasBlock))
    (same : ∀ target, referenceName? params = some target → ∀ waits,
      bring target waits pass = other target waits pass) :
    atNested waiting chain flattened id bring pass =
      atNested waiting chain flattened id other pass := by
  unfold atNested
  rw [bind_ok document_ok, bind_ok document_ok, known]
  simp only
  cases named : referenceName? params with
  | none => rfl
  | some target =>
      simp only
      split
      · rfl
      · split
        · exact same target named _
        · rfl

/-- References that are gone are passed over. -/
theorem foldlM_atNested_of_gone (waiting chain flattened : List String) (ids : List NodeId)
    (bring : List String → NodeId → (target : String) → target ∈ waiting → Step (List String))
    (gone : ∀ id ∈ ids, id ∉ pass.document.forest.ids) :
    ids.foldlM (fun flattened id => atNested waiting chain flattened id (bring flattened id))
      flattened pass = .ok flattened pass := by
  induction ids with
  | nil => rfl
  | cons id rest ih =>
      have none_ : pass.document.kind? id = none := by
        rw [kind?, item?, Document.find?, Forest.find?_of_not_mem (gone id List.mem_cons_self)]
        rfl
      have passed : atNested waiting chain flattened id (bring flattened id) pass =
          .ok flattened pass := by
        unfold atNested
        rw [bind_ok document_ok, none_]
        rfl
      rw [List.foldlM_cons, bind_ok passed]
      exact ih fun other member => gone other (List.mem_cons_of_mem _ member)

theorem foldlM_flattenOne_of_gone (waiting chain flattened : List String) (ids : List NodeId)
    (gone : ∀ id ∈ ids, id ∉ pass.document.forest.ids) :
    ids.foldlM (flattenOne waiting chain) flattened pass = .ok flattened pass :=
  foldlM_atNested_of_gone waiting chain flattened ids _ gone

/-- The state in which a set's turn comes: a path of references leads to it, and
the names that wait are all others. -/
structure Turn (start : Pass) (waiting chain : List String) (name : String) : Prop where
  path : (chain ++ [name]).IsChain start.sets.Refers
  known : ∀ other ∈ chain ++ [name], other ∈ start.registry.names
  fresh : name ∉ chain
  nodup : waiting.Nodup
  waits : ∀ other, other ∈ waiting ↔ other ∈ start.registry.names ∧ other ∉ chain ++ [name]

theorem Turn.extend {start : Pass} {waiting chain : List String} {name target : String}
    (turn : Turn start waiting chain name) (refers : start.sets.Refers name target) :
    (chain ++ [name] ++ [target]).IsChain start.sets.Refers := by
  refine List.isChain_append.mpr ⟨turn.path, List.isChain_singleton _, ?_⟩
  simp only [List.getLast?_append, List.getLast?_singleton, Option.some_or, List.head?_cons,
    Option.mem_def, Option.some.injEq]
  rintro _ rfl _ rfl
  exact refers

theorem Turn.next {start : Pass} {waiting chain : List String} {name target : String}
    (turn : Turn start waiting chain name) (refers : start.sets.Refers name target)
    (member : target ∈ waiting) :
    Turn start (waiting.erase target) (chain ++ [name]) target := by
  obtain ⟨known, fresh⟩ := (turn.waits target).mp member
  refine ⟨turn.extend refers, ?_, fresh, turn.nodup.erase target, ?_⟩
  · intro other among
    rcases List.mem_append.mp among with earlier | last
    · exact turn.known other earlier
    · rw [List.mem_singleton.mp last]
      exact known
  · intro other
    rw [turn.nodup.mem_erase_iff, turn.waits, List.mem_append (t := [target]), List.mem_singleton]
    tauto

/-- What a run of `flatten` does from any point of the flattening. -/
def Flattens (start : Pass) (waiting chain : List String) (name : String) : Prop :=
  ∀ flattened raised pass, Progress start chain flattened raised pass →
    ∃ flattened' more after, flatten waiting chain name flattened pass = .ok flattened' after ∧
      Progress start chain flattened' (raised ++ more) after ∧ name ∈ flattened' ∧
      flattened ⊆ flattened' ∧
      ∀ other ∈ chain, ∀ id, start.registry.lookup? other = some id →
        after.document.find? id = pass.document.find? id

section Loop

variable {start before : Pass} {waiting chain flattened : List String} {name : String}
  {body : Forest Item}

/-- A reference of the set is found in the document, inside the set's tree. -/
theorem Working.found_reference {item : Item} {target : Option String} {changed : Forest Node}
    (working : Working start before chain name set rule body flattened raised pass forest)
    (first : Forest.FirstReplaced id item children more forest changed)
    (refers : item.kind.reference? = some target) :
    pass.document.find? id = some (item, children) ∧
      id ∉ pass.document.root :: (pass.registry.ids ++ [] ++ []) := by
  have tidy := working.progress.tidy
  have inSet := first.find? working.nodup
  have found := (Forest.find?_eq_find? tidy.sound.nodup working.found
    (Forest.mem_ids_of_find? inSet)).trans inSet
  obtain ⟨params, hasBlock, kind, -⟩ := Kind.reference?_eq_some refers
  exact ⟨found, tidy.not_top found (by rw [kind]; rfl) (by rw [kind]; rfl)⟩

/-- What one round of the loop comes to: the first reference has given way to trees
without references. -/
def Advanced (start before : Pass) (chain : List String) (name : String) (set : NodeId)
    (rule : Item) (body : Forest Item) (flattened : List String) (raised : List Warning)
    (forest : Forest Node) (id : NodeId) (item : Item) (children : Forest Node)
    (ran : EStateM.Result Error Pass (List String)) : Prop :=
  ∃ flattened' new more changed after, ran = .ok flattened' after ∧ flattened ⊆ flattened' ∧
    Forest.FirstReplaced id item children more forest changed ∧ more.items.Plain ∧
    Working start before chain name set rule body flattened' (raised ++ new) after changed ∧
    ∀ other ∈ id :: children.ids, other ∉ after.document.forest.ids

theorem plain_nil : (.nil : Forest Node).items.Plain := fun _ member => nomatch member

/-- The first reference is reported and dropped. -/
theorem Working.drops {item : Item} {target : Option String} {changed : Forest Node}
    (working : Working start before chain name set rule body flattened raised pass forest)
    (first : Forest.FirstReplaced id item children .nil forest changed)
    (refers : item.kind.reference? = some target) (cause : Cause)
    (loops : ∀ names, cause = .circularReference names → start.sets.Loop names)
    (gives : (∀ names, cause ≠ .circularReference names) → start.sets.Gives target .nil ∧
      ∀ other ∈ target, (start.sets other).isSome = true → other ∈ flattened) :
    Advanced start before chain name set rule body flattened raised forest id item children
      ((do dropReference cause id; return flattened) pass) := by
  obtain ⟨found, inside⟩ := working.found_reference first refers
  obtain ⟨after, ran, resolved⟩ := resolved_drop working.progress.tidy cause found inside
  refine ⟨flattened, _, .nil, changed, after, (bind_ok ran).trans rfl, fun _ member => member,
    first, plain_nil, working.step first refers resolved plain_nil ?_ ?_, resolved.gone⟩
  · intro warning member
    rw [List.mem_singleton.mp member]
    exact loops
  · exact fun quiet => gives (quiet _ (List.mem_append_right _ List.mem_cons_self))

/-- The set that the first reference names is flattened, and copies of what it holds
take the reference's place. -/
theorem Working.substitutes {item : Item} {target : String}
    (working : Working start before chain name set rule body flattened raised pass forest)
    (known : target ∈ start.registry.names)
    (recurses : Flattens start (waiting.erase target) (chain ++ [name]) target)
    (isFirst : ∀ more, ∃ changed, Forest.FirstReplaced id item children more forest changed)
    (refers : item.kind.reference? = some (some target)) :
    Advanced start before chain name set rule body flattened raised forest id item children
      ((do
        let flattened ← flatten (waiting.erase target) (chain ++ [name]) target flattened
        if let some set := (← get).registry.lookup? target then
          substitute id set
        return flattened) pass) := by
  obtain ⟨flattened', new, mid, ran, progress, done, grows, frame⟩ :=
    recurses flattened raised pass working.progress
  have resumed := working.resume progress grows frame
  obtain ⟨targetSet, lookup⟩ := Registry.lookup?_of_mem_names (progress.registry ▸ known)
  obtain ⟨targetRule, targetForest, targetFound⟩ := progress.tidy.exists_set lookup
  have now := Pass.Tidy.sets_of_lookup? lookup targetFound
  obtain ⟨_, anyFirst⟩ := isFirst .nil
  obtain ⟨found, inside⟩ := resumed.found_reference anyFirst refers
  obtain ⟨after, copies, ranCopy, copied, -, resolved⟩ := resolved_substitute progress.tidy
    found inside (Registry.mem_ids_of_lookup? lookup) targetFound
  obtain ⟨changed, first⟩ := isFirst copies
  have plain : copies.items.Plain := by
    rw [copied]
    exact (progress.plain target done _ _ now).reindent _
  refine ⟨flattened', new ++ [], copies, changed, after, ?_, grows, first, plain, ?_,
    resolved.gone⟩
  · refine (bind_ok ran).trans ((bind_ok get_ok).trans ?_)
    rw [lookup]
    exact (bind_ok ranCopy).trans rfl
  · rw [← List.append_assoc]
    refine resumed.step first refers resolved plain (List.forall_mem_nil _) fun quiet => ⟨?_, ?_⟩
    · obtain ⟨_, _, _, original, current, stands⟩ := (progress.settled quiet.left).of_mem done
      rw [now] at current
      cases current
      rw [copied]
      exact .known original stands
    · rintro other ⟨⟩ -
      exact done

/-- **One round of the loop.**  The first reference of a set is resolved, and before
that the set it names. -/
theorem Working.flattenOne {item : Item} {target : Option String}
    (working : Working start before chain name set rule body flattened raised pass forest)
    (turn : Turn start waiting chain name)
    (recurses : ∀ other ∈ waiting, start.sets.Refers name other →
      Flattens start (waiting.erase other) (chain ++ [name]) other)
    (isFirst : ∀ more, ∃ changed, Forest.FirstReplaced id item children more forest changed)
    (refers : item.kind.reference? = some target) :
    Advanced start before chain name set rule body flattened raised forest id item children
      (Step.flattenOne waiting (chain ++ [name]) flattened id pass) := by
  obtain ⟨removed, first⟩ := isFirst .nil
  obtain ⟨found, inside⟩ := working.found_reference first refers
  obtain ⟨params, hasBlock, kind, rfl⟩ := Kind.reference?_eq_some refers
  have known : pass.document.kind? id = some (.atRule referenceRule params hasBlock) := by
    rw [kind?_of_find? found, kind]
  unfold Step.flattenOne atNested
  rw [bind_ok document_ok, known]
  simp only
  cases named : referenceName? params with
  | none =>
      rw [named] at refers
      obtain ⟨after, ran, resolved⟩ := resolved_remove working.progress.tidy found inside
      refine ⟨flattened, [], .nil, removed, after, (bind_ok ran).trans rfl, fun _ member => member,
        first, plain_nil, ?_, resolved.gone⟩
      refine working.step first refers resolved plain_nil (List.forall_mem_nil _) fun _ => ?_
      refine ⟨.nameless, ?_⟩
      rintro other ⟨⟩
  | some target =>
      rw [named] at refers
      have among : target ∈ forest.items.targets := by
        obtain ⟨tail, eq, -⟩ := first.targets refers
        rw [eq]
        exact List.mem_cons_self
      have refersTo : target ∈ start.registry.names → start.sets.Refers name target :=
        fun member => working.refers among
          (working.progress.origin.isSome_sets.mpr (Registry.lookup?_of_mem_names member))
      simp only
      by_cases looped : target ∈ chain ++ [name]
      · rw [if_pos looped]
        refine working.drops first refers _ ?_ fun other => absurd rfl (other _)
        rintro _ ⟨⟩
        exact ⟨turn.extend (refersTo (turn.known target looped)), _, _, rfl, looped⟩
      · rw [if_neg looped]
        by_cases waits : target ∈ waiting
        · rw [dif_pos waits]
          have isName := ((turn.waits target).mp waits).1
          exact working.substitutes isName (recurses target waits (refersTo isName)) isFirst refers
        · rw [dif_neg waits]
          have absent : start.sets target = none := by
            cases lookup : start.registry.lookup? target with
            | none => exact Pass.Tidy.sets_eq_none lookup
            | some other => exact absurd ((turn.waits target).mpr
                ⟨Registry.mem_names_of_lookup? lookup, looped⟩) waits
          refine working.drops first refers _ ?_ fun _ => ⟨.unknown absent, ?_⟩
          · rintro names ⟨⟩
          · rintro other ⟨⟩ isSome
            rw [absent] at isSome
            cases isSome

/-- **The whole loop.**  All references of a set are resolved. -/
theorem Working.loop (turn : Turn start waiting chain name)
    (recurses : ∀ other ∈ waiting, start.sets.Refers name other →
      Flattens start (waiting.erase other) (chain ++ [name]) other)
    (working : Working start before chain name set rule body flattened raised pass forest) :
    ∃ flattened' new final after,
      forest.references.foldlM (Step.flattenOne waiting (chain ++ [name])) flattened pass =
        .ok flattened' after ∧
      flattened ⊆ flattened' ∧ final.items.Plain ∧
      Working start before chain name set rule body flattened' (raised ++ new) after final := by
  induction count : forest.references.length using Nat.strongRecOn
    generalizing forest flattened raised pass with
  | ind n ih =>
      by_cases plain : forest.items.Plain
      · refine ⟨flattened, [], forest, pass, ?_, fun _ member => member, plain, ?_⟩
        · rw [Forest.references_eq_nil.mpr plain]
          rfl
        · rw [List.append_nil]
          exact working
      · obtain ⟨id, item, children, target, refers, isFirst⟩ := Forest.exists_firstReplaced plain
        obtain ⟨flattened', new, more, changed, mid, ran, grows, first, plainMore, left, gone⟩ :=
          working.flattenOne turn recurses isFirst refers
        obtain ⟨tail, old, rest⟩ := first.references refers
        rw [Forest.references_eq_nil.mpr plainMore, List.nil_append] at rest
        have dead : ∀ other ∈ children.references, other ∉ mid.document.forest.ids := by
          intro other member
          refine gone other (List.mem_cons_of_mem _ ?_)
          exact (List.filter_sublist.map Node.id).subset member
        have fewer : changed.references.length < n := by
          rw [← count, old, rest]
          simp only [List.length_cons, List.length_append]
          omega
        obtain ⟨flattened'', later, final, after, ranRest, growsRest, plainFinal, done⟩ :=
          ih _ fewer left rfl
        refine ⟨flattened'', new ++ later, final, after, ?_, List.Subset.trans grows growsRest,
          plainFinal, ?_⟩
        · rw [old, List.foldlM_cons, bind_ok ran, List.foldlM_append,
            bind_ok (foldlM_flattenOne_of_gone _ _ _ _ dead), ← rest]
          exact ranRest
        · rw [← List.append_assoc]
          exact done

/-- A set whose loop is over is flattened. -/
theorem Working.finish
    (working : Working start before chain name set rule body flattened raised pass forest)
    (plain : forest.items.Plain) :
    Progress start chain (name :: flattened) raised pass := by
  obtain ⟨progress, fresh, known, original, found, -, visited, expands⟩ := working
  have now : pass.sets name = some (rule, forest.items) :=
    Pass.Tidy.sets_of_lookup? (progress.registry ▸ known) found
  refine ⟨progress.origin, progress.tidy, progress.root, progress.outside, progress.registry,
    progress.warnings, progress.loops, ?_, ?_, ?_, ?_⟩
  · intro quiet
    refine ⟨?_, ⟨rule, body, forest.items, original, now,
      expands quiet _ (expands_of_plain plain)⟩, progress.settled quiet⟩
    rintro other ⟨_, _, same, among, isSet⟩
    rw [original] at same
    cases same
    obtain ⟨done, eq, seen⟩ := visited
    rw [eq, plain.targets, List.append_nil] at among
    exact seen quiet other among isSet
  · intro other notDone notChain
    simp only [List.mem_cons, not_or] at notDone
    refine progress.untouched other notDone.2 ?_
    simp [notChain, notDone.1]
  · intro other member otherRule items otherNow
    rcases List.mem_cons.mp member with rfl | earlier
    · rw [now] at otherNow
      cases otherNow
      exact plain
    · exact progress.plain other earlier otherRule items otherNow
  · intro other member
    rw [List.mem_cons, not_or]
    exact ⟨fun eq => fresh (eq ▸ member), progress.apart other (List.mem_append_left _ member)⟩

/-- The loop over the references of a set begins. -/
theorem working_begin (progress : Progress start chain flattened raised pass)
    (fresh : name ∉ chain) (notDone : name ∉ flattened)
    (known : start.registry.lookup? name = some set)
    (found : pass.document.find? set = some (rule, forest)) :
    Working start pass chain name set rule forest.items flattened raised pass forest := by
  have now : pass.sets name = some (rule, forest.items) :=
    Pass.Tidy.sets_of_lookup? (progress.registry ▸ known) found
  refine ⟨{ progress with untouched := ?_, apart := ?_ }, fresh, known, ?_, found,
    fun _ _ _ _ => rfl, ⟨[], rfl, fun _ => nofun⟩, fun _ _ stands => stands⟩
  · intro other notFlattened notChain
    exact progress.untouched other notFlattened fun member =>
      notChain (List.mem_append_left _ member)
  · intro other member
    rcases List.mem_append.mp member with earlier | last
    · exact progress.apart other earlier
    · rw [List.mem_singleton.mp last]
      exact notDone
  · rw [← progress.untouched name notDone fresh]
    exact now

/-- **What `flatten` does.**  By recursion on the number of names that wait. -/
theorem flattens (turn : Turn start waiting chain name) : Flattens start waiting chain name := by
  induction count : waiting.length using Nat.strongRecOn generalizing waiting chain name with
  | ind n ih =>
      intro flattened raised pass progress
      rw [flatten_eq]
      by_cases done : name ∈ flattened
      · refine ⟨flattened, [], pass, by rw [if_pos done]; rfl, ?_, done, fun _ member => member,
          fun _ _ _ _ => rfl⟩
        rw [List.append_nil]
        exact progress
      · obtain ⟨set, known⟩ := Registry.lookup?_of_mem_names (turn.known name (by simp))
        have lookup : pass.registry.lookup? name = some set := progress.registry ▸ known
        obtain ⟨rule, forest, found⟩ := progress.tidy.exists_set lookup
        have asked : pass.document.select? (Kind.isAtRule referenceRule) set =
            some forest.references := by
          rw [select?, below?, found]
          rfl
        have recurses : ∀ other ∈ waiting, start.sets.Refers name other →
            Flattens start (waiting.erase other) (chain ++ [name]) other := by
          intro other member refers
          refine ih _ ?_ (turn.next refers member) rfl
          rw [← count, List.length_erase_of_mem member]
          have := List.length_pos_of_mem member
          omega
        obtain ⟨flattened', new, final, after, ran, grows, plain, finished⟩ :=
          (working_begin progress turn.fresh done known found).loop turn recurses
        refine ⟨name :: flattened', new, after, ?_, finished.finish plain, List.mem_cons_self,
          fun _ member => List.mem_cons_of_mem _ (grows member), finished.frame⟩
        rw [if_neg done, bind_ok get_ok, lookup]
        simp only
        rw [bind_ok (ask_ok asked), bind_ok ran]
        rfl

end Loop

/-! ## All sets -/

theorem progress_start {start : Pass} (tidy : start.Tidy [] []) : Progress start [] [] [] start :=
  ⟨tidy, tidy, rfl, rfl, rfl, by simp, List.forall_mem_nil _, fun _ => trivial, fun _ _ _ => rfl,
    List.forall_mem_nil _, List.forall_mem_nil _⟩

theorem turn_start {start : Pass} (tidy : start.Tidy [] []) {name : String}
    (known : name ∈ start.registry.names) :
    Turn start (start.registry.names.erase name) [] name := by
  refine ⟨List.isChain_singleton _, ?_, List.not_mem_nil, tidy.names.erase name, ?_⟩
  · simpa using known
  · intro other
    rw [tidy.names.mem_erase_iff, List.nil_append, List.mem_singleton]
    exact And.comm

/-- The loop over the names, from any point of it. -/
theorem progress_foldlM {start pass : Pass} {flattened : List String} {raised : List Warning}
    (tidy : start.Tidy [] []) (names : List String) (known : names ⊆ start.registry.names)
    (progress : Progress start [] flattened raised pass) :
    ∃ flattened' more after,
      names.foldlM (fun flattened name =>
        flatten (start.registry.names.erase name) [] name flattened) flattened pass =
          .ok flattened' after ∧
        Progress start [] flattened' (raised ++ more) after ∧ flattened ⊆ flattened' ∧
        ∀ name ∈ names, name ∈ flattened' := by
  induction names generalizing flattened raised pass with
  | nil =>
      refine ⟨flattened, [], pass, rfl, ?_, List.Subset.refl _, List.forall_mem_nil _⟩
      rw [List.append_nil]
      exact progress
  | cons name rest ih =>
      obtain ⟨isName, areNames⟩ := List.cons_subset.mp known
      obtain ⟨flattened', more, mid, ran, reached, done, grows, -⟩ :=
        flattens (turn_start tidy isName) flattened raised pass progress
      obtain ⟨flattened'', later, after, ranRest, final, growsRest, doneRest⟩ :=
        ih areNames reached
      refine ⟨flattened'', more ++ later, after, ?_, ?_, List.Subset.trans grows growsRest, ?_⟩
      · rw [List.foldlM_cons, bind_ok ran]
        exact ranRest
      · rw [← List.append_assoc]
        exact final
      · exact List.forall_mem_cons.mpr ⟨growsRest done, doneRest⟩

/-- **What `resolveNested` does.**  It succeeds from every tidy pass, and all sets are
flattened then. -/
theorem progress_resolveNested {start : Pass} (tidy : start.Tidy [] []) :
    ∃ flattened raised after, resolveNested start = .ok () after ∧
      Progress start [] flattened raised after ∧
      ∀ name ∈ start.registry.names, name ∈ flattened := by
  obtain ⟨flattened, raised, after, ran, progress, -, done⟩ :=
    progress_foldlM tidy _ (List.Subset.refl _) (progress_start tidy)
  refine ⟨flattened, raised, after, ?_, progress, done⟩
  unfold resolveNested
  rw [bind_ok get_ok, bind_ok ran]
  rfl

end Step

end ApplyRule
