/-
# ApplyRule.Proofs.Resolution -- references in the document

Once all sets are prepared, none of them holds a reference (`prepared_plain`).
`Step.Verdict` says what becomes of one reference in the document, from its place
and the sets alone, and `resolve_reference` that `resolve` does just that.

`residue_run` is what a run comes to: it visits the references in document order,
and those that are left stand inside a rule and name no set.  Each of them that
names anything is reported once, in document order; all other reports are of
references outside all rules, and those are gone.
-/
import ApplyRule.Proofs.FlatSets
import ApplyRule.Proofs.RootTree

namespace ApplyRule

set_option autoImplicit false

open Document

/-- Whether a place is inside a rule. -/
def Place.enclosed (place : Place) : Bool :=
  place.above.any Kind.isRule

/-- The report of a reference that names a set which is not there. -/
def Place.report? (place : Place) : Option Warning :=
  match place.kind.reference? with
  | some (some name) => some ⟨.unknownSet name, place.source⟩
  | _ => none

namespace Step

variable {pass prepared : Pass} {id : NodeId} {item rootItem : Item}
  {below children left : Forest Node} {place : Place} {raised : List Warning}

/-- What becomes of the reference `id` under the root: the forest that is left there,
and what is reported. -/
inductive Verdict (pass : Pass) (below : Forest Node) (place : Place) :
    Forest Node → List Warning → Prop where
  | orphaned (outside : place.enclosed = false) :
      Verdict pass below place (below.without place.id) [⟨.orphanedReference, place.source⟩]
  | nameless (inside : place.enclosed = true) (refers : place.kind.reference? = some none) :
      Verdict pass below place below []
  | unknown {name : String} (inside : place.enclosed = true)
      (refers : place.kind.reference? = some (some name)) (absent : pass.sets name = none) :
      Verdict pass below place below [⟨.unknownSet name, place.source⟩]
  | known {name : String} {rule : Item} {body : Forest Item} {copies : Forest Node}
      (inside : place.enclosed = true) (refers : place.kind.reference? = some (some name))
      (found : pass.sets name = some (rule, body))
      (copied : copies.items = body.reindent rule.raws.before)
      (new : ∀ other ∈ copies.ids, pass.document.fresh ≤ other.index) :
      Verdict pass below place (Forest.replace place.id copies below) []

/-- A child of the root stands in no rule. -/
theorem not_mem_tops_of_enclosed (tidy : pass.Tidy [] [])
    (rootFound : pass.document.find? pass.document.root = some (rootItem, below))
    (member : place ∈ below.places [.root]) (inside : place.enclosed = true) :
    place.id ∉ below.tops := by
  intro child
  obtain ⟨item, children, path, -, -, -, lineage, same⟩ := tidy.sound.exists_node_of_place rootFound member
  obtain ⟨_, _, found, kind⟩ := tidy.sound.root
  rw [rootFound] at found
  cases found
  have within := Forest.mem_ids_of_mem_places member
  rw [Document.lineage?,
    Forest.lineage?_below_top tidy.sound.nodup tidy.sound.standing rootFound within,
    Forest.lineage?_of_mem_tops (Forest.nodup_below tidy.sound.nodup rootFound).2 child] at lineage
  cases lineage
  rw [Place.enclosed, same] at inside
  simp [Place.ofNode, kind, Kind.isRule] at inside

/-- What is no reference is left alone. -/
theorem resolve_other
    (plain : ∀ kind, pass.document.kind? id = some kind → kind.reference? = none) :
    resolve id pass = .ok () pass := by
  unfold resolve
  rw [bind_ok document_ok]
  cases known : pass.document.kind? id with
  | none => rfl
  | some kind =>
      cases kind with
      | atRule name params hasBlock =>
          have other : name ≠ referenceRule := by
            rintro rfl
            have := plain _ known
            simp [Kind.reference?] at this
          simp only [other, if_false]
          rfl
      | _ => rfl

/-- **One reference.**  A reference under the root is resolved, reported or left, as
its place says. -/
theorem resolve_reference (tidy : pass.Tidy [] [])
    (rootFound : pass.document.find? pass.document.root = some (rootItem, below))
    (member : place ∈ below.places [.root]) {target : Option String}
    (refers : place.kind.reference? = some target) :
    ∃ left raised after, resolve place.id pass = .ok () after ∧
      Verdict pass below place left raised ∧ Answered pass rootItem left raised after := by
  obtain ⟨item, children, path, inside, found, -, lineage, same⟩ :=
    tidy.sound.exists_node_of_place rootFound member
  have kind : place.kind = item.kind := congrArg Place.kind same
  have source : place.source = item.source := congrArg Place.source same
  have encloses : place.enclosed = path.any fun node => node.item.kind.isRule := by
    rw [Place.enclosed, same]
    simp [Place.ofNode, Function.comp_def]
  obtain ⟨params, hasBlock, isReference, rfl⟩ := Kind.reference?_eq_some refers
  have known : pass.document.kind? place.id = some (.atRule referenceRule params hasBlock) := by
    rw [kind?_of_find? found, ← kind, isReference]
  have within := Forest.mem_ids_of_mem_places member
  have notTop := tidy.sound.not_top_of_below rootFound within
  unfold resolve
  rw [bind_ok document_ok, known]
  simp only [if_true]
  rw [bind_ok (ask_ok lineage), ← encloses]
  cases enclosed : place.enclosed with
  | false =>
      have reported := tidy.warned (pass.warnings ++ [⟨.orphanedReference, place.source⟩])
      obtain ⟨after, ran, answered⟩ := answered_remove reported rootFound within
      refine ⟨_, _, after, ?_, .orphaned enclosed, { answered with warnings := ?_ }⟩
      · simp only [Bool.false_eq_true, if_false]
        refine (bind_ok (source_ok found)).trans ?_
        rw [← source]
        exact (bind_ok (warn_ok _ _)).trans ((bind_ok ran).trans rfl)
      · rw [answered.warnings, List.append_nil]
  | true =>
      simp only [if_true]
      cases named : referenceName? params with
      | none =>
          exact ⟨below, [], pass, rfl, .nameless enclosed (named ▸ refers),
            answered_self tidy rootFound⟩
      | some name =>
          rw [named] at refers
          simp only
          rw [bind_ok get_ok]
          cases lookup : pass.registry.lookup? name with
          | none =>
              refine ⟨below, _, _, ?_, .unknown enclosed refers (Pass.Tidy.sets_eq_none lookup),
                answered_warn tidy rootFound _⟩
              rw [source]
              exact (bind_ok (source_ok found)).trans (warn_ok _ _)
          | some set =>
              have registered := Registry.mem_ids_of_lookup? lookup
              obtain ⟨rule, body, setFound⟩ := tidy.exists_set lookup
              obtain ⟨after, copies, ran, copied, new, resolved⟩ :=
                resolved_substitute tidy found notTop registered setFound
              refine ⟨_, [], after, ran, .known enclosed refers
                (Pass.Tidy.sets_of_lookup? lookup setFound) copied new, resolved.tidy,
                resolved.options, resolved.registry, ?_, resolved.warnings, resolved.root, resolved.fresh, ?_⟩
              · refine Pass.Tidy.sets_congr resolved.registry fun other otherIn => ?_
                obtain ⟨otherRule, otherBody, otherFound⟩ :=
                  tidy.sound.exists_tree (mem_tops_of_registered otherIn)
                have absent : place.id ∉ otherBody.ids := fun both =>
                  tidy.ne_root (by simp [otherIn]) (tidy.sound.top_unique
                    (mem_tops_of_registered otherIn) List.mem_cons_self otherFound rootFound
                    (List.mem_cons_of_mem _ both) (List.mem_cons_of_mem _ within))
                rw [resolved.trees other otherIn, otherFound, Option.map_some,
                  Forest.replace_of_not_mem absent]
              · rw [resolved.root]
                exact resolved.under rootItem below rootFound
                  (not_mem_tops_of_enclosed tidy rootFound member enclosed)

/-! ## Prepared sets -/

/-- Once the sets are prepared, none of them holds a reference. -/
theorem prepared_plain {css : String} {document : Document} {options : Options}
    (parsed : Document.parse css = .ok document)
    (ran : prepare { document, options } = .ok () prepared) :
    prepared.Tidy [] [] ∧
      ∀ name rule body, prepared.sets name = some (rule, body) → body.Plain := by
  obtain ⟨_, first, ranFirst, ran⟩ := exists_of_bind_ok ran
  obtain ⟨_, second, ranSecond, ran⟩ := exists_of_bind_ok ran
  obtain ⟨_, found, ranThird, ranNested⟩ := exists_of_bind_ok ran
  have ranSets : findSets { document, options } = .ok () found :=
    (bind_ok ranFirst).trans ((bind_ok ranSecond).trans ranThird)
  obtain ⟨flattened, raised, after, ranAgain, progress, done⟩ :=
    progress_resolveNested (tidy_findSets parsed ranSets)
  rw [ranNested] at ranAgain
  cases ranAgain
  exact ⟨progress.tidy, progress.flat done⟩

/-! ## All references, in document order -/

/-- A reference that cannot be resolved: it stands in a rule, and what it names is no
set. -/
def Unresolvable (sets : Sets) (place : Place) : Prop :=
  place.enclosed = true ∧ ∀ name, place.kind.reference? = some (some name) → sets name = none

/-- How far the loop over the references has come.  Those in `seen` were visited and
left. -/
structure Resolving (prepared : Pass) (todo : List NodeId) (seen : List Place)
    (raised : List Warning) (rootItem : Item) (below : Forest Node) (pass : Pass) : Prop where
  answered : Answered prepared rootItem below raised pass
  walk : below.Walk (Kind.isAtRule referenceRule) [.root] todo seen
  given : ∀ id ∈ todo, id.index < prepared.document.fresh
  settled : ∀ place ∈ seen, Unresolvable prepared.sets place
  reports : (raised.filter fun warning => warning.cause ≠ .orphanedReference) =
    seen.filterMap Place.report?

theorem placesOf_of_plain {forest : Forest Node} (plain : forest.items.Plain) (above : List Kind) :
    forest.placesOf (Kind.isAtRule referenceRule) above = [] := by
  have none_ := Forest.references_eq_nil.mpr plain
  rw [Forest.references, ← Forest.map_id_placesOf _ above, List.map_eq_nil_iff] at none_
  exact none_

section Loop

variable {todo : List NodeId} {seen : List Place}

/-- **One round of the loop.**  The next reference is there: it is visited. -/
theorem Resolving.visit
    (plain : ∀ name rule body, prepared.sets name = some (rule, body) → body.Plain)
    (resolving : Resolving prepared (id :: todo) seen raised rootItem below pass)
    (alive : id ∈ below.ids) :
    ∃ seen' raised' left after, resolve id pass = .ok () after ∧
      Resolving prepared todo seen' raised' rootItem left after := by
  obtain ⟨answered, walk, given, settled, reports⟩ := resolving
  have nodup := (Forest.nodup_below answered.tidy.sound.nodup answered.under).2
  have later : ∀ other ∈ todo, other.index < prepared.document.fresh :=
    fun other member => given other (List.mem_cons_of_mem _ member)
  obtain ⟨place, ahead, rfl, split, -⟩ := walk.next alive
  have among : place ∈ below.placesOf (Kind.isAtRule referenceRule) [.root] := by
    rw [split]
    exact List.mem_append_right _ List.mem_cons_self
  obtain ⟨member, isReference⟩ := List.mem_filter.mp among
  rw [Kind.isAtRule_reference] at isReference
  obtain ⟨target, refers⟩ := Option.isSome_iff_exists.mp isReference
  obtain ⟨left, new, after, ran, verdict, step⟩ :=
    resolve_reference answered.tidy answered.under member refers
  obtain ⟨item, children, -, found, -⟩ :=
    answered.tidy.sound.exists_node_of_place answered.under member
  -- A reference that is left joins those that were seen.
  have stays : place.enclosed = true →
      (∀ name, place.kind.reference? = some (some name) → pass.sets name = none) →
        ∀ other ∈ seen ++ [place], Unresolvable prepared.sets other := by
    intro inside absent other member
    rcases List.mem_append.mp member with earlier | last
    · exact settled other earlier
    · rw [List.mem_singleton.mp last]
      exact ⟨inside, fun name refers => answered.sets ▸ absent name refers⟩
  cases verdict with
  | orphaned outside =>
      refine ⟨seen, _, _, after, ran, answered.trans step, walk.without nodup found, later,
        settled, ?_⟩
      rw [List.filter_append, reports]
      simp
  | nameless inside refers =>
      refine ⟨seen ++ [place], _, below, after, ran, answered.trans step,
        walk.leave nodup member rfl, later, stays inside (by simp [refers]), ?_⟩
      rw [List.append_nil, reports, List.filterMap_append]
      simp [Place.report?, refers]
  | unknown inside refers absent =>
      refine ⟨seen ++ [place], _, below, after, ran, answered.trans step,
        walk.leave nodup member rfl, later, stays inside ?_, ?_⟩
      · intro name refers'
        rw [refers] at refers'
        cases refers'
        exact absent
      · rw [List.filter_append, reports, List.filterMap_append]
        simp [Place.report?, refers]
  | known inside refers setFound copied new =>
      refine ⟨seen, _, _, after, ran, answered.trans step,
        walk.replace nodup found (placesOf_of_plain ?_) ?_, later, settled, ?_⟩
      · rw [copied]
        exact (plain _ _ _ (answered.sets ▸ setFound)).reindent _
      · intro other fresh pending
        have := new other fresh
        have := later other pending
        have := answered.fresh
        omega
      · rw [List.append_nil]
        exact reports

/-- **The whole loop.**  All references have been visited. -/
theorem Resolving.loop
    (plain : ∀ name rule body, prepared.sets name = some (rule, body) → body.Plain)
    (resolving : Resolving prepared todo seen raised rootItem below pass) :
    ∃ after, forAttached todo resolve pass = .ok () after ∧
      ∃ seen' raised' left, Resolving prepared [] seen' raised' rootItem left after := by
  refine loop_attached (fun todo pass => ∃ seen raised left,
    Resolving prepared todo seen raised rootItem left pass) ?_ ⟨seen, raised, below, resolving⟩
  rintro id todo pass ⟨seen, raised, below, resolving⟩
  have tidy := resolving.answered.tidy
  refine round_attached tidy resolving.answered.under ?_ ?_ ?_
  · obtain ⟨_, _, found, kind⟩ := tidy.sound.root
    refine resolve_other fun other known => ?_
    rw [kind?_of_find? found, kind] at known
    cases known
    rfl
  · intro alive
    obtain ⟨seen', raised', left, after, ran, visited⟩ := resolving.visit plain alive
    exact ⟨after, ran, seen', raised', left, visited⟩
  · intro gone
    exact ⟨seen, raised, below, resolving.answered, resolving.walk.skip gone,
      fun other member => resolving.given other (List.mem_cons_of_mem _ member),
      resolving.settled, resolving.reports⟩

end Loop

end Step

/-- **What a run leaves.**  Every reference that is left in the document stands in a
rule and names no registered set.  After the sets were prepared, each of them that
names anything is reported, in document order and with its source, and nothing else
is but references outside all rules. -/
theorem residue_run {css : String} {document : Document} {options : Options} {after : Pass}
    (parsed : Document.parse css = .ok document)
    (ran : Step.run { document, options } = .ok () after) :
    ∃ prepared raised rootItem below,
      Step.prepare { document, options } = .ok () prepared ∧
      after.warnings = prepared.warnings ++ raised ∧
      after.document.find? after.document.root = some (rootItem, below) ∧
      (∀ place ∈ below.places [.root], ∀ target, place.kind.reference? = some target →
        place.enclosed = true ∧ ∀ name, target = some name → name ∉ after.registry.names) ∧
      (raised.filter fun warning => warning.cause ≠ .orphanedReference) =
        (below.places [.root]).filterMap Place.report? := by
  obtain ⟨_, prepared, ranPrepare, ranLoop⟩ := exists_of_bind_ok ran
  obtain ⟨tidy, plain⟩ := Step.prepared_plain parsed ranPrepare
  obtain ⟨rootItem, below, rootFound, -⟩ := tidy.sound.root
  have listed := Step.underRoot_places rootFound (Kind.isAtRule referenceRule)
  have begun : Step.Resolving prepared
      ((below.placesOf (Kind.isAtRule referenceRule) [.root]).map Place.id) [] [] rootItem below
      prepared := by
    refine ⟨Step.answered_self tidy rootFound, Forest.Walk.start .., ?_, List.forall_mem_nil _, rfl⟩
    intro id member
    obtain ⟨place, among, rfl⟩ := List.mem_map.mp member
    exact tidy.sound.given _
      (Forest.mem_ids_below rootFound (Forest.mem_ids_of_mem_placesOf among))
  obtain ⟨final, ranAll, seen, raised, left, done⟩ := begun.loop plain
  rw [bind_ok listed, ranAll] at ranLoop
  cases ranLoop
  have visited := done.walk.finish
  refine ⟨prepared, raised, rootItem, left, ranPrepare, done.answered.warnings,
    done.answered.under, ?_, ?_⟩
  · intro place member target refers
    have among : place ∈ seen := by
      rw [← visited]
      refine List.mem_filter.mpr ⟨member, ?_⟩
      rw [Kind.isAtRule_reference, refers]
      rfl
    obtain ⟨inside, absent⟩ := done.settled place among
    refine ⟨inside, ?_⟩
    rintro name rfl isName
    have none_ := absent name refers
    rw [← done.answered.sets] at none_
    have some_ := done.answered.tidy.isSome_sets.mpr (Registry.lookup?_of_mem_names isName)
    rw [none_] at some_
    cases some_
  · rw [done.reports, ← visited, Forest.placesOf, List.filterMap_filter]
    refine List.filterMap_congr fun place _ => ?_
    rw [Kind.isAtRule_reference, Place.report?]
    cases refers : place.kind.reference? <;> simp

/-- The pole of `residue_run`: a reference outside all rules goes, one to an unknown
set stays with what it holds resolved, and one to a known set goes with all that it
holds. -/
theorem residue_run_nested :
    ∃ document after,
      Document.parse (":root\x7b--a:\x7bb:c\x7d\x7d@apply --a;" ++
        ".x\x7b@apply --u\x7b@apply --a;@apply z;\x7d@apply --a\x7b@apply --v;\x7d\x7d") =
          .ok document ∧
      Step.run { document, options := {} } = .ok () after ∧
      after.document.css = ".x\x7b@apply --u\x7bb:c;@apply z;\x7db:c\x7d" ∧
      ∃ prepared raised rootItem below,
        Step.prepare { document, options := {} } = .ok () prepared ∧
        after.warnings = prepared.warnings ++ raised ∧
        after.document.find? after.document.root = some (rootItem, below) ∧
        (raised.filter fun warning => warning.cause ≠ .orphanedReference) =
          (below.places [.root]).filterMap Place.report? := by
  obtain ⟨document, after, parsed, ran, printed⟩ := Step.exists_ran Step.run
    (":root\x7b--a:\x7bb:c\x7d\x7d@apply --a;" ++
      ".x\x7b@apply --u\x7b@apply --a;@apply z;\x7d@apply --a\x7b@apply --v;\x7d\x7d") {}
    (fun pass => decide (pass.document.css = ".x\x7b@apply --u\x7bb:c;@apply z;\x7db:c\x7d"))
    (by decide +kernel)
  obtain ⟨prepared, raised, rootItem, below, ranPrepare, warnings, rootFound, -, reports⟩ :=
    residue_run parsed ran
  exact ⟨document, after, parsed, ran, of_decide_eq_true printed, prepared, raised, rootItem, below,
    ranPrepare, warnings, rootFound, reports⟩

end ApplyRule
