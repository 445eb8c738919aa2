/-
# ApplyRule.Proofs.TopLevel -- the children of the root

A run changes the children of the root in one way only: some of them go.  Definitions
that stand there go where they are found, a rule for the document root goes with the
last of what it holds, and so does a reference that stands in no rule.  All else that
is replaced or moved is inside a child of the root.

`Forest.Thinned` is what all of these come to, one after the other and in any mix: no
child is new or in another order, and the text before the first child is still there,
before the first that is left.
-/
import ApplyRule.Proofs.AnyOrder
import ApplyRule.Proofs.Predefined
import ApplyRule.Proofs.Slots

namespace ApplyRule

set_option autoImplicit false

open Document

/-! ## Thinning -/

namespace Forest

variable {below left final more children : Forest Node} {id scope : NodeId} {item : Item}

/-- Some trees are gone.  Those that are left are in their order, and the text before the first
tree is still before the first. -/
structure Thinned (below left : Forest Node) : Prop where
  tops : left.tops.Sublist below.tops
  led : ∀ lead, below.LedBy lead → left.LedBy lead

theorem Thinned.refl (below : Forest Node) : below.Thinned below :=
  ⟨List.Sublist.refl _, fun _ led => led⟩

theorem Thinned.trans (first : below.Thinned left) (second : left.Thinned final) :
    below.Thinned final :=
  ⟨second.tops.trans first.tops, fun lead led => second.led lead (first.led lead led)⟩

theorem tops_mapFirst_precede (text : String) (forest : Forest Node) :
    (forest.mapFirst (Node.precede text)).tops = forest.tops := by
  cases forest <;> rfl

theorem tops_without (nodup : below.ids.Nodup) (id : NodeId) :
    (below.without id).tops = below.tops.filter (· ≠ id) := by
  rw [← NodeId.exchange_nil]
  cases below with
  | nil => rfl
  | cons first inner rest => exact (tops_mapFirst_precede _ _).trans (tops_replace nodup)

/-- A tree that goes hands the text before it on. -/
theorem thinned_without (nodup : below.ids.Nodup) (id : NodeId) :
    below.Thinned (below.without id) := by
  constructor
  · rw [tops_without nodup]
    exact List.filter_sublist
  · intro lead led
    exact led.without id

/-- What is replaced inside a tree is not seen at the top. -/
theorem thinned_replace (inner : id ∉ below.tops) (more : Forest Node) :
    below.Thinned (replace id more below) := by
  constructor
  · rw [tops_replace_of_not_mem inner]
  · intro lead led
    exact led.replace inner

/-- A scope that still holds something keeps its place and the text before it. -/
theorem thinned_close (nodup : below.ids.Nodup) (found : below.find? scope = some (item, children))
    {closed : Item} (same : closed.raws.before = item.raws.before) (more : Forest Node) :
    below.Thinned (replace scope (.tree ⟨scope, closed⟩ more) below) := by
  constructor
  · rw [tops_replace nodup]
    exact NodeId.exchange_self.symm ▸ List.Sublist.refl _
  · intro lead led
    cases below with
    | nil => cases found
    | cons first inner rest =>
        by_cases here : first.id = scope
        · rw [find?, if_pos here] at found
          cases found
          rw [replace, if_pos here]
          rintro _ ⟨⟩
          exact same.trans (led first rfl)
        · rw [replace, if_neg here]
          exact led

theorem before_closed (last item : Item) : (closed last item).raws.before = item.raws.before := by
  unfold closed
  split <;> rfl

/-- A scope that is left with nothing goes. -/
theorem thinned_settled (nodup : below.ids.Nodup)
    (found : below.find? scope = some (item, children)) (held : Forest Node) :
    below.Thinned (settled scope item held below) := by
  unfold settled
  split
  · exact thinned_without nodup scope
  · exact thinned_close nodup found (before_closed _ item) held

end Forest

namespace Step

variable {pass after : Pass} {rootItem : Item} {below left : Forest Node} {place : Place}
  {stored : List SetRule} {raised : List Warning}

/-! ## One node -/

theorem Declared.thinned (nodup : below.ids.Nodup) (declared : Declared below place left stored) :
    below.Thinned left := by
  cases declared with
  | idle => exact .refl below
  | dropped => exact Forest.thinned_without nodup place.id
  | taken read found isScope new => exact Forest.thinned_settled nodup found _

theorem Ruled.thinned {preserve : Bool} (nodup : below.ids.Nodup)
    (ruled : Ruled preserve below place left stored) : below.Thinned left := by
  cases ruled with
  | idle | copied => exact .refl below
  | dropped => exact Forest.thinned_without nodup place.id
  | taken accepted defines goes found isScope => exact Forest.thinned_settled nodup found _

/-- Only a reference that stands in no rule is a child of the root. -/
theorem Verdict.thinned (nodup : below.ids.Nodup)
    (inner : place.enclosed = true → place.id ∉ below.tops)
    (verdict : Verdict pass below place left raised) : below.Thinned left := by
  cases verdict with
  | orphaned => exact Forest.thinned_without nodup place.id
  | nameless | unknown => exact .refl below
  | known inside => exact Forest.thinned_replace (inner inside) _

/-! ## Whole steps -/

/-- The pass is tidy, and what the root holds is what it held, thinned. -/
structure Thins (root : NodeId) (rootItem : Item) (below : Forest Node) (pass : Pass) : Prop where
  tidy : pass.Tidy [] []
  root : pass.document.root = root
  under : ∃ left, pass.document.find? pass.document.root = some (rootItem, left) ∧
    below.Thinned left

variable {root : NodeId}

/-- Visits that only thin what the root holds, one after the other. -/
theorem Thins.loop {step : NodeId → Step Unit} (todo : List NodeId)
    (onRoot : ∀ pass : Pass, pass.Tidy [] [] → step pass.document.root pass = .ok () pass)
    (visit : ∀ (pass : Pass) (below : Forest Node) (place : Place), pass.Tidy [] [] →
      pass.document.find? pass.document.root = some (rootItem, below) →
      place ∈ below.places [.root] →
      ∃ after, step place.id pass = .ok () after ∧ Thins pass.document.root rootItem below after)
    (thins : Thins root rootItem below pass) :
    ∃ after, forAttached todo step pass = .ok () after ∧ Thins root rootItem below after := by
  refine loop_attached (fun _ pass => Thins root rootItem below pass) ?_ thins
  rintro id todo pass ⟨tidy, rfl, left, rootFound, thinned⟩
  refine round_attached tidy rootFound (onRoot pass tidy) ?_ ?_
  · intro alive
    obtain ⟨place, member, rfl⟩ : ∃ place ∈ left.places [.root], place.id = id :=
      Forest.exists_place alive
    obtain ⟨after, ran, tidyAfter, same, final, found, more⟩ :=
      visit pass left place tidy rootFound member
    exact ⟨after, ran, tidyAfter, same, final, found, thinned.trans more⟩
  · intro gone
    exact ⟨tidy, rfl, left, rootFound, thinned⟩

/-- The loop over the nodes of a class under the root. -/
theorem Thins.visits {step : NodeId → Step Unit} (p : Kind → Bool)
    (onRoot : ∀ pass : Pass, pass.Tidy [] [] → step pass.document.root pass = .ok () pass)
    (visit : ∀ (pass : Pass) (below : Forest Node) (place : Place), pass.Tidy [] [] →
      pass.document.find? pass.document.root = some (rootItem, below) →
      place ∈ below.places [.root] →
      ∃ after, step place.id pass = .ok () after ∧ Thins pass.document.root rootItem below after)
    (thins : Thins root rootItem below pass)
    (ran : (do forAttached (← underRoot p) step) pass = .ok () after) :
    Thins root rootItem below after := by
  obtain ⟨left, rootFound, -⟩ := thins.under
  obtain ⟨final, ranLoop, done⟩ :=
    thins.loop ((left.placesOf p [.root]).map Place.id) onRoot visit
  rw [bind_ok (underRoot_places rootFound p), ranLoop] at ran
  cases ran
  exact done

theorem Collected.thins {sets : List SetRule}
    (collected : Collected pass rootItem left sets raised after) (thinned : below.Thinned left) :
    Thins pass.document.root rootItem below after :=
  ⟨collected.tidy, collected.root, left, collected.under, thinned⟩

theorem thins_extractDeclarations (thins : Thins root rootItem below pass)
    (ran : extractDeclarations pass = .ok () after) : Thins root rootItem below after := by
  refine thins.visits Kind.isDeclaration (fun _ tidy => (collect_root tidy).1) ?_ ran
  intro pass below place tidy rootFound member
  obtain ⟨left, stored, raised, after, ran, declared, collected⟩ :=
    collect_declaration tidy rootFound member
  have nodup := (Forest.nodup_below tidy.sound.nodup rootFound).2
  exact ⟨after, ran, collected.thins (declared.thinned nodup)⟩

theorem thins_extractRules (thins : Thins root rootItem below pass)
    (ran : extractRules pass = .ok () after) : Thins root rootItem below after := by
  refine thins.visits Kind.isRule (fun _ tidy => (collect_root tidy).2) ?_ ran
  intro pass below place tidy rootFound member
  obtain ⟨left, stored, raised, after, ran, ruled, collected⟩ :=
    collect_rule tidy rootFound member
  have nodup := (Forest.nodup_below tidy.sound.nodup rootFound).2
  exact ⟨after, ran, collected.thins (ruled.thinned nodup)⟩

/-- The root is no reference. -/
theorem resolve_root (tidy : pass.Tidy [] []) :
    resolve pass.document.root pass = .ok () pass := by
  obtain ⟨rootItem, below, rootFound, kind⟩ := tidy.sound.root
  refine resolve_other fun other known => ?_
  rw [kind?_of_find? rootFound, kind] at known
  cases known
  rfl

theorem thins_resolve (thins : Thins root rootItem below pass)
    (ran : (do forAttached (← underRoot (Kind.isAtRule referenceRule)) resolve) pass =
      .ok () after) : Thins root rootItem below after := by
  refine thins.visits (Kind.isAtRule referenceRule) (fun _ => resolve_root) ?_ ran
  intro pass below place tidy rootFound member
  cases refers : place.kind.reference? with
  | none =>
      obtain ⟨item, _, _, -, found, -, -, same⟩ :=
        tidy.sound.exists_node_of_place rootFound member
      refine ⟨pass, resolve_other fun kind known => ?_, tidy, rfl, below, rootFound, .refl below⟩
      rw [kind?_of_find? found] at known
      cases known
      exact (congrArg (fun place => place.kind.reference?) same).symm.trans refers
  | some target =>
      obtain ⟨left, raised, after, ran, verdict, answered⟩ :=
        resolve_reference tidy rootFound member refers
      have nodup := (Forest.nodup_below tidy.sound.nodup rootFound).2
      have inner := not_mem_tops_of_enclosed tidy rootFound member
      exact ⟨after, ran, answered.collected.thins (verdict.thinned nodup inner)⟩

/-- Sets are registered and flattened apart from the tree under the root. -/
theorem thins_prepare (tidy : pass.Tidy [] [])
    (rootFound : pass.document.find? pass.document.root = some (rootItem, below))
    (ran : prepare pass = .ok () after) : Thins pass.document.root rootItem below after := by
  obtain ⟨_, first, ranGiven, ran⟩ := exists_of_bind_ok ran
  obtain ⟨_, second, ranDeclarations, ran⟩ := exists_of_bind_ok ran
  obtain ⟨_, third, ranRules, ranNested⟩ := exists_of_bind_ok ran
  have given := collect_registerPredefined tidy rootFound
  rw [Outcome, ranGiven] at given
  obtain ⟨stored, collected⟩ := given
  have thins := thins_extractRules
    (thins_extractDeclarations (collected.thins (.refl below)) ranDeclarations) ranRules
  obtain ⟨left, under, thinned⟩ := thins.under
  obtain ⟨flattened, raised, last, ranAgain, progress, -⟩ := progress_resolveNested thins.tidy
  rw [ranNested] at ranAgain
  cases ranAgain
  refine ⟨progress.tidy, progress.root.trans thins.root, left, ?_, thinned⟩
  rw [progress.root, progress.outside, under]

end Step

/-! ## Runs -/

namespace Document

variable {document after : Document} {rootItem : Item} {below left inner rest : Forest Node}
  {node : Node}

/-- The first child of the root. -/
theorem item?_first (nodup : document.forest.ids.Nodup)
    (rootFound : document.find? document.root = some (rootItem, .cons node inner rest)) :
    document.item? node.id = some node.item := by
  have within : node.id ∈ (Forest.cons node inner rest).ids := by simp
  exact item?_of_find?
    ((Forest.find?_eq_find? nodup rootFound within).trans (Forest.find?_cons_self ..))

/-- The first child that is left has the text before it that the first child had. -/
theorem before_first (nodup : document.forest.ids.Nodup) (nodupAfter : after.forest.ids.Nodup)
    (rootFound : document.find? document.root = some (rootItem, below))
    (under : after.find? after.root = some (rootItem, left)) (thinned : below.Thinned left)
    {first : NodeId} (stands : left.tops.head? = some first) :
    ∃ former item formerItem, below.tops.head? = some former ∧
      document.item? former = some formerItem ∧ after.item? first = some item ∧
      item.raws.before = formerItem.raws.before := by
  cases left with
  | nil => cases stands
  | cons node inner rest =>
      cases stands
      cases below with
      | nil => cases thinned.tops
      | cons former formerInner formerRest =>
          have led : (Forest.cons former formerInner formerRest).LedBy former.item.raws.before := by
            rintro _ ⟨⟩
            rfl
          exact ⟨former.id, node.item, former.item, rfl, item?_first nodup rootFound,
            item?_first nodupAfter under, thinned.led _ led node rfl⟩

end Document

/-- **The top level only loses children.**  When a run of a parsed stylesheet succeeds, the
children of the root are some of those that were parsed, in their order, and the text before
the first of them is the text before the first that was parsed. -/
theorem run_thins {css : String} {document : Document} {options : Options} {after : Pass}
    (parsed : Document.parse css = .ok document)
    (ran : Step.run { document, options } = .ok () after) :
    after.document.root = document.root ∧
    ∃ children left, document.children? document.root = some children ∧
      after.document.children? document.root = some left ∧ left.Sublist children ∧
      ∀ first, left.head? = some first → ∃ former item formerItem,
        children.head? = some former ∧ document.item? former = some formerItem ∧
        after.document.item? first = some item ∧
        item.raws.before = formerItem.raws.before := by
  have tidy := Pass.tidy_of_parse parsed options
  obtain ⟨rootItem, below, rootFound, -⟩ := tidy.sound.root
  obtain ⟨_, prepared, ranPrepare, ranLoop⟩ := exists_of_bind_ok ran
  have thins := Step.thins_resolve (Step.thins_prepare tidy rootFound ranPrepare) ranLoop
  obtain ⟨left, under, thinned⟩ := thins.under
  have same : after.document.root = document.root := thins.root
  refine ⟨same, below.tops, left.tops, ?_, ?_, thinned.tops, fun first stands => ?_⟩
  · rw [children?, rootFound]
    rfl
  · rw [← same, children?, under]
    rfl
  · exact before_first tidy.sound.nodup thins.tidy.sound.nodup rootFound under thinned stands

/-- A misplaced definition, a scope and a reference go from before a rule, which comes first
then and takes over the text before the definition. -/
theorem run_thins_first : ∃ document after,
    Document.parse ("\n\n--a \x7bb: c\x7d :root \x7b --d: \x7be: f\x7d \x7d @apply --d; " ++
      ".g \x7bh: i\x7d") = .ok document ∧
    Step.run { document, options := {} } = .ok () after ∧
    document.children? document.root = some [⟨2⟩, ⟨4⟩, ⟨6⟩, ⟨7⟩] ∧
    after.document.children? document.root = some [⟨7⟩] ∧
    ∃ item formerItem, document.item? ⟨2⟩ = some formerItem ∧
      after.document.item? ⟨7⟩ = some item ∧ item.raws.before = formerItem.raws.before := by
  obtain ⟨document, parsed, computed⟩ := exists_ok_of_any
    (Document.parse ("\n\n--a \x7bb: c\x7d :root \x7b --d: \x7be: f\x7d \x7d @apply --d; " ++
      ".g \x7bh: i\x7d"))
    (fun document =>
      decide (document.children? document.root = some [⟨2⟩, ⟨4⟩, ⟨6⟩, ⟨7⟩]) &&
      Step.run.leads (fun after =>
        decide (after.document.children? document.root = some [⟨7⟩])) { document, options := {} })
    (by decide +kernel)
  obtain ⟨before, computed⟩ := Bool.and_eq_true_iff.mp computed
  obtain ⟨after, ran, left⟩ := Step.exists_of_leads computed
  have listed := of_decide_eq_true before
  have leaves := of_decide_eq_true left
  obtain ⟨-, children, final, listedToo, leavesToo, -, first⟩ := run_thins parsed ran
  cases listed.symm.trans listedToo
  cases leaves.symm.trans leavesToo
  obtain ⟨former, item, formerItem, head, formerFound, found, same⟩ := first ⟨7⟩ rfl
  cases head
  exact ⟨document, after, parsed, ran, listed, leaves, item, formerItem, formerFound, found, same⟩

end ApplyRule
