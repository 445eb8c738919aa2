/-
# ApplyRule.Proofs.Tidy -- the trees of a pass

Between two steps a document has the root's tree and one tree for each registered
set, and no other.  While a definition is taken out there are more: the rules that
are to be registered and the items that are to be put back.  `Pass.Tidy pass sets
items` says which.

New trees are planted (`tidy_plantSets`, `tidy_plantItems`), and a tree that was
planted is registered, in the place of the one that its name had before
(`tidy_store`).  All other trees stay as they are.
-/
import ApplyRule.Proofs.ProperItems
import ApplyRule.Proofs.Registry

namespace ApplyRule

set_option autoImplicit false

open Document

/-- The trees of a pass are the root's, the registered rules, the rules `sets` that
are to be registered, and the `items` that are to be put in place. -/
structure Pass.Tidy (pass : Pass) (sets items : List NodeId) : Prop where
  sound : pass.document.Sound (pass.document.root :: (pass.registry.ids ++ sets ++ items))
  rules : ∀ id ∈ pass.registry.ids ++ sets, pass.document.isKind Kind.isRule id = true
  names : pass.registry.names.Nodup

namespace Pass.Tidy

variable {pass : Pass} {sets items : List NodeId} {id : NodeId}

theorem ne_root (tidy : pass.Tidy sets items) (member : id ∈ pass.registry.ids ++ sets ++ items) :
    id ≠ pass.document.root :=
  fun eq => (List.nodup_cons.mp tidy.sound.nodup_tops).1 (eq ▸ member)

theorem mem_tops (member : id ∈ pass.registry.ids ++ sets ++ items) :
    id ∈ pass.document.root :: (pass.registry.ids ++ sets ++ items) :=
  List.mem_cons_of_mem _ member

/-- A node that is neither a root nor a rule is no registered set. -/
theorem not_top (tidy : pass.Tidy sets []) {item : Item} {children : Forest Node}
    (found : pass.document.find? id = some (item, children)) (notRoot : item.kind.isRoot = false)
    (notRule : item.kind.isRule = false) :
    id ∉ pass.document.root :: (pass.registry.ids ++ sets ++ []) := by
  intro member
  rcases List.mem_cons.mp member with rfl | registered
  · obtain ⟨rootItem, below, rootFound, kind⟩ := tidy.sound.root
    rw [rootFound] at found
    cases found
    rw [kind] at notRoot
    cases notRoot
  · rw [List.append_nil] at registered
    obtain ⟨other, below, otherFound, isRule⟩ := isKind_iff.mp (tidy.rules id registered)
    rw [otherFound] at found
    cases found
    rw [isRule] at notRule
    cases notRule

/-- A changed document keeps a pass tidy if it is sound and the rules stay rules. -/
theorem edited {after : Document} {left : List NodeId} (tidy : pass.Tidy sets items)
    (root : after.root = pass.document.root)
    (sound : after.Sound (pass.document.root :: (pass.registry.ids ++ sets ++ left)))
    (kept : ∀ id ∈ pass.registry.ids ++ sets, after.item? id = pass.document.item? id) :
    ({ pass with document := after } : Pass).Tidy sets left := by
  refine ⟨root ▸ sound, fun id member => ?_, tidy.names⟩
  show after.isKind Kind.isRule id = true
  rw [isKind, kind?, kept id member]
  exact tidy.rules id member

/-- Other trees in the place of a node keep a pass tidy. -/
theorem replaced {after : Document} {children more : Forest Node} (tidy : pass.Tidy sets items)
    (changed : Replaced pass.document (pass.document.root :: (pass.registry.ids ++ sets ++ items))
      id children more after) : ({ pass with document := after } : Pass).Tidy sets items := by
  refine tidy.edited changed.root changed.sound fun other member => ?_
  have registered : other ∈ pass.registry.ids ++ sets ++ items := List.mem_append_left _ member
  rw [item?, item?, changed.trees other (mem_tops registered) (tidy.ne_root registered),
    Option.map_map]
  rfl

theorem warned (tidy : pass.Tidy sets items) (warnings : List Warning) :
    ({ pass with warnings } : Pass).Tidy sets items :=
  ⟨tidy.sound, tidy.rules, tidy.names⟩

end Pass.Tidy

theorem Pass.tidy_of_parse {css : String} {document : Document}
    (parsed : Document.parse css = .ok document) (options : Options) :
    ({ document, options } : Pass).Tidy [] [] :=
  ⟨sound_of_parse parsed, nofun, List.nodup_nil⟩

/-- A tree that stands in a document, but for the identities of its nodes. -/
def Document.Carries (document : Document) (id : NodeId) (item : Item) (inner : Forest Item) :
    Prop :=
  ∃ children, document.find? id = some (item, children) ∧ children.items = inner

namespace Step

variable {pass : Pass} {sets items : List NodeId} {id scope : NodeId} {children : Forest Node}

/-! ## Small steps -/

theorem edit_ok {α : Type} {change : Edit α} {answer : α} {document : Document}
    (ran : change pass.document = .ok answer document) :
    edit change pass = .ok answer { pass with document } := by
  rw [edit, ran]

theorem ask_ok {α : Type} {question : Document → Option α} {answer : α}
    (known : question pass.document = some answer) : ask question pass = .ok answer pass :=
  edit_ok (Edit.ask_ok known)

theorem document_ok : document pass = .ok pass.document pass := rfl

theorem get_ok : (get : Step Pass) pass = .ok pass pass := rfl

theorem source_ok {item : Item} (found : pass.document.find? id = some (item, children)) :
    source id pass = .ok item.source pass := by
  rw [source, bind_ok (ask_ok (item?_of_find? found))]
  rfl

theorem warn_ok (cause : Cause) (source : Option Text.Location) :
    warn cause source pass =
      .ok () { pass with warnings := pass.warnings ++ [⟨cause, source⟩] } := rfl

/-! ## Planting -/

/-- What was there before is there after. -/
structure Grown (pass after : Pass) : Prop where
  options : after.options = pass.options
  registry : after.registry = pass.registry
  warnings : after.warnings = pass.warnings
  root : after.document.root = pass.document.root
  found : ∀ id ∈ pass.document.forest.ids, after.document.find? id = pass.document.find? id

theorem Grown.refl (pass : Pass) : Grown pass pass := ⟨rfl, rfl, rfl, rfl, fun _ _ => rfl⟩

theorem Grown.trans {mid after : Pass} (first : Grown pass mid) (second : Grown mid after) :
    Grown pass after := by
  refine ⟨second.options.trans first.options, second.registry.trans first.registry,
    second.warnings.trans first.warnings, second.root.trans first.root, fun id member => ?_⟩
  obtain ⟨item, children, found⟩ := Forest.exists_find? member
  have kept := (first.found id member).trans found
  rw [second.found id (Forest.mem_ids_of_find? kept), first.found id member]

theorem Grown.carries {after : Pass} (grown : Grown pass after) {item : Item} {inner : Forest Item}
    (carries : pass.document.Carries id item inner) : after.document.Carries id item inner := by
  obtain ⟨children, found, items⟩ := carries
  exact ⟨children, (grown.found id (Forest.mem_ids_of_find? found)).trans found, items⟩

theorem grown_plant (pass : Pass) (item : Item) (inner : Forest Item) :
    Grown pass { pass with document := pass.document.plant item inner } :=
  ⟨rfl, rfl, rfl, rfl, fun _ member => find?_plant item inner member⟩

theorem carries_plant (tidy : pass.Tidy sets items) (item : Item) (inner : Forest Item) :
    (pass.document.plant item inner).Carries ⟨pass.document.fresh⟩ item inner :=
  ⟨_, tidy.sound.numbered.find?_plant_self item inner, Forest.items_number _ _⟩

theorem item?_plant (tidy : pass.Tidy sets items) (item : Item) (inner : Forest Item)
    (member : id ∈ pass.registry.ids ++ sets) :
    (pass.document.plant item inner).item? id = pass.document.item? id := by
  have known := tidy.sound.mem_ids (Pass.Tidy.mem_tops (List.mem_append_left _ member))
  rw [item?, item?, find?_plant item inner known]

theorem tidy_plant (tidy : pass.Tidy sets items) {item : Item} {inner : Forest Item}
    (proper : (Forest.tree item inner).Proper) :
    ∃ new after, edit (Edit.plant item inner) pass = .ok new after ∧
      after.Tidy sets (items ++ [new]) ∧ Grown pass after ∧
      after.document.Carries new item inner := by
  refine ⟨_, _, edit_ok rfl, ?_, grown_plant pass item inner, carries_plant tidy item inner⟩
  refine tidy.edited rfl ((tidy.sound.plant proper).perm ?_) fun other member =>
    item?_plant tidy item inner member
  rw [← List.append_assoc, ← List.cons_append]
  exact (List.perm_append_singleton _ _).symm

theorem tidy_plantSet (tidy : pass.Tidy sets items) {set : SetRule} (proper : set.Proper) :
    ∃ new after, plantSet set pass = .ok new after ∧ after.Tidy (sets ++ [new]) items ∧
      Grown pass after ∧ after.document.Carries new set.item set.children := by
  refine ⟨_, _, edit_ok rfl, ⟨(tidy.sound.plant proper.tree).perm ?_, ?_, tidy.names⟩,
    grown_plant pass set.item set.children, carries_plant tidy set.item set.children⟩
  · rw [← List.append_assoc, List.append_assoc _ [_] items, ← List.cons_append]
    exact List.perm_middle.symm
  · intro other member
    rw [← List.append_assoc] at member
    rcases List.mem_append.mp member with old | new
    · show (pass.document.plant set.item set.children).isKind Kind.isRule other = true
      rw [isKind, kind?, item?_plant tidy set.item set.children old]
      exact tidy.rules other old
    · rw [List.mem_singleton.mp new]
      exact isKind_iff.mpr ⟨_, _, tidy.sound.numbered.find?_plant_self set.item set.children, proper.rule⟩

theorem tidy_plantSets (list : List SetRule) (tidy : pass.Tidy sets items)
    (proper : ∀ set ∈ list, set.Proper) :
    ∃ (new : List (String × NodeId)) (after : Pass),
      (list.mapM fun set => do return (set.name, ← plantSet set) : Step _) pass = .ok new after ∧
        after.Tidy (sets ++ new.map Prod.snd) items ∧ Grown pass after ∧
        List.Forall₂ (fun set entry => entry.1 = set.name ∧
          after.document.Carries entry.2 set.item set.children) list new := by
  induction list generalizing pass sets with
  | nil => exact ⟨[], pass, rfl, by simpa using tidy, .refl pass, .nil⟩
  | cons set rest ih =>
      obtain ⟨new, mid, ran, planted, grown, carries⟩ :=
        tidy_plantSet tidy (proper set List.mem_cons_self)
      obtain ⟨more, after, ranRest, done, grownRest, carried⟩ :=
        ih planted fun other member => proper other (List.mem_cons_of_mem _ member)
      refine ⟨(set.name, new) :: more, after, ?_, ?_, grown.trans grownRest,
        .cons ⟨rfl, grownRest.carries carries⟩ carried⟩
      · have first : (do return (set.name, ← plantSet set) : Step (String × NodeId)) pass =
            .ok (set.name, new) mid := (bind_ok ran).trans rfl
        rw [List.mapM_cons]
        exact (bind_ok first).trans ((bind_ok ranRest).trans rfl)
      · simpa using done

theorem tidy_plantItems (list : List (Item × Forest Item)) (tidy : pass.Tidy sets items)
    (proper : ∀ tree ∈ list, (Forest.tree tree.1 tree.2).Proper) :
    ∃ (new : List NodeId) (after : Pass),
      (list.mapM fun (item, children) => edit (Edit.plant item children) : Step _) pass =
          .ok new after ∧
        after.Tidy sets (items ++ new) ∧ Grown pass after ∧
        List.Forall₂ (fun tree id => after.document.Carries id tree.1 tree.2) list new := by
  induction list generalizing pass items with
  | nil => exact ⟨[], pass, rfl, by simpa using tidy, .refl pass, .nil⟩
  | cons tree rest ih =>
      obtain ⟨new, mid, ran, planted, grown, carries⟩ :=
        tidy_plant tidy (proper tree List.mem_cons_self)
      obtain ⟨more, after, ranRest, done, grownRest, carried⟩ :=
        ih planted fun other member => proper other (List.mem_cons_of_mem _ member)
      refine ⟨new :: more, after, ?_, by simpa using done, grown.trans grownRest,
        .cons (grownRest.carries carries) carried⟩
      rw [List.mapM_cons]
      exact (bind_ok ran).trans ((bind_ok ranRest).trans rfl)

/-! ## Registering -/

/-- What a pass is after a tree that stood apart was registered.  All trees but the
one that it replaces are as they were. -/
structure Stored (pass : Pass) (name : String) (set : NodeId) (apart : List NodeId)
    (after : Pass) : Prop where
  options : after.options = pass.options
  registry : after.registry = pass.registry.insert name set
  warnings : after.warnings = pass.warnings
  root : after.document.root = pass.document.root
  trees : ∀ top ∈ pass.document.root :: (after.registry.ids ++ apart),
    after.document.find? top = pass.document.find? top

/-- A rule that stands apart can be registered, and the rule it replaces goes. -/
theorem tidy_store (name : String) {set : NodeId} (tidy : pass.Tidy (set :: sets) items) :
    ∃ after, store name set pass = .ok () after ∧ after.Tidy sets items ∧
      Stored pass name set (sets ++ items) after := by
  let stored : Pass := { pass with registry := pass.registry.insert name set }
  have names : stored.registry.names.Nodup := Registry.nodup_names_insert tidy.names name set
  rcases NameMap.put_cases name set pass.registry.entries with ⟨none_, -, put⟩ |
    ⟨before, old, after, split, found, put⟩
  · have ran : store name set pass = .ok () stored := by
      refine (bind_ok get_ok).trans ?_
      rw [NameMap.lookup?, none_]
      rfl
    have ids : stored.registry.ids = pass.registry.ids ++ [set] := by
      simp [stored, Registry.ids, NameMap.insert, put]
    refine ⟨stored, ran, ⟨?_, ?_, names⟩, rfl, rfl, rfl, rfl, fun _ _ => rfl⟩
    · rw [ids]
      simpa using tidy.sound
    · rw [ids]
      simpa using tidy.rules
  · have ran : store name set pass = edit (Edit.destroy old) stored := by
      refine (bind_ok get_ok).trans ?_
      rw [NameMap.lookup?, found]
      rfl
    have oldIds : pass.registry.ids = before.map Prod.snd ++ old :: after.map Prod.snd := by
      simp [Registry.ids, split]
    have ids : stored.registry.ids = before.map Prod.snd ++ set :: after.map Prod.snd := by
      simp [stored, Registry.ids, NameMap.insert, put]
    have registered : old ∈ pass.registry.ids ++ (set :: sets) ++ items := by
      simp [oldIds]
    -- The old rule is one of the trees; without it they are those of the new registry.
    have sound : pass.document.Sound
        (old :: pass.document.root :: (stored.registry.ids ++ sets ++ items)) := by
      refine tidy.sound.perm ?_
      rw [oldIds, ids, List.perm_iff_count]
      intro other
      simp only [List.count_cons, List.count_append]
      omega
    obtain ⟨oldItem, oldChildren, oldFound⟩ := sound.exists_tree List.mem_cons_self
    have ne := tidy.ne_root registered
    refine ⟨_, ran.trans (edit_ok (Edit.destroy_ok sound oldFound)), ⟨sound.fell ne, ?_, names⟩,
      rfl, rfl, rfl, rfl, fun top member => sound.find?_fell ?_⟩
    · intro other member
      have top : other ∈ pass.document.root :: (stored.registry.ids ++ sets ++ items) :=
        List.mem_cons_of_mem _ (List.mem_append_left _ member)
      show (pass.document.splice old .nil).isKind Kind.isRule other = true
      rw [isKind, kind?, item?, sound.find?_fell top]
      refine tidy.rules other ?_
      have inNew : other ∈ stored.registry.ids ++ sets := member
      rw [ids] at inNew
      rw [oldIds]
      simp only [List.mem_append, List.mem_cons] at inNew ⊢
      tauto
    · rw [List.append_assoc]
      exact member

end Step

end ApplyRule
