/-
# ApplyRule.Proofs.ScopeSteps -- the steps inside a scope

The small steps of which taking a definition out is made, each with what it leaves of
a pass: sets are registered (`Step.Registers`), or something changes among the children
of the scope and all else is kept (`Step.Kept`).  A comment goes
(`removeCommentBefore_scope`), items are put in, except those that the scope has
already (`insertAllAfter_scope`, `Forest.unmatched`), a child goes (`remove_child`),
and the scope is put in order (`settleScope_scope`).
-/
import ApplyRule.Proofs.Flatten
import ApplyRule.Proofs.ScopeTree

namespace ApplyRule

set_option autoImplicit false

open Document

/-! ## Registering -/

/-- The sets with one more, or with another in the place of one. -/
def Sets.put (sets : Sets) (set : SetRule) : Sets := fun name =>
  if set.name = name then some (set.item, set.children) else sets name

/-- The names with one more, unless it is there. -/
def addName (names : List String) (name : String) : List String :=
  if name ∈ names then names else names ++ [name]

namespace Forest

/-- The kinds of the trees themselves. -/
def kinds (forest : Forest Node) : List Kind :=
  forest.roots.map (·.item.kind)

@[simp] theorem kinds_nil : (.nil : Forest Node).kinds = [] := rfl

@[simp] theorem kinds_append (first second : Forest Node) :
    (first ++ second).kinds = first.kinds ++ second.kinds := by
  simp [kinds]

@[simp] theorem kinds_cons (node : Node) (children rest : Forest Node) :
    (Forest.cons node children rest).kinds = node.item.kind :: rest.kinds := rfl

/-- The trees that are new to a scope which has children of the kinds `present`, when
they are put there one after the other. -/
def unmatched (present : List Kind) : Forest Item → Forest Item
  | .nil => .nil
  | .cons item children rest =>
      if present.any (·.agrees item.kind) then rest.unmatched present
      else .cons item children (rest.unmatched (item.kind :: present))

/-- The order of the kinds does not matter. -/
theorem unmatched_perm {present others : List Kind} (perm : present.Perm others)
    (items : Forest Item) : items.unmatched present = items.unmatched others := by
  induction items generalizing present others with
  | nil => rfl
  | cons item children rest _ ih =>
      have same : present.any (·.agrees item.kind) = others.any (·.agrees item.kind) := by
        rw [Bool.eq_iff_iff, List.any_eq_true, List.any_eq_true]
        simp only [perm.mem_iff]
      rw [unmatched, unmatched, same, ih perm, ih (perm.cons item.kind)]

end Forest

namespace Step

variable {pass mid after : Pass} {sets items : List NodeId} {id scope : NodeId}
  {item rootItem : Item} {below children : Forest Node} {stored more : List SetRule}

/-- What a pass knows after it registered sets, one after the other. -/
structure Registers (pass : Pass) (stored : List SetRule) (after : Pass) : Prop where
  names : after.registry.names = (stored.map SetRule.name).foldl addName pass.registry.names
  sets : after.sets = stored.foldl Sets.put pass.sets

theorem Registers.trans (first : Registers pass stored mid) (second : Registers mid more after) :
    Registers pass (stored ++ more) after := by
  constructor
  · rw [second.names, first.names, List.map_append, List.foldl_append]
  · rw [second.sets, first.sets, List.foldl_append]

theorem registers_stored {name : String} {set : NodeId} {apart : List NodeId} {inner : Forest Item}
    (stores : Stored pass name set apart after) (carries : pass.document.Carries set item inner) :
    Registers pass [⟨name, item, inner⟩] after := by
  constructor
  · rw [stores.registry, NameMap.names_insert]
    rfl
  · funext other
    have known : after.registry.lookup? other =
        if name = other then some set else pass.registry.lookup? other := by
      rw [stores.registry, NameMap.lookup?_insert]
    -- Whatever is registered now is as it was before.
    have kept : ∀ id, after.registry.lookup? other = some id →
        after.document.find? id = pass.document.find? id := fun id known =>
      stores.trees id (List.mem_cons_of_mem _
        (List.mem_append_left _ (Registry.mem_ids_of_lookup? known)))
    show after.sets other = if name = other then some (item, inner) else pass.sets other
    by_cases same : name = other
    · rw [if_pos same] at known ⊢
      obtain ⟨children, found, rfl⟩ := carries
      rw [Pass.Tidy.sets_of_lookup? known ((kept set known).trans found)]
    · rw [if_neg same] at known ⊢
      unfold Pass.sets
      cases lookup : pass.registry.lookup? other with
      | none => rw [known, lookup, Option.bind_none, Option.bind_none]
      | some id =>
          rw [lookup] at known
          rw [known, Option.bind_some, Option.bind_some, kept id known]

/-! ## What stays -/

/-- What stays as it is while the tree under the root changes. -/
structure Kept (pass : Pass) (apart : List NodeId) (after : Pass) : Prop where
  options : after.options = pass.options
  registry : after.registry = pass.registry
  warnings : after.warnings = pass.warnings
  root : after.document.root = pass.document.root
  trees : ∀ top ∈ pass.registry.ids ++ apart, after.document.find? top = pass.document.find? top

theorem Kept.refl (pass : Pass) (apart : List NodeId) : Kept pass apart pass :=
  ⟨rfl, rfl, rfl, rfl, fun _ _ => rfl⟩

theorem Kept.trans {apart : List NodeId} (first : Kept pass apart mid)
    (second : Kept mid apart after) : Kept pass apart after := by
  refine ⟨second.options.trans first.options, second.registry.trans first.registry,
    second.warnings.trans first.warnings, second.root.trans first.root, fun top member => ?_⟩
  rw [second.trees top (first.registry ▸ member), first.trees top member]

theorem Kept.mono {apart others : List NodeId} (kept : Kept pass apart after)
    (subset : ∀ top ∈ others, top ∈ apart) : Kept pass others after := by
  refine { kept with trees := fun top member => kept.trees top ?_ }
  rcases List.mem_append.mp member with registered | waiting
  · exact List.mem_append_left _ registered
  · exact List.mem_append_right _ (subset top waiting)

theorem Kept.registers {apart : List NodeId} (kept : Kept pass apart after) :
    Registers pass [] after := by
  refine ⟨by rw [kept.registry]; rfl, ?_⟩
  exact Pass.Tidy.sets_congr kept.registry fun set member => kept.trees set (List.mem_append_left _ member)

theorem Kept.carries {apart : List NodeId} (kept : Kept pass apart after) {inner : Forest Item}
    (waiting : id ∈ apart) (carries : pass.document.Carries id item inner) :
    after.document.Carries id item inner := by
  obtain ⟨children, found, items⟩ := carries
  exact ⟨children, (kept.trees id (List.mem_append_right _ waiting)).trans found, items⟩

theorem Stored.carries {name : String} {set : NodeId} {apart : List NodeId}
    (stores : Stored pass name set apart after) {inner : Forest Item} (waiting : id ∈ apart)
    (carries : pass.document.Carries id item inner) : after.document.Carries id item inner := by
  obtain ⟨children, found, items⟩ := carries
  refine ⟨children, (stores.trees id ?_).trans found, items⟩
  exact List.mem_cons_of_mem _ (List.mem_append_right _ waiting)

theorem forall₂_of_mem {α β : Type} {r q : α → β → Prop} {first : List α} {second : List β}
    (all : List.Forall₂ r first second) (imp : ∀ a, ∀ b ∈ second, r a b → q a b) :
    List.Forall₂ q first second := by
  induction all with
  | nil => exact .nil
  | cons holds _ ih =>
      exact .cons (imp _ _ List.mem_cons_self holds)
        (ih fun a b member => imp a b (List.mem_cons_of_mem _ member))

/-- What stands in the second of two lists that agree has something in the first. -/
theorem exists_of_forall₂ {α β : Type} {r : α → β → Prop} {first : List α} {second : List β}
    (all : List.Forall₂ r first second) {b : β} (member : b ∈ second) : ∃ a ∈ first, r a b := by
  induction all with
  | nil => cases member
  | cons holds _ ih =>
      rcases List.mem_cons.mp member with rfl | later
      · exact ⟨_, List.mem_cons_self, holds⟩
      · obtain ⟨a, among, holds⟩ := ih later
        exact ⟨a, List.mem_cons_of_mem _ among, holds⟩

/-- Rules that stand apart are registered, one after the other. -/
theorem tidy_stores (list : List SetRule) {entries : List (String × NodeId)}
    (tidy : pass.Tidy (entries.map Prod.snd ++ sets) items)
    (carried : List.Forall₂ (fun set entry => entry.1 = set.name ∧
      pass.document.Carries entry.2 set.item set.children) list entries) :
    ∃ after, (entries.forM fun (name, set) => store name set) pass = .ok () after ∧
      after.Tidy sets items ∧ Registers pass list after ∧ after.options = pass.options ∧
      after.warnings = pass.warnings ∧ after.document.root = pass.document.root ∧
      ∀ top ∈ pass.document.root :: (sets ++ items),
        after.document.find? top = pass.document.find? top := by
  induction list generalizing pass entries with
  | nil =>
      cases carried
      exact ⟨pass, rfl, by simpa using tidy, ⟨rfl, rfl⟩, rfl, rfl, rfl, fun _ _ => rfl⟩
  | cons set rest ih =>
      cases carried with
      | @cons _ entry _ others first carried =>
          obtain ⟨named, carries⟩ := first
          obtain ⟨mid, ran, stored, stores⟩ := tidy_store entry.1 (by simpa using tidy)
          have waiting : ∀ entry ∈ others,
              entry.2 ∈ others.map Prod.snd ++ sets ++ items := fun entry member =>
            List.mem_append_left _ (List.mem_append_left _ (List.mem_map_of_mem member))
          have still : List.Forall₂ (fun set entry => entry.1 = set.name ∧
              mid.document.Carries entry.2 set.item set.children) rest others :=
            forall₂_of_mem carried fun _ _ member holds =>
              ⟨holds.1, stores.carries (waiting _ member) holds.2⟩
          obtain ⟨after, ranRest, done, registers, options, warnings, root, trees⟩ :=
            ih stored still
          have one : Registers pass [set] mid := by
            have registered := registers_stored stores carries
            rw [named] at registered
            exact registered
          refine ⟨after, (bind_ok ran).trans ranRest, done, one.trans registers,
            options.trans stores.options, warnings.trans stores.warnings,
            root.trans stores.root, fun top member => ?_⟩
          rw [trees top (stores.root ▸ member), stores.trees top ?_]
          simp only [List.mem_cons, List.mem_append] at member ⊢
          tauto

/-! ## Changing what a scope holds -/

section Scope

variable {front back inner : Forest Node} {own : Item}

/-- An edit that leaves the trees beside the root as they were keeps a pass tidy. -/
theorem tidy_kept {document : Document} {waiting left : List NodeId} (tidy : pass.Tidy sets waiting)
    (root : document.root = pass.document.root)
    (sound : document.Sound (pass.document.root :: (pass.registry.ids ++ sets ++ left)))
    (trees : ∀ top ∈ pass.registry.ids ++ sets ++ left,
      document.find? top = pass.document.find? top) :
    ({ pass with document := document } : Pass).Tidy sets left ∧
      Kept pass (sets ++ left) { pass with document := document } := by
  refine ⟨tidy.edited root sound fun other registered => ?_, rfl, rfl, rfl, root,
    fun top apart => ?_⟩
  · rw [item?, item?, trees other (List.mem_append_left _ registered)]
  · rw [← List.append_assoc] at apart
    exact trees top apart

theorem remove_child (tidy : pass.Tidy sets items)
    (held : pass.document.Scoped rootItem below scope item children) (member : id ∈ children.ids) :
    ∃ after, edit (Edit.remove id) pass = .ok () after ∧ after.Tidy sets items ∧
      after.document.Scoped rootItem below scope item (Forest.replace id .nil children) ∧
      Kept pass (sets ++ items) after := by
  have nodup := (Forest.nodup_below tidy.sound.nodup held.under).2
  have within := Forest.mem_ids_below held.found_below member
  obtain ⟨document, ran, removed⟩ := tidy.sound.remove_under held.under within
  have under := removed.under
  rw [Forest.without_of_not_mem_tops (Forest.not_mem_tops_below nodup held.found_below member)]
    at under
  obtain ⟨left, kept⟩ := tidy_kept tidy removed.root removed.sound fun top isTop =>
    removed.trees top (Pass.Tidy.mem_tops isTop) (tidy.ne_root isTop)
  exact ⟨_, edit_ok ran, left, held.replace_child tidy.sound member removed.root under, kept⟩

/-- The comment before a child goes. -/
theorem removeCommentBefore_scope (tidy : pass.Tidy sets items)
    (held : pass.document.Scoped rootItem below scope item
      (front ++ .cons ⟨id, own⟩ inner back)) :
    ∃ after, removeCommentBefore id pass = .ok () after ∧ after.Tidy sets items ∧
      after.document.Scoped rootItem below scope item
        (front.uncommented ++ .cons ⟨id, own⟩ inner back) ∧
      Kept pass (sets ++ items) after := by
  have nodup := held.nodup tidy.sound
  have found := held.found tidy.sound
  have child : id ∈ (front ++ .cons ⟨id, own⟩ inner back).tops := by simp
  have before : (front ++ .cons ⟨id, own⟩ inner back).tops.takeWhile (· ≠ id) = front.tops := by
    have absent : id ∉ front.tops := fun top =>
      Forest.not_mem_front nodup (Forest.mem_ids_of_mem_tops top)
    rw [Forest.tops_append, Forest.tops_cons, List.takeWhile_append_of_pos, List.takeWhile_cons]
    · simp
    · intro other member
      simpa using fun eq : other = id => absent (eq ▸ member)
  have previous : pass.document.previous? id = some front.tops.getLast? := by
    rw [previous?, siblings?, tidy.sound.parent?_child found child, Option.map_some,
      Option.bind_some, children?, found, Option.map_some, Option.map_some, Option.bind_some,
      ← before]
    rfl
  unfold removeCommentBefore
  rw [bind_ok (ask_ok previous)]
  rcases front.eq_nil_or_append_tree with rfl | ⟨rest, last, deeper, rfl⟩
  · exact ⟨pass, rfl, tidy, held, .refl ..⟩
  · have split : rest ++ .tree last deeper ++ .cons ⟨id, own⟩ inner back =
        rest ++ .cons ⟨last.id, last.item⟩ deeper (.cons ⟨id, own⟩ inner back) := by
      rw [Forest.append_assoc]
      rfl
    rw [split] at held nodup found
    have member : last.id ∈
        (rest ++ .cons ⟨last.id, last.item⟩ deeper (.cons ⟨id, own⟩ inner back)).ids := by
      simp
    have lastFound : pass.document.find? last.id = some (last.item, deeper) :=
      (Forest.find?_eq_find? tidy.sound.nodup found member).trans (Forest.find?_split nodup)
    have isComment : pass.document.isKind Kind.isComment last.id = last.item.kind.isComment := by
      rw [isKind, kind?_of_find? lastFound, Option.any_some]
    have final : (rest ++ .tree last deeper).tops.getLast? = some last.id := by
      simp [Forest.tree]
    rw [final, Forest.uncommented_append_tree]
    simp only
    rw [bind_ok document_ok, isComment]
    split
    · obtain ⟨after, ran, left, standing, kept⟩ := remove_child tidy held member
      rw [Forest.replace_split nodup, Forest.nil_append] at standing
      exact ⟨after, ran, left, standing, kept⟩
    · exact ⟨pass, rfl, tidy, split ▸ held, .refl ..⟩

/-- A scope is put in order or, if nothing is left in it, taken out. -/
theorem settleScope_scope (tidy : pass.Tidy [] [])
    (held : pass.document.Scoped rootItem below scope item children) :
    ∃ after, settleScope scope pass = .ok () after ∧ after.Tidy [] [] ∧
      after.document.find? after.document.root =
        some (rootItem, Forest.settled scope item children below) ∧
      Kept pass [] after := by
  have found := held.found tidy.sound
  have nodup := (Forest.nodup_below tidy.sound.nodup held.under).2
  have scopeIn := Forest.mem_ids_of_find? held.found_below
  have asked : pass.document.lastChild? scope = some (children.roots.getLast?.map Node.id) := by
    rw [lastChild?, children?, found, Option.map_some, Option.map_some, List.getLast?_map]
  unfold settleScope Forest.settled
  rw [bind_ok (ask_ok asked)]
  rcases children.eq_nil_or_append_tree with rfl | ⟨rest, last, deeper, rfl⟩
  · obtain ⟨document, ran, removed⟩ := tidy.sound.remove_under held.under scopeIn
    obtain ⟨old, origin⟩ := held.origin
    obtain ⟨left, kept⟩ := tidy_kept tidy removed.root removed.sound fun top isTop =>
      removed.trees top (Pass.Tidy.mem_tops isTop) (tidy.ne_root isTop)
    refine ⟨_, edit_ok ran, left, ?_, kept⟩
    show document.find? document.root = _
    rw [removed.root, removed.under, Forest.without_replace_tree origin]
    rfl
  · have final : (rest ++ .tree last deeper).roots.getLast? = some last := by
      simp [Forest.tree, Forest.roots]
    have member : last.id ∈ (rest ++ .tree last deeper).ids := by simp [Forest.tree]
    have lastFound : pass.document.find? last.id = some (last.item, deeper) :=
      (Forest.find?_eq_find? tidy.sound.nodup found member).trans
        (Forest.find?_split (held.nodup tidy.sound))
    rw [final]
    simp only [Option.map_some]
    rw [bind_ok (ask_ok (item?_of_find? lastFound)), Forest.closed]
    by_cases closed : (last.item.kind.isRule && last.item.raws.ownSemicolon.isSome) = true
    · rw [if_pos closed, if_pos closed]
      exact ⟨pass, rfl, tidy, held.under, .refl ..⟩
    · rw [if_neg closed, if_neg closed]
      have notRoot : pass.document.root ≠ scope := fun eq =>
        (Forest.nodup_below tidy.sound.nodup held.under).1 (eq ▸ scopeIn)
      have under (change : Item → Item) :
          (pass.document.retouch scope change).find? pass.document.root = some (rootItem,
            Forest.replace scope (.tree ⟨scope, change item⟩ (rest ++ .tree last deeper))
              below) := by
        rw [find?_retouch, held.under, Option.map_some, if_neg notRoot,
          Forest.update_eq_replace nodup held.found_below, Forest.replace_replace]
      have retouched (change : Item → Item) (keeps : ∀ item, (change item).kind = item.kind) :=
        tidy_kept tidy (rfl : (pass.document.retouch scope change).root = _)
          (tidy.sound.retouch keeps) fun top isTop =>
            tidy.sound.find?_retouch_elsewhere held.under scopeIn (Pass.Tidy.mem_tops isTop)
              (tidy.ne_root isTop)
      refine ⟨_, edit_ok (Edit.updateItem_ok found), (retouched _ ?_).1, under _,
        (retouched _ ?_).2⟩ <;> exact fun _ => rfl

section Waiting

variable {next : NodeId} {rest : List NodeId} {nextItem : Item} {nextChildren : Forest Node}
  (tidy : pass.Tidy sets (next :: rest))
  (nextFound : pass.document.find? next = some (nextItem, nextChildren))

include tidy

theorem sound_waiting : pass.document.Sound
    (next :: pass.document.root :: (pass.registry.ids ++ sets ++ rest)) :=
  tidy.sound.perm ((List.perm_middle.cons _).trans (.swap ..))

include nextFound

/-- A tree that stands apart is dropped. -/
theorem destroy_waiting :
    ∃ after, edit (Edit.destroy next) pass = .ok () after ∧ after.Tidy sets rest ∧
      after.document.root = pass.document.root ∧
      after.document.find? pass.document.root = pass.document.find? pass.document.root ∧
      Kept pass (sets ++ rest) after := by
  have sound := sound_waiting tidy
  obtain ⟨left, kept⟩ := tidy_kept tidy
    (rfl : (pass.document.splice next .nil).root = pass.document.root)
    (sound.fell (tidy.ne_root (by simp))) fun top apart =>
      sound.find?_fell (List.mem_cons_of_mem _ apart)
  exact ⟨_, edit_ok (Edit.destroy_ok sound nextFound), left, rfl,
    sound.find?_fell List.mem_cons_self, kept⟩

/-- A tree that stands apart is put after a child. -/
theorem insertAfter_waiting {anchor : Node}
    (held : pass.document.Scoped rootItem below scope item (front ++ .cons anchor inner back)) :
    ∃ after, edit (Edit.insertAfter anchor.id next) pass = .ok () after ∧ after.Tidy sets rest ∧
      after.document.Scoped rootItem below scope item
        ((front ++ .tree anchor inner) ++ .cons ⟨next, nextItem⟩ nextChildren back) ∧
      Kept pass (sets ++ rest) after := by
  have nodup := held.nodup tidy.sound
  have child : anchor.id ∈ (front ++ .cons anchor inner back).tops := by simp
  have anchorIn := Forest.mem_ids_of_mem_tops child
  have anchorFound : pass.document.find? anchor.id = some (anchor.item, inner) :=
    (Forest.find?_eq_find? tidy.sound.nodup (held.found tidy.sound) anchorIn).trans
      (Forest.find?_split nodup)
  obtain ⟨document, ran, placed, root, elsewhere, under⟩ :=
    (sound_waiting tidy).insertAfter (tidy.ne_root (by simp)) nextFound held.under
      held.stands child anchorFound
  obtain ⟨left, kept⟩ := tidy_kept tidy root placed fun top apart =>
    elsewhere top (List.mem_cons_of_mem _ apart) (tidy.ne_root (by simp at apart ⊢; tauto))
  have standing := held.replace_child tidy.sound anchorIn root under
  have shape : Forest.replace anchor.id (.cons anchor inner (.tree ⟨next, nextItem⟩ nextChildren))
        (front ++ .cons anchor inner back) =
      (front ++ .tree anchor inner) ++ .cons ⟨next, nextItem⟩ nextChildren back := by
    rw [Forest.append_assoc]
    exact Forest.replace_split nodup _
  rw [shape] at standing
  exact ⟨_, edit_ok ran, left, standing, kept⟩

end Waiting

/-- Trees that stand apart are put after a child, one after the other, except those
that the scope has already. -/
theorem insertAllAfter_scope (wanted : Forest Item) {list : List NodeId} {anchor : Node}
    (tidy : pass.Tidy sets list)
    (held : pass.document.Scoped rootItem below scope item (front ++ .cons anchor inner back))
    (carried : List.Forall₂ (fun tree id => pass.document.Carries id tree.1 tree.2)
      wanted.trees list) :
    ∃ after more, insertAllAfter scope anchor.id list pass = .ok () after ∧
      after.Tidy sets [] ∧
      more.items = wanted.unmatched (front ++ .cons anchor inner back).kinds ∧
      after.document.Scoped rootItem below scope item
        (front ++ .cons anchor inner (more ++ back)) ∧
      Kept pass sets after := by
  induction wanted generalizing pass list front anchor inner with
  | nil =>
      cases carried
      exact ⟨pass, .nil, rfl, tidy, rfl, held, .refl ..⟩
  | cons treeItem treeChildren others _ ih =>
      cases carried with
      | @cons _ next _ rest first carried =>
      obtain ⟨nextChildren, nextFound, nextItems⟩ := first
      have asked : hasAgreeing scope treeItem.kind pass =
          .ok ((front ++ .cons anchor inner back).kinds.any (·.agrees treeItem.kind)) pass := by
        unfold hasAgreeing
        rw [bind_ok (ask_ok (held.found tidy.sound)), Forest.kinds, List.any_map]
        rfl
      unfold insertAllAfter
      rw [bind_ok (ask_ok (kind?_of_find? nextFound)), bind_ok asked, Forest.unmatched]
      split
      · -- The scope has such an item already.
        obtain ⟨mid, ran, dropped, root, under, kept⟩ := destroy_waiting tidy nextFound
        obtain ⟨after, more, ranRest, done, same, standing, keptRest⟩ := ih dropped
          (held.transfer root under)
          (forall₂_of_mem carried fun tree id member =>
            kept.carries (List.mem_append_right _ member))
        exact ⟨after, more, (bind_ok ran).trans ranRest, done, same, standing,
          (kept.mono fun top member => List.mem_append_left _ member).trans keptRest⟩
      · obtain ⟨mid, ran, put, standing, kept⟩ := insertAfter_waiting tidy nextFound held
        obtain ⟨after, more, ranRest, done, same, final, keptRest⟩ := ih put standing
          (forall₂_of_mem carried fun tree id member =>
            kept.carries (List.mem_append_right _ member))
        refine ⟨after, .cons ⟨next, treeItem⟩ nextChildren more, (bind_ok ran).trans ranRest, done,
          ?_, ?_, (kept.mono fun top member => List.mem_append_left _ member).trans keptRest⟩
        · have perm : ((front ++ .tree anchor inner) ++
                .cons ⟨next, treeItem⟩ nextChildren back).kinds.Perm
              (treeItem.kind :: (front ++ .cons anchor inner back).kinds) := by
            have middle : ((front.kinds ++ [anchor.item.kind]) ++ treeItem.kind :: back.kinds).Perm
                (treeItem.kind :: ((front.kinds ++ [anchor.item.kind]) ++ back.kinds)) :=
              List.perm_middle
            simpa [Forest.tree] using middle
          rw [Forest.unmatched_perm perm] at same
          show Forest.cons treeItem nextChildren.items more.items = _
          rw [same, nextItems]
        · rw [Forest.append_assoc] at final
          exact final

end Scope

end Step

end ApplyRule
