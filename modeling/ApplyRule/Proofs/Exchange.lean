/-
# ApplyRule.Proofs.Exchange -- a reference and the copies in its place

The registered sets are kept in the same arena as the document.  A reference in a rule
gives way to copies of what its set holds: they are made, indented and moved link by link
(`Linking.substitute`), and nothing that they share with the set or the document is touched.

`Document.Exchanged` says all that is changed: a node and those below it are gone, new nodes
stand in its place among the children of its parent, and every other slot is as it was.
`resolve_exchanges` is that of resolving a reference, in every pass that can be reached; and
so the text of a set stays the same while references are resolved.
-/
import ApplyRule.Proofs.Reached
import ApplyRule.Proofs.Replacing

namespace ApplyRule

set_option autoImplicit false

open Document

/-! ## Substituting, link by link -/

namespace Linking

/-- Indent a declaration by what its parent has before it. -/
def indent (id : NodeId) : Linking Unit := do
  match (← slot id).parent with
  | none => return
  | some parent =>
      let above := (← slot parent).item
      touch id fun item =>
        { item with raws.before := ApplyRule.reindent above.raws.before item.raws.before }

/-- Indent the declarations below a node, one after the other. -/
def cleanIndent (id : NodeId) : Linking Unit := do
  let below ← descendants id
  let arena ← get
  (below.filter fun node => (arena.slots node).any fun slot => slot.item.kind.isDeclaration).forM
    indent

/-- Put copies of what a set's rule holds in a reference's place. -/
def substitute (reference set : NodeId) : Linking Unit := do
  let copied ← clone set
  cleanIndent copied
  let nodes := (← slot copied).children
  replaceWith reference nodes
  destroy copied

end Linking

section Follows

variable {document : Document} {id : NodeId}

theorem follows_indent (numbered : document.Numbered) (id : NodeId) :
    Follows (Linking.indent id) (Edit.indent id) document := by
  refine Follows.ask numbered (document.parent?_eq_slots id) fun slot _ => ?_
  cases slot.parent with
  | none => exact Follows.pure numbered ()
  | some parent =>
      refine Follows.ask numbered (document.item?_eq_slots parent) fun _ _ => ?_
      exact follows_touch numbered id _

/-- Where an arena keeps a forest, it lists the nodes of a class as the forest does. -/
theorem Forest.Stored.filter {forest : Forest Node} {arena : Arena} (stored : forest.Stored arena)
    (p : Kind → Bool) :
    forest.ids.filter (fun node => (arena.slots node).any fun slot => p slot.item.kind) =
      (forest.labels.filter fun node => p node.item.kind).map Node.id := by
  rw [Forest.ids, List.filter_map]
  refine congrArg (List.map Node.id) (List.filter_congr fun node member => ?_)
  induction forest with
  | nil => cases member
  | cons first below rest ihc ihr =>
      obtain ⟨⟨parent, here⟩, inside, later⟩ := stored
      rw [Forest.labels, List.mem_cons, List.mem_append] at member
      rcases member with rfl | deeper | after
      · rw [Function.comp_apply, here, Option.any_some]
      · exact ihc inside deeper
      · exact ihr later after

theorem follows_cleanIndent (numbered : document.Numbered) (id : NodeId) :
    Follows (Linking.cleanIndent id) (Edit.cleanIndent id) document := by
  cases found : document.find? id with
  | none =>
      have unknown : document.select? Kind.isDeclaration id = none := by
        rw [Document.select?, Document.below?, found]
        rfl
      exact Follows.of_error (Edit.bind_error (Edit.ask_error unknown)) numbered
        (Linking.bind_error (Linking.bind_error (Linking.slot_error (Document.absent_slot found))))
  | some pair =>
      obtain ⟨item, children⟩ := pair
      have listed : document.select? Kind.isDeclaration id =
          some ((children.labels.filter fun node => node.item.kind.isDeclaration).map Node.id) := by
        rw [Document.select?, Document.below?, found]
        rfl
      have walked := Linking.descendants_eq numbered found
      have same := (Document.stored_below numbered.nodup found).filter Kind.isDeclaration
      have each := Follows.forM ((children.labels.filter fun node =>
        node.item.kind.isDeclaration).map Node.id) numbered
        fun node _ document numbered => follows_indent numbered node
      rw [← same] at each
      unfold Follows Outcome at each ⊢
      have linked : Linking.cleanIndent id document.arena = _ :=
        (Linking.bind_ok walked).trans (Linking.bind_ok (Linking.get_ok document.arena))
      have ran : Edit.cleanIndent id document = _ := bind_ok (Edit.ask_ok listed)
      rw [linked, ran, ← same]
      exact each

theorem follows_substitute (numbered : document.Numbered) (reference set : NodeId) :
    Follows (Linking.substitute reference set) (Edit.substitute reference set) document := by
  refine (follows_clone numbered set).bind fun copied _ _ numbered => ?_
  refine (follows_cleanIndent numbered copied).bind fun _ after _ numbered => ?_
  refine Follows.ask numbered (after.children?_eq_slots copied) fun slot _ => ?_
  refine (follows_replaceWith numbered reference slot.children).bind fun _ _ _ numbered => ?_
  exact follows_destroy numbered copied

end Follows

/-! ## Exchanging a node -/

/-- What becomes of a document where the trees `copies` take the place of the node `id`
below `parent`. -/
structure Document.Exchanged (document : Document) (id parent : NodeId) (copies : Forest Node)
    (after : Document) : Prop where
  root : after.root = document.root
  /-- The copies have identities that were never given out, and stand below the parent. -/
  new : ∀ other ∈ copies.ids, document.fresh ≤ other.index ∧
    after.arena.slots other = copies.slot? other (some parent)
  /-- The node is gone with all below it. -/
  gone : ∀ other ∈ document.tree id, after.arena.slots other = none
  /-- The parent has the copies for the node, between the same siblings. -/
  siblings : ∃ item above before rest,
    document.arena.slots parent = some ⟨item, above, before ++ id :: rest⟩ ∧
      after.arena.slots parent = some ⟨item, above, before ++ copies.tops ++ rest⟩
  /-- All else is as it was: items, parents and children. -/
  others : ∀ other, other ∉ copies.ids → other ∉ document.tree id → other ≠ parent →
    after.arena.slots other = document.arena.slots other

namespace Document

variable {document : Document} {id parent : NodeId} {item holder : Item}
  {below siblings copies : Forest Node} {fresh : Nat}

/-- New trees in the place of a node exchange it. -/
theorem Numbered.exchanged (numbered : document.Numbered)
    (found : document.find? id = some (item, below))
    (held : document.find? parent = some (holder, siblings)) (child : id ∈ siblings.tops)
    (new : ∀ other ∈ copies.ids, document.fresh ≤ other.index) :
    document.Exchanged id parent copies
      { document with forest := Forest.replace id copies document.forest, fresh } := by
  have nodup := numbered.nodup
  have tree : document.tree id = id :: below.ids := by rw [Document.tree, found]
  obtain ⟨slot, stored, above⟩ := Forest.parent_of_child nodup held child
  obtain ⟨upper, stands⟩ := Forest.slot?_of_find? held none
  have apart : ∀ other ∈ copies.ids, other ∉ document.forest.ids := fun other copied old =>
    Nat.lt_irrefl _ (Nat.lt_of_lt_of_le (numbered.given other old) (new other copied))
  have inside : ∀ other ∈ copies.ids, other ∈ document.forest.ids → other ∈ id :: below.ids :=
    fun other copied old => absurd old (apart other copied)
  -- What is left of a slot that is neither new nor gone.
  have stays : ∀ other, other ∉ copies.ids → other ∉ document.tree id →
      (Forest.replace id copies document.forest).slot? other none =
        (document.forest.slot? other none).map (Slot.exchange id copies.tops) :=
    fun other old outside => Forest.slot?_replace_old nodup found (tree ▸ outside) old
  refine ⟨rfl, fun other copied => ⟨new other copied, ?_⟩, fun other member => ?_, ?_,
    fun other old outside notParent => ?_⟩
  · rw [← above]
    exact Forest.slot?_replace_new nodup found stored inside copied
  · refine (Forest.slot?_replace nodup found stored inside).trans ?_
    rw [tree] at member
    have old : other ∉ copies.ids := fun copied =>
      apart other copied ((Forest.ids_sublist_of_find? found).subset member)
    rw [if_neg old, if_pos member]
  · have distinct := siblings.tops_sublist.nodup (Forest.nodup_below nodup held).2
    obtain ⟨before, rest, split⟩ := List.append_of_mem child
    rw [split] at stands distinct
    obtain ⟨-, following, disjoint⟩ := List.nodup_append'.mp distinct
    refine ⟨holder, upper, before, rest, stands, ?_⟩
    have outside : parent ∉ document.tree id := tree ▸ parent_not_below nodup found held child
    have old : parent ∉ copies.ids := fun copied =>
      apart parent copied (Forest.mem_ids_of_find? held)
    refine (stays parent old outside).trans ?_
    rw [stands, Option.map_some, Slot.exchange]
    simp only [NodeId.exchange_append, NodeId.exchange_cons, if_true,
      NodeId.exchange_of_not_mem fun both => disjoint both List.mem_cons_self,
      NodeId.exchange_of_not_mem (List.nodup_cons.mp following).1, List.append_assoc]
  · refine (stays other old outside).trans ?_
    show _ = document.forest.slot? other none
    cases kept : document.forest.slot? other none with
    | none => rfl
    | some slot' =>
        rw [Option.map_some, Slot.exchange_of_not_mem]
        -- A node is named among the children of its parent only.
        intro named
        have upward := (numbered.linked.mutually id slot stored other).mpr ⟨slot', kept, named⟩
        exact notParent (Option.some.inj (upward.symm.trans above))

end Document

namespace Edit

variable {document : Document} {reference set parent : NodeId} {item holder rule : Item}
  {below siblings body : Forest Node}

/-- Below a parent that is no root, putting the children of a tree that stands apart in a
node's place changes nothing else. -/
theorem replaceByChildren_aside {donor : Node} {children : Forest Node} {fresh : Nat}
    (numbered : (document.aside (.tree donor children) fresh).Numbered)
    (nodup : document.forest.ids.Nodup)
    (found : document.find? reference = some (item, below))
    (held : document.find? parent = some (holder, siblings)) (child : reference ∈ siblings.tops)
    (houses : holder.kind.isContainer = true) (inner : holder.kind.isRoot = false) :
    replaceByChildren reference donor.id (document.aside (.tree donor children) fresh) = .ok ()
      { document with forest := Forest.replace reference children document.forest, fresh } := by
  let whole := document.aside (.tree donor children) fresh
  have top : donor.id ∈ (Forest.tree donor children).ids :=
    Forest.mem_ids_tree.mpr List.mem_cons_self
  have foundDonor : whole.find? donor.id = some (donor.item, children) :=
    (numbered.find?_aside top).trans (Forest.find?_cons_self ..)
  have foundWhole : whole.find? reference = some (item, below) :=
    (find?_aside_old (Forest.mem_ids_of_find? found)).trans found
  have heldWhole : whole.find? parent = some (holder, siblings) :=
    (find?_aside_old (Forest.mem_ids_of_find? held)).trans held
  have above : whole.parent? reference = some (some parent) := by
    obtain ⟨path, eq⟩ := Forest.lineage?_of_child numbered.nodup heldWhole child []
    rw [parent?, lineage?, eq]
    rfl
  have dropped : (document.forest ++ Forest.tree donor children).prune donor.id =
      document.forest := by
    rw [Forest.prune_append_right (numbered.apart_aside top)]
    simp [Forest.tree, Forest.prune]
  unfold replaceByChildren
  rw [bind_ok (ask_ok foundDonor)]
  cases children with
  | nil =>
      have heir : heir? whole reference = none := by
        rw [heir?_of_parent above, isKind, kind?_of_find? heldWhole, Option.any_some, inner]
        rfl
      have removed : remove reference whole = .ok () (whole.pruned reference) := by
        refine (bind_ok (ask_ok (item?_of_find? foundWhole))).trans ((bind_ok (get_ok whole)).trans ?_)
        rw [heir]
        exact destroy_eq foundWhole
      -- The node goes, and then the emptied tree.
      have outside : reference ∉ (Forest.tree donor .nil).ids := fun both =>
        numbered.apart_aside both (Forest.mem_ids_of_find? found)
      have left : whole.pruned reference =
          (document.pruned reference).aside (.tree donor .nil) fresh := by
        rw [Document.pruned, Document.pruned, aside]
        simp only [whole, aside, Forest.prune_append, Forest.prune_of_not_mem outside]
      have numberedLeft := numbered.pruned foundWhole
      rw [show (document.aside (.tree donor .nil) fresh).pruned reference = _ from left]
        at numberedLeft
      have gone : (Forest.tree donor .nil).prune donor.id = .nil := by
        simp [Forest.tree, Forest.prune]
      refine (bind_ok removed).trans ?_
      rw [left, destroy_aside numberedLeft top, gone, aside_nil, Document.pruned,
        Forest.prune_eq_replace nodup]
  | cons node inside rest =>
      refine (bind_ok (ask_ok above)).trans ((bind_ok (ask_ok (kind?_of_find? heldWhole))).trans ?_)
      simp only [houses, if_true]
      show EStateM.Result.ok () (Document.mk (Forest.replace reference _
        (Forest.prune donor.id (document.forest ++ _))) _ _) = _
      rw [dropped]
      rfl

/-- Substituting puts the copies in the reference's place and changes nothing else. -/
theorem substitute_ok (numbered : document.Numbered)
    (setFound : document.find? set = some (rule, body))
    (found : document.find? reference = some (item, below))
    (held : document.find? parent = some (holder, siblings)) (child : reference ∈ siblings.tops)
    (houses : holder.kind.isContainer = true) (inner : holder.kind.isRoot = false) :
    ∃ copies fresh, copies.items = body.items.reindent rule.raws.before ∧
      (∀ other ∈ copies.ids, document.fresh ≤ other.index) ∧
      substitute reference set document = .ok ()
        { document with forest := Forest.replace reference copies document.forest, fresh } := by
  let copied := body.items.reindent rule.raws.before
  have planted := numbered.plant rule copied
  refine ⟨copied.number (document.fresh + 1), _, Forest.items_number _ _, fun other member => ?_,
    (substitute_eq numbered setFound found held child houses).trans
      (replaceByChildren_aside planted numbered.nodup found held child houses inner)⟩
  exact Nat.le_of_succ_le (Forest.mem_ids_number.mp member).1

end Edit

/-! ## References in the document -/

/-- A reference under the root, inside a rule, that names the registered set `set`. -/
structure Pass.Refers (pass : Pass) (id : NodeId) (name : String) (set : NodeId) : Prop where
  attached : pass.document.isAttached id = true
  reference : (pass.document.kind? id).bind Kind.reference? = some (some name)
  enclosed : (pass.document.lineage? id).any (·.any fun node => node.item.kind.isRule) = true
  registered : pass.registry.lookup? name = some set

instance (pass : Pass) (id : NodeId) (name : String) (set : NodeId) :
    Decidable (pass.Refers id name set) :=
  decidable_of_iff (pass.document.isAttached id = true ∧
      (pass.document.kind? id).bind Kind.reference? = some (some name) ∧
      (pass.document.lineage? id).any (·.any fun node => node.item.kind.isRule) = true ∧
      pass.registry.lookup? name = some set)
    ⟨fun ⟨attached, reference, enclosed, registered⟩ =>
        ⟨attached, reference, enclosed, registered⟩,
      fun ⟨attached, reference, enclosed, registered⟩ =>
        ⟨attached, reference, enclosed, registered⟩⟩

namespace Pass.Refers

variable {pass : Pass} {id set : NodeId} {name : String} {item rootItem : Item}
  {below rootBelow : Forest Node}

/-- Such a reference and all below it are in the tree under the root. -/
theorem within (refers : pass.Refers id name set) (tidy : pass.Tidy [] [])
    (rootFound : pass.document.find? pass.document.root = some (rootItem, rootBelow))
    (found : pass.document.find? id = some (item, below)) :
    ∀ other ∈ id :: below.ids, other ∈ rootBelow.ids := by
  have member : id ∈ rootBelow.ids := by
    refine ((tidy.sound.isAttached_iff rootFound).mp refers.attached).resolve_left ?_
    rintro rfl
    obtain ⟨_, _, rootFound', isRoot⟩ := tidy.sound.root
    have known := refers.reference
    rw [kind?_of_find? rootFound', isRoot] at known
    cases known
  have inside := (Forest.find?_eq_find? tidy.sound.nodup rootFound member).symm.trans found
  exact fun other among => (Forest.ids_sublist_of_find? inside).subset among

/-- The node it stands below is no root. -/
theorem not_root (refers : pass.Refers id name set) (tidy : pass.Tidy [] []) {parent : NodeId}
    {holder : Item} {siblings : Forest Node}
    (held : pass.document.find? parent = some (holder, siblings)) (child : id ∈ siblings.tops) :
    holder.kind.isRoot = false := by
  by_contra isRoot
  have enclosed := refers.enclosed
  obtain ⟨rootItem, rootBelow, rootFound, rootKind⟩ := tidy.sound.root
  have same : parent = pass.document.root :=
    tidy.sound.alone ⟨parent, holder⟩
      ((Forest.labels_sublist_of_find? held).subset List.mem_cons_self) (by simpa using isRoot)
  subst same
  cases held.symm.trans rootFound
  -- Above a child of the root there is only the root.
  have above := Forest.lineage?_below_top tidy.sound.nodup tidy.sound.standing rootFound
    (Forest.mem_ids_of_mem_tops child) []
  rw [Forest.lineage?_of_mem_tops (Forest.nodup_below tidy.sound.nodup rootFound).2 child] at above
  rw [Document.lineage?, above, Option.any_some, List.any_cons, rootKind] at enclosed
  cases enclosed

/-- **One reference.**  The reference is exchanged for the copies, and no registered set is
touched. -/
theorem exchanges (refers : pass.Refers id name set) (tidy : pass.Tidy [] []) :
    ∃ rule body parent copies after, pass.document.find? set = some (rule, body) ∧
      copies.items = body.items.reindent rule.raws.before ∧
      Step.resolve id pass = .ok () { pass with document := after } ∧
      Linking.substitute id set pass.document.arena = some (.ok (), after.arena) ∧
      pass.document.Exchanged id parent copies after ∧
      ∀ entry ∈ pass.registry.ids, after.find? entry = pass.document.find? entry := by
  obtain ⟨kind, known, isReference⟩ := Option.bind_eq_some_iff.mp refers.reference
  obtain ⟨params, hasBlock, rfl, named⟩ := Kind.reference?_eq_some isReference
  obtain ⟨item, below, found, isReference⟩ := find?_of_kind? known
  obtain ⟨path, lineage⟩ := Forest.exists_lineage? (Forest.mem_ids_of_find? found) []
  have inRule := refers.enclosed
  rw [Document.lineage?, lineage, Option.any_some] at inRule
  have registered := Registry.mem_ids_of_lookup? refers.registered
  obtain ⟨rule, body, setFound⟩ := tidy.sound.exists_tree (Step.mem_tops_of_registered registered)
  have notTop := tidy.not_top found (by rw [isReference]; rfl) (by rw [isReference]; rfl)
  rcases tidy.sound.parent?_cases (Forest.mem_ids_of_find? found) with
    ⟨top, -⟩ | ⟨parent, holder, siblings, -, held, child⟩
  · exact absurd top notTop
  have houses : holder.kind.isContainer = true := by
    refine (Forest.housed_of_find? tidy.sound.housed held).1.resolve_left fun empty => ?_
    rw [empty] at child
    cases child
  have numbered := tidy.sound.numbered
  obtain ⟨copies, fresh, copied, new, ran⟩ := Edit.substitute_ok numbered setFound found held child
    houses (refers.not_root tidy held child)
  refine ⟨rule, body, parent, copies, _, setFound, copied, ?_,
    ((follows_substitute numbered id set).ok ran).2, numbered.exchanged found held child new, ?_⟩
  · obtain ⟨after, nodewise, atOnce⟩ := Step.substitute_nodewise tidy found notTop registered
    cases (Step.edit_ok ran).symm.trans nodewise
    unfold Step.resolve
    rw [bind_ok Step.document_ok, known]
    simp only [if_true]
    rw [bind_ok (Step.ask_ok lineage)]
    simp only [inRule, if_true, ← named]
    rw [bind_ok Step.get_ok, refers.registered]
    exact atOnce
  · intro entry among
    obtain ⟨rootItem, rootBelow, rootFound, -⟩ := tidy.sound.root
    obtain ⟨entryItem, entryBody, entryFound⟩ :=
      tidy.sound.exists_tree (Step.mem_tops_of_registered among)
    have inRoot := refers.within tidy rootFound found
    -- The trees of the root and of a set have no node in common.
    have apart : ∀ other ∈ entry :: entryBody.ids, other ∉ id :: below.ids := fun other mine both =>
      tidy.ne_root (by simp [among]) (tidy.sound.top_unique (Step.mem_tops_of_registered among)
        List.mem_cons_self entryFound rootFound mine (List.mem_cons_of_mem _ (inRoot other both)))
    have old : entry ∉ copies.ids := fun copied => Nat.lt_irrefl _
      (Nat.lt_of_lt_of_le (numbered.given entry (Forest.mem_ids_of_find? entryFound))
        (new entry copied))
    refine (Forest.find?_replace numbered.nodup found (apart entry List.mem_cons_self) old).trans ?_
    show (pass.document.find? entry).map _ = _
    rw [entryFound, Option.map_some, Forest.replace_of_not_mem fun both =>
      apart id (List.mem_cons_of_mem _ both) List.mem_cons_self]

end Pass.Refers

/-- Resolving such references one after the other leads from one pass to another. -/
inductive Pass.ResolvesTo : Pass → Pass → Prop where
  | done {pass : Pass} : ResolvesTo pass pass
  | next {pass mid after : Pass} {id set : NodeId} {name : String} (refers : pass.Refers id name set)
      (ran : Step.resolve id pass = .ok () mid) (rest : ResolvesTo mid after) :
      ResolvesTo pass after

/-- The text of a set is read off the tree of its entry. -/
theorem Pass.setCss_congr {pass : Pass} {document : Document}
    (same : ∀ entry ∈ pass.registry.ids, document.find? entry = pass.document.find? entry)
    (name : String) : ({ pass with document } : Pass).setCss name = pass.setCss name := by
  unfold Pass.setCss
  cases lookup : pass.registry.lookup? name with
  | none => rfl
  | some set => simp only [same set (Registry.mem_ids_of_lookup? lookup)]

/-- While references are resolved, the text of every set stays the same. -/
theorem Pass.ResolvesTo.setCss_eq {pass after : Pass} (run : pass.ResolvesTo after)
    (tidy : pass.Tidy [] []) (name : String) : after.setCss name = pass.setCss name := by
  induction run with
  | done => rfl
  | @next pass mid after id _ _ refers ran rest ih =>
      obtain ⟨_, _, _, _, document, -, -, ran', -, -, sets⟩ := refers.exchanges tidy
      obtain ⟨_, ran'', tidyMid⟩ := Step.tidy_resolve tidy id
      cases ran.symm.trans ran'
      cases ran.symm.trans ran''
      exact (ih tidyMid).trans (Pass.setCss_congr sets name)

/-- **What resolving a reference changes.**  In every pass that can be reached, a reference
in a rule under the root that names a registered set is exchanged for new nodes, which are
the children of the set's rule with their declarations indented anew.  Of the pass only the
document changes, and of the document only that; in the arena, the same is done link by link.
So the text of a set stays the same whichever such references are resolved. -/
theorem resolve_exchanges {css : String} {document : Document} {options : Options} {pass : Pass}
    (parsed : Document.parse css = .ok document)
    (reached : Pass.Reached { document, options } pass) :
    (∀ id name set, pass.Refers id name set → ∃ rule body parent copies after,
      pass.document.find? set = some (rule, body) ∧
      copies.items = body.items.reindent rule.raws.before ∧
      Step.resolve id pass = .ok () { pass with document := after } ∧
      Linking.substitute id set pass.document.arena = some (.ok (), after.arena) ∧
      pass.document.Exchanged id parent copies after ∧
      ∀ entry ∈ pass.registry.ids, after.find? entry = pass.document.find? entry) ∧
    ∀ after, pass.ResolvesTo after → ∀ name, after.setCss name = pass.setCss name := by
  have tidy := reached.tidy (Pass.tidy_of_parse parsed options)
  exact ⟨fun id name set refers => refers.exchanges tidy, fun after run => run.setCss_eq tidy⟩

/-- The pole of `resolve_exchanges`: two rules refer to one set, one after the other. -/
theorem resolve_exchanges_twice :
    ∃ document pass after,
      Document.parse (":root\x7b--a:\x7bx:y;z:w\x7d\x7d" ++
        ".t\x7b@apply --a;p:q\x7d.u\x7b@apply --a\x7d") = .ok document ∧
      Step.prepare { document, options := {} } = .ok () pass ∧ pass.Refers ⟨5⟩ "a" ⟨9⟩ ∧
      (∃ rule body parent copies mid, pass.document.find? ⟨9⟩ = some (rule, body) ∧
        copies.items = body.items.reindent rule.raws.before ∧
        Step.resolve ⟨5⟩ pass = .ok () { pass with document := mid } ∧
        pass.document.Exchanged ⟨5⟩ parent copies mid) ∧
      pass.ResolvesTo after ∧ after.document.css = ".t\x7bx:y;z:w;p:q\x7d.u\x7bx:y;z:w\x7d" ∧
      ∀ name, after.setCss name = pass.setCss name := by
  obtain ⟨document, pass, parsed, ran, holds⟩ := Step.exists_ran Step.prepare
    (":root\x7b--a:\x7bx:y;z:w\x7d\x7d" ++ ".t\x7b@apply --a;p:q\x7d.u\x7b@apply --a\x7d") {}
    (fun pass => decide (pass.Refers ⟨5⟩ "a" ⟨9⟩) && (Step.resolve ⟨5⟩).leads (fun mid =>
      decide (mid.Refers ⟨8⟩ "a" ⟨9⟩) && (Step.resolve ⟨8⟩).leads (fun after =>
        decide (after.document.css = ".t\x7bx:y;z:w;p:q\x7d.u\x7bx:y;z:w\x7d")) mid) pass)
    (by decide +kernel)
  obtain ⟨first, holds⟩ := Bool.and_eq_true_iff.mp holds
  obtain ⟨mid, ranFirst, holds⟩ := Step.exists_of_leads holds
  obtain ⟨second, holds⟩ := Bool.and_eq_true_iff.mp holds
  obtain ⟨after, ranSecond, printed⟩ := Step.exists_of_leads holds
  have reached : Pass.Reached { document, options := {} } pass := .ran .start .prepare ran
  obtain ⟨one, all⟩ := resolve_exchanges parsed reached
  have run : pass.ResolvesTo after :=
    .next (of_decide_eq_true first) ranFirst (.next (of_decide_eq_true second) ranSecond .done)
  obtain ⟨rule, body, parent, copies, left, found, copied, resolved, -, exchanged, -⟩ :=
    one _ _ _ (of_decide_eq_true first)
  exact ⟨document, pass, after, parsed, ran, of_decide_eq_true first,
    ⟨rule, body, parent, copies, left, found, copied, resolved, exchanged⟩, run,
    of_decide_eq_true printed, all after run⟩

end ApplyRule
