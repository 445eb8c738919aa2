/-
# ApplyRule.Proofs.Refusal -- what a refused operation leaves

An edit makes its checks before its first change, so that it leaves the document as it
was if it is refused (`Edit.Spares`).  Two edits do not go by that rule.

* A node that is put next to itself is taken out of its place before the place next to
  it is looked for, and that place is gone by then.
* Other nodes are put in a node's place one after the other, and what was put there
  stays when a later one is refused.

`refused_unchanged` says so of every operation on an arena, whatever was done to it
before: where the two exceptions do not come in (`TreeOperation.ChecksFirst`), the
arena is the same but for the identities given out, and otherwise
`TreeOperation.Leaves` says what has changed.
-/
import ApplyRule.Proofs.WellLinked

namespace ApplyRule

set_option autoImplicit false

/-! ## Runs that stop -/

/-- A loop that is refused is refused in one of its rounds. -/
theorem exists_of_forM_error {ε σ α : Type} {round : α → EStateM ε σ PUnit} {list : List α}
    {state after : σ} {error : ε} (ran : list.forM round state = .error error after) :
    ∃ done next rest mid, list = done ++ next :: rest ∧ done.forM round state = .ok () mid ∧
      round next mid = .error error after := by
  induction list generalizing state with
  | nil => cases ran
  | cons value rest ih =>
      cases first : round value state with
      | error own stopped =>
          have stops : (value :: rest).forM round state = .error own stopped := bind_refused first
          exact ⟨[], value, rest, state, rfl, rfl, by rw [first, ← stops, ran]⟩
      | ok _ mid =>
          have goesOn (more : List α) : (value :: more).forM round state = more.forM round mid :=
            bind_ok first
          obtain ⟨done, next, later, last, split, before, stopped⟩ := ih ((goesOn rest) ▸ ran)
          refine ⟨value :: done, next, later, last, by rw [split, List.cons_append], ?_, stopped⟩
          exact (goesOn done).trans before

/-- Nothing goes where trees are put before a node. -/
theorem Forest.ids_subset_insertBefore (anchor : NodeId) (more forest : Forest Node) :
    forest.ids ⊆ (insertBefore anchor more forest).ids := by
  induction forest with
  | nil => exact List.Subset.refl _
  | cons node children rest ihc ihr =>
      rw [insertBefore]
      split
      · rw [ids_append]
        exact List.subset_append_right _ _
      · rw [ids_cons, ids_cons]
        exact List.cons_subset_cons _ (List.append_subset.mpr
          ⟨List.subset_append_of_subset_left _ ihc, List.subset_append_of_subset_right _ ihr⟩)

namespace Edit

variable {α β : Type} {document after : Document} {id anchor node : NodeId} {error : TreeError}

/-- A refusal of the edit leaves the document as it was. -/
def Spares (edit : Edit α) (document : Document) : Prop :=
  Outcome edit document (fun _ _ => True) fun _ after => after = document

theorem Spares.of_ok {edit : Edit α} {answer : α} (ran : edit document = .ok answer after) :
    Spares edit document :=
  Outcome.of_ok ran trivial

theorem Spares.throw (error : TreeError) (document : Document) :
    Spares (MonadExcept.throw error : Edit α) document :=
  Outcome.of_error rfl rfl

/-- A question is no change. -/
theorem Spares.ask {question : Document → Option β} {next : β → Edit α}
    (later : ∀ answer, question document = some answer → Spares (next answer) document) :
    Spares (Edit.ask question >>= next) document := by
  refine (outcome_ask question document).bind ?_
  rintro answer _ ⟨rfl, known⟩
  exact later answer known

/-! ## Edits that check first -/

theorem spares_updateItem (id : NodeId) (change : Item → Item) (document : Document) :
    Spares (updateItem id change) document :=
  Spares.ask fun _ _ => Spares.of_ok rfl

theorem spares_restamp (id : NodeId) (source : Option Text.Location) (document : Document) :
    Spares (restamp id source) document :=
  Spares.ask fun _ _ => Spares.of_ok rfl

theorem spares_destroy (id : NodeId) (document : Document) : Spares (destroy id) document :=
  Spares.ask fun _ _ => Spares.of_ok rfl

theorem spares_copy (id : NodeId) (document : Document) : Spares (copy id) document :=
  Spares.ask fun _ _ => Spares.of_ok rfl

theorem spares_move (node : NodeId) (insert : Forest Node → Forest Node → Forest Node)
    (document : Document) : Spares (move node insert) document :=
  Spares.ask fun _ _ => Spares.of_ok rfl

theorem spares_detach (id : NodeId) (document : Document) : Spares (detach id) document := by
  refine Spares.ask fun pair _ => ?_
  refine Spares.ask fun parent _ => ?_
  cases parent with
  | none => exact Spares.of_ok rfl
  | some _ => exact Spares.of_ok rfl

theorem spares_append (numbered : document.Numbered) (parent node : NodeId) :
    Spares (append parent node) document := by
  refine (outcome_checkInsertable parent node numbered.nodup).bind ?_
  rintro _ _ ⟨rfl, -⟩
  exact spares_move node _ _

theorem spares_insertBeside (numbered : document.Numbered) (other : anchor ≠ node)
    (insert : NodeId → Forest Node → Forest Node → Forest Node) :
    Spares (insertBeside anchor node insert) document := by
  refine Spares.ask fun parent _ => ?_
  cases parent with
  | none => exact Spares.throw _ _
  | some parent =>
      refine (outcome_checkInsertable parent node numbered.nodup).bind ?_
      rintro _ _ ⟨rfl, -⟩
      rw [if_neg other]
      exact spares_move node _ _

/-- An heir is there. -/
theorem mem_ids_of_heir? {heir : NodeId} (known : heir? document id = some heir) :
    heir ∈ document.forest.ids := by
  unfold heir? at known
  simp only [Option.bind_eq_bind, Option.bind_eq_some_iff] at known
  obtain ⟨_, -, parent, -, _, -, list, listed, first⟩ := known
  obtain ⟨⟨item, children⟩, found, rfl⟩ := Option.map_eq_some_iff.mp listed
  split at first
  · rename_i one two later order
    split at first
    · cases first
      have tops : children.tops = one :: heir :: later := order
      have child : heir ∈ children.tops := tops ▸ List.mem_cons_of_mem _ List.mem_cons_self
      exact Forest.mem_ids_below found (Forest.mem_ids_of_mem_tops child)
    · cases first
  · cases first

/-- Only a node that is not there cannot be removed. -/
theorem remove_refused (refused : remove id document = .error error after) :
    after = document ∧ id ∉ document.forest.ids := by
  cases found : document.find? id with
  | none =>
      have unknown : document.item? id = none := by rw [Document.item?, found]; rfl
      rw [remove, bind_error (ask_error unknown)] at refused
      cases refused
      exact ⟨rfl, Forest.find?_eq_none.mp found⟩
  | some pair =>
      -- The text before the node is handed over, and the node is still there.
      exfalso
      have known : document.item? id = some pair.1 := Document.item?_of_find? found
      rw [remove, bind_ok (ask_ok known), bind_ok (get_ok document)] at refused
      cases heir : heir? document id with
      | none =>
          simp only [heir] at refused
          rw [destroy_eq found] at refused
          cases refused
      | some next =>
          obtain ⟨_, _, foundNext⟩ := Forest.exists_find? (mem_ids_of_heir? heir)
          have kept (change : Item → Item) :
              ∃ pair, (document.retouch next change).find? id = some pair :=
            ⟨_, by rw [Document.find?_retouch, found, Option.map_some]⟩
          simp only [heir] at refused
          rw [bind_ok (updateItem_ok foundNext)] at refused
          rw [destroy_eq (kept _).choose_spec] at refused
          cases refused

theorem spares_remove (id : NodeId) (document : Document) : Spares (remove id) document := by
  cases ran : remove id document with
  | ok answer after => exact Spares.of_ok ran
  | error error after => exact Outcome.of_error ran (remove_refused ran).1

/-! ## Edits that do not -/

/-- A node that is put next to itself stays where it is, or is taken out. -/
theorem insertBeside_self (numbered : document.Numbered) (anchor : NodeId)
    (insert : NodeId → Forest Node → Forest Node → Forest Node) :
    Outcome (insertBeside anchor anchor insert) document (fun _ _ => False)
      fun _ after => after = document ∨ detach anchor document = .ok () after := by
  refine (outcome_ask _ document).imp (fun _ _ => id) (fun _ _ => .inl) |>.bind ?_
  rintro parent _ ⟨rfl, known⟩
  cases parent with
  | none => exact Outcome.of_error rfl (.inl rfl)
  | some parent =>
      refine (outcome_checkInsertable parent anchor numbered.nodup).imp (fun _ _ => id)
        (fun _ _ => .inl) |>.bind ?_
      rintro _ after ⟨rfl, may⟩
      rw [if_pos rfl]
      obtain ⟨-, item, children, found, -⟩ := may
      have taken : Outcome (detach anchor) after (fun _ _ => True) (fun _ _ => False) :=
        Outcome.bind_of_ok (ask_ok found) (Outcome.bind_of_ok (ask_ok known) trivial)
      obtain ⟨_, last, taken, -⟩ | ⟨_, _, _, impossible⟩ := taken.cases
      · exact Outcome.of_error ((bind_ok taken).trans rfl) (.inr taken)
      · exact impossible.elim

/-- A node that another one was put before is still there. -/
theorem outcome_insertBefore (numbered : document.Numbered) (anchor node : NodeId) :
    Outcome (insertBefore anchor node) document (fun _ after => anchor ∈ after.forest.ids)
      fun _ _ => True := by
  refine (outcome_ask (·.parent? anchor) document).imp (fun _ _ => id) (fun _ _ _ => trivial)
    |>.bind ?_
  rintro parent _ ⟨rfl, known⟩
  cases parent with
  | none => exact Outcome.of_error rfl trivial
  | some parent =>
      refine (outcome_checkInsertable parent node numbered.nodup).imp (fun _ _ => id)
        (fun _ _ _ => trivial) |>.bind ?_
      rintro _ after ⟨rfl, ⟨upper, siblings, foundParent, -⟩, item, children, found, outside⟩
      by_cases same : anchor = node
      · rw [if_pos same]
        refine (spares_detach node after).imp (fun _ _ => id) (fun _ _ _ => trivial) |>.bind ?_
        exact fun _ _ _ => Outcome.of_error rfl trivial
      · rw [if_neg same]
        refine Outcome.of_ok (move_ok found) ?_
        -- The parent of both stays, and the anchor among its children.
        rw [Document.parent?_eq_slots] at known
        obtain ⟨slot, stored, above⟩ := Option.map_eq_some_iff.mp known
        obtain ⟨_, _, foundToo, child⟩ := Forest.child_of_parent numbered.nodup stored above
        cases foundParent.symm.trans foundToo
        obtain ⟨left, stays, tops⟩ :=
          Document.stays_of_outside numbered.nodup found outside foundParent
        have kept : anchor ∈ left.tops := by
          rw [tops]
          exact List.mem_filter.mpr ⟨child, by simpa using same⟩
        have inPruned := Forest.mem_ids_below stays (Forest.mem_ids_of_mem_tops kept)
        exact Forest.ids_subset_insertBefore anchor _ _ inPruned

/-- A replacement is refused in one of its rounds, when the nodes before are in place.  If
there are no rounds, nothing was done. -/
theorem replaceWith_refused (numbered : document.Numbered) {nodes : List NodeId}
    (refused : replaceWith id nodes document = .error error after) :
    after = document ∨ ∃ placed next rest mid, nodes = placed ++ next :: rest ∧
      placed.forM (insertBefore id) document = .ok () mid ∧
      insertBefore id next mid = .error error after := by
  cases ran : nodes.forM (insertBefore id) document with
  | error own stopped =>
      rw [replaceWith, bind_error ran] at refused
      cases refused
      exact .inr (exists_of_forM_error ran)
  | ok _ mid =>
      rw [replaceWith, bind_ok ran] at refused
      obtain ⟨rfl, gone⟩ := remove_refused refused
      cases nodes with
      | nil =>
          cases ran
          exact .inl rfl
      | cons first rest =>
          -- The node is there after every round.
          have round (node : NodeId) (state : Document) (numbered : state.Numbered) :
              Outcome (insertBefore id node) state
                (fun _ after => after.Numbered ∧ id ∈ after.forest.ids) fun _ _ => True := by
            have stays := outcome_insertBefore numbered id node
            rcases (follows_insertBeside beside_before numbered id node).cases with
              ⟨_, last, ran, numberedLast, -⟩ | ⟨_, last, ran, -⟩
            · rw [Outcome, show insertBefore id node state = _ from ran] at stays
              exact Outcome.of_ok ran ⟨numberedLast, stays⟩
            · exact Outcome.of_error ran trivial
          have rounds : Outcome ((first :: rest).forM (insertBefore id)) document
              (fun _ after => after.Numbered ∧ id ∈ after.forest.ids) fun _ _ => True :=
            (round first document numbered).bind fun _ _ stays =>
              Outcome.forM stays fun node _ state kept => round node state kept.1
          rw [Outcome, ran] at rounds
          exact absurd rounds.2 gone

end Edit

/-! ## Operations -/

/-- The same nodes with the same items and links, whatever identities were given out. -/
def Arena.Same (arena after : Arena) : Prop :=
  after.slots = arena.slots ∧ after.root = arena.root

/-- Whether an operation makes all its checks before its first change: it puts no node next
to itself, and at most one in the place of another. -/
def TreeOperation.ChecksFirst : TreeOperation → Prop
  | .insertBefore anchor node | .insertAfter anchor node => anchor ≠ node
  | .replaceWith id nodes => nodes.length ≤ 1 ∧ id ∉ nodes
  | _ => True

/-- What a refused operation leaves of an arena.  A node that was put next to itself may
have been taken out, and the nodes before the one that could not be put in another's
place are there. -/
def TreeOperation.Leaves (arena after : Arena) : TreeOperation → Prop
  | .insertBefore anchor node | .insertAfter anchor node =>
      arena.Same after ∨ anchor = node ∧ Linking.detach node arena = some (.ok (), after)
  | .replaceWith id nodes =>
      arena.Same after ∨ ∃ placed next rest mid, nodes = placed ++ next :: rest ∧
        placed.forM (Linking.insertBefore id) arena = some (.ok (), mid) ∧
        (after = mid ∨ next = id ∧ Linking.detach id mid = some (.ok (), after))
  | _ => arena.Same after

/-- Where all checks come first, nothing is changed. -/
theorem TreeOperation.Leaves.same {arena after : Arena} {operation : TreeOperation}
    (leaves : operation.Leaves arena after) (first : operation.ChecksFirst) :
    arena.Same after := by
  cases operation with
  | insertBefore anchor node => exact leaves.resolve_right fun beside => first beside.1
  | insertAfter anchor node => exact leaves.resolve_right fun beside => first beside.1
  | replaceWith id nodes =>
      rcases leaves with same | ⟨placed, next, rest, mid, rfl, before, stopped⟩
      · exact same
      · obtain ⟨few, notSelf⟩ := first
        rw [List.length_append, List.length_cons] at few
        have none_ : placed = [] := List.eq_nil_of_length_eq_zero (by omega)
        subst none_
        cases before
        rcases stopped with rfl | ⟨rfl, -⟩
        · exact ⟨rfl, rfl⟩
        · exact absurd List.mem_cons_self notSelf
  | _ => exact leaves

/-- Whether an answer is a refusal: of an edit, or of a text that cannot be read. -/
def Refused (answer : Except TreeError (Except ParseError (Option NodeId))) : Prop :=
  ∀ value, answer ≠ .ok (.ok value)

section Run

variable {document : Document}

theorem outcome_insertBeside (numbered : document.Numbered) (anchor node : NodeId)
    (insert : NodeId → Forest Node → Forest Node → Forest Node) :
    Outcome (Edit.insertBeside anchor node insert) document (fun _ _ => True)
      fun _ after => document = after ∨
        anchor = node ∧ Linking.detach node document.arena = some (.ok (), after.arena) := by
  by_cases beside : anchor = node
  · subst beside
    refine (Edit.insertBeside_self numbered anchor insert).imp (fun _ _ => False.elim) ?_
    rintro _ after (rfl | taken)
    · exact .inl rfl
    · exact .inr ⟨rfl, ((follows_detach numbered anchor).ok taken).2⟩
  · exact (Edit.spares_insertBeside numbered beside insert).imp (fun _ _ => id)
      fun _ _ eq => .inl eq.symm

theorem outcome_replaceWith (numbered : document.Numbered) (id : NodeId) (nodes : List NodeId) :
    Outcome (Edit.replaceWith id nodes) document (fun _ _ => True)
      fun _ after => (TreeOperation.replaceWith id nodes).Leaves document.arena after.arena := by
  cases ran : Edit.replaceWith id nodes document with
  | ok answer after => exact Outcome.of_ok ran trivial
  | error error after =>
      refine Outcome.of_error ran ?_
      rcases Edit.replaceWith_refused numbered ran with
        rfl | ⟨placed, next, rest, mid, split, before, stopped⟩
      · exact .inl ⟨rfl, rfl⟩
      · have rounds := Follows.forM placed numbered fun node _ document numbered =>
          follows_insertBeside beside_before numbered id node
        obtain ⟨numberedMid, linked⟩ := rounds.ok before
        have last := outcome_insertBeside numberedMid id next Forest.insertBefore
        rw [Outcome, show Edit.insertBeside id next Forest.insertBefore mid = _ from stopped] at last
        refine .inr ⟨placed, next, rest, mid.arena, split, linked, ?_⟩
        rcases last with rfl | ⟨rfl, taken⟩
        · exact .inl rfl
        · exact .inr ⟨rfl, taken⟩

/-- What a refused operation on a document leaves. -/
theorem outcome_run (numbered : document.Numbered) (operation : TreeOperation) :
    Outcome (operation.run Edit.edits) document
      (fun answer after => Refused (.ok answer) → operation.Leaves document.arena after.arena)
      (fun _ after => operation.Leaves document.arena after.arena) := by
  have same : document.arena.Same document.arena := ⟨rfl, rfl⟩
  -- An edit that is answered with a node or with nothing.
  have answered {α : Type} {edit : Edit α} {failed : TreeError → Document → Prop}
      (value : α → Option NodeId) (whole : Outcome edit document (fun _ _ => True) failed)
      (leaves : ∀ error after, failed error after →
        operation.Leaves document.arena after.arena) :
      Outcome (edit >>= fun answer => pure (.ok (value answer))) document
        (fun answer after => Refused (.ok answer) → operation.Leaves document.arena after.arena)
        (fun _ after => operation.Leaves document.arena after.arena) := by
    refine (whole.imp (fun _ _ => id) leaves).bind fun answer after _ => ?_
    exact Outcome.pure fun refused => absurd rfl (refused _)
  have spared {α : Type} {edit : Edit α} (value : α → Option NodeId)
      (spares : Edit.Spares edit document)
      (leaves : operation.Leaves document.arena document.arena) :=
    answered value spares fun _ _ eq => eq ▸ leaves
  cases operation with
  | create item => exact spared some (Edit.Spares.of_ok rfl) same
  | createFragment => exact spared some (Edit.Spares.of_ok rfl) same
  | parse css =>
      have ran := Edit.parse_eq css document
      cases parsed : Document.parse css with
      | ok read =>
          rw [parsed] at ran
          exact Outcome.bind_of_ok ran (Outcome.pure fun refused => absurd rfl (refused _))
      | error error =>
          rw [parsed] at ran
          exact Outcome.bind_of_ok ran (Outcome.pure fun _ => same)
  | parseFragment css =>
      cases parsed : Body.parse css with
      | ok body =>
          exact Outcome.bind_of_ok (Edit.parseFragment_ok numbered parsed)
            (Outcome.pure fun refused => absurd rfl (refused _))
      | error error =>
          obtain ⟨fresh, -, ran⟩ := Edit.parseFragment_error numbered parsed
          exact Outcome.bind_of_ok ran (Outcome.pure fun _ => ⟨rfl, rfl⟩)
  | append parent node =>
      exact spared (fun _ => none) (Edit.spares_append numbered parent node) same
  | insertBefore anchor node =>
      refine answered (fun _ => none) (outcome_insertBeside numbered anchor node _) ?_
      rintro _ after (rfl | taken)
      · exact .inl same
      · exact .inr taken
  | insertAfter anchor node =>
      refine answered (fun _ => none) (outcome_insertBeside numbered anchor node _) ?_
      rintro _ after (rfl | taken)
      · exact .inl same
      · exact .inr taken
  | detach id => exact spared (fun _ => none) (Edit.spares_detach id document) same
  | remove id => exact spared (fun _ => none) (Edit.spares_remove id document) same
  | destroy id => exact spared (fun _ => none) (Edit.spares_destroy id document) same
  | replaceWith id nodes =>
      exact answered (fun _ => none) (outcome_replaceWith numbered id nodes) fun _ _ left => left
  | clone id => exact spared some (Edit.spares_copy id document) same
  | setSource id source => exact spared (fun _ => none) (Edit.spares_updateItem id _ document) same
  | restamp id source => exact spared (fun _ => none) (Edit.spares_restamp id source document) same
  | changeKind id change => exact spared (fun _ => none) (Edit.spares_updateItem id _ document) same
  | changeRaws id change => exact spared (fun _ => none) (Edit.spares_updateItem id _ document) same

end Run

/-- **Refused operations.**  After any operations on a new arena any other one ends.  If it
is refused and makes all its checks first, the arena has the same nodes with the same
items and links as before; what is left otherwise is said as well. -/
theorem refused_unchanged (operations : List TreeOperation) (operation : TreeOperation) :
    ∃ arena answer after, operations.foldlM Arena.operate Arena.new = some arena ∧
      operation.run Linking.edits arena = some (answer, after) ∧
      (Refused answer → operation.Leaves arena after ∧
        (operation.ChecksFirst → arena.Same after)) := by
  obtain ⟨numbered, reached⟩ := Document.numbered_new.operations operations
  rw [Document.arena_new] at reached
  have follows := follows_run numbered operation
  have outcome := outcome_run numbered operation
  rcases follows.cases with ⟨answer, after, ran, -, linked⟩ | ⟨error, after, ran, -, linked⟩
  · rw [Outcome, ran] at outcome
    refine ⟨_, _, _, reached, linked, fun refused => ⟨outcome refused, ?_⟩⟩
    exact fun first => (outcome refused).same first
  · rw [Outcome, ran] at outcome
    exact ⟨_, _, _, reached, linked, fun _ => ⟨outcome, fun first => outcome.same first⟩⟩

/-- A rule below the root that holds a declaration, and another rule. -/
def TreeOperation.nested : List TreeOperation :=
  [.create ⟨.rule ".a", {}, none⟩, .append ⟨1⟩ ⟨2⟩, .create ⟨.declaration "x" "y", {}, none⟩,
    .append ⟨2⟩ ⟨3⟩, .create ⟨.rule ".b", {}, none⟩, .append ⟨1⟩ ⟨4⟩]

/-- The rule cannot be put in the place of the declaration that it holds, and stays where it
is. -/
theorem refused_unchanged_ownSubtree : ∃ arena after,
    TreeOperation.nested.foldlM Arena.operate Arena.new = some arena ∧
    (TreeOperation.replaceWith ⟨3⟩ [⟨2⟩]).run Linking.edits arena =
      some (.error .ownSubtree, after) ∧
    (TreeOperation.replaceWith ⟨3⟩ [⟨2⟩]).ChecksFirst ∧ arena.Same after := by
  obtain ⟨arena, answer, after, reached, ran, leaves⟩ :=
    refused_unchanged TreeOperation.nested (.replaceWith ⟨3⟩ [⟨2⟩])
  have answers : ((TreeOperation.nested.foldlM Arena.operate Arena.new).bind fun arena =>
      ((TreeOperation.replaceWith ⟨3⟩ [⟨2⟩]).run Linking.edits arena).map Prod.fst) =
        some (.error .ownSubtree) := rfl
  rw [reached, Option.bind_some, ran] at answers
  cases answers
  have first : (TreeOperation.replaceWith ⟨3⟩ [⟨2⟩]).ChecksFirst := ⟨by decide, by decide⟩
  exact ⟨arena, after, reached, ran, first, (leaves fun _ => nofun).2 first⟩

/-- A rule that is put next to itself is refused, and is taken out of its place; and where
one node could be put in another's place and the next could not, the one stays there. -/
theorem refused_unchanged_not_always : ∃ arena,
    TreeOperation.nested.foldlM Arena.operate Arena.new = some arena ∧
    (∃ after, (TreeOperation.insertBefore ⟨2⟩ ⟨2⟩).run Linking.edits arena =
        some (.error .noParent, after) ∧ ¬ arena.Same after) ∧
    ∃ after, (TreeOperation.replaceWith ⟨4⟩ [⟨3⟩, ⟨9⟩]).run Linking.edits arena =
      some (.error .noNode, after) ∧ ¬ arena.Same after := by
  refine ⟨_, rfl, ⟨_, rfl, fun same => ?_⟩, _, rfl, fun same => ?_⟩
  · have parents := congrArg (fun slots => (slots ⟨2⟩).bind Slot.parent) same.1
    cases parents
  · have parents := congrArg (fun slots => (slots ⟨3⟩).bind Slot.parent) same.1
    cases parents

end ApplyRule
