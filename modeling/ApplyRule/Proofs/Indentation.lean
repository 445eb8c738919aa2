/-
# ApplyRule.Proofs.Indentation -- indenting again

A declaration that is copied into another set is indented for its new place: the first
run of two or more blanks in the text before it gives way to the parent's and two
spaces.  What is put there is such a run again, and is the first one of the new text
(`FirstRun`), so the next indentation replaces just that, and only the last one counts
(`reindent_reindent`).

So it is for whole trees, though a parent may itself be indented before what is below it.
Indenting the declarations below a node is done once and for all, and changes nothing
but the text before them (`Arena.Reindented`).  And what came through any number of
sets is indented as if it had come straight from where it was written
(`Expands.gathers`).
-/
import ApplyRule.Proofs.Exchange
import ApplyRule.Proofs.Expands
import ApplyRule.Proofs.Reached
import ApplyRule.Proofs.Walks

namespace ApplyRule

set_option autoImplicit false

open Text

/-! ## Texts -/

/-- The text is cut around its first run of two or more blanks, which is cut as long as it
can be. -/
structure FirstRun (text lead run trail : List Char) : Prop where
  whole : text = lead ++ run ++ trail
  blank : ∀ c ∈ run, isHorizontal c = true
  long : 2 ≤ run.length
  /-- It does not go on after its end. -/
  ends : ∀ c ∈ trail.head?, isHorizontal c = false
  /-- It did not begin before. -/
  begins : ∀ c ∈ lead.getLast?, isHorizontal c = false
  /-- No two blanks are side by side before it. -/
  first : lead.IsChain fun c next => isHorizontal c = true → isHorizontal next = false

variable {text lead run trail rest : List Char} {c : Char}

/-- A run has two blanks if it begins with two. -/
theorem two_le_length_takeWhile : 2 ≤ ((c :: rest).takeWhile isHorizontal).length ↔
    isHorizontal c = true ∧ ∃ next ∈ rest.head?, isHorizontal next = true := by
  by_cases blank : isHorizontal c = true
  · cases rest with
    | nil => simp [blank]
    | cons next _ => by_cases also : isHorizontal next = true <;> simp [blank, also]
  · simp [blank]

/-- The first run is the one that is found. -/
theorem FirstRun.indentation? (cut : FirstRun text lead run trail) :
    indentation? text = some (lead, run, trail) := by
  obtain ⟨rfl, blank, long, ends, begins, first⟩ := cut
  induction lead with
  | nil =>
      obtain ⟨c, rest, rfl⟩ := List.exists_cons_of_length_pos (Nat.lt_of_lt_of_le Nat.two_pos long)
      have stops : trail.takeWhile isHorizontal = [] ∧ trail.dropWhile isHorizontal = trail := by
        cases trail with
        | nil => exact ⟨rfl, rfl⟩
        | cons next _ => simp [ends next rfl]
      have taken : (c :: (rest ++ trail)).takeWhile isHorizontal = c :: rest := by
        rw [← List.cons_append, List.takeWhile_append_of_pos blank, stops.1, List.append_nil]
      have dropped : (c :: (rest ++ trail)).dropWhile isHorizontal = trail := by
        rw [← List.cons_append, List.dropWhile_append_of_pos blank, stops.2]
      rw [List.nil_append, List.cons_append, ApplyRule.indentation?]
      simp only [taken, dropped, if_pos long]
  | cons c lead ih =>
      have later := ih (fun last member => begins last ?_) first.tail
      · have short : ¬ 2 ≤ ((c :: (lead ++ run ++ trail)).takeWhile isHorizontal).length := by
          rw [two_le_length_takeWhile]
          rintro ⟨blank, next, head, also⟩
          cases lead with
          | nil => exact Bool.false_ne_true ((begins c rfl).symm.trans blank)
          | cons other lead =>
              cases head
              exact Bool.false_ne_true ((first.rel blank).symm.trans also)
        rw [List.cons_append, List.cons_append, ApplyRule.indentation?]
        simp only [if_neg short, later, Option.map_some]
      · cases lead with
        | nil => cases member
        | cons => exact member

/-- What is found is the first run. -/
theorem firstRun_of_indentation? (found : indentation? text = some (lead, run, trail)) :
    FirstRun text lead run trail := by
  induction text generalizing lead with
  | nil => cases found
  | cons c rest ih =>
      rw [indentation?] at found
      simp only at found
      split at found
      · rename_i long
        cases found
        refine ⟨List.takeWhile_append_dropWhile.symm, fun _ => List.mem_takeWhile_imp, long,
          fun next head => ?_, nofun, .nil⟩
        have stops := List.head?_dropWhile_not isHorizontal (c :: rest)
        rw [head] at stops
        exact stops
      · rename_i short
        obtain ⟨⟨before, run, trail⟩, later, eq⟩ := Option.map_eq_some_iff.mp found
        cases eq
        obtain ⟨rfl, blank, long, ends, begins, first⟩ := ih later
        -- What follows `c` is not a blank if `c` is one.
        have alone : ∀ next ∈ (before ++ run ++ trail).head?, isHorizontal c = true →
            isHorizontal next = false := fun next head own =>
          eq_false_of_ne_true fun also =>
            short (two_le_length_takeWhile.mpr ⟨own, next, head, also⟩)
        refine ⟨rfl, blank, long, ends, ?_, ?_⟩
        · cases before with
          | nil =>
              obtain ⟨next, others, rfl⟩ :=
                List.exists_cons_of_length_pos (Nat.lt_of_lt_of_le Nat.two_pos long)
              rintro _ ⟨⟩
              exact eq_false_of_ne_true fun own => Bool.false_ne_true
                ((alone next rfl own).symm.trans (blank next List.mem_cons_self))
          | cons => exact begins
        · cases before with
          | nil => exact .singleton c
          | cons next others => exact .cons_cons (alone next rfl) first

/-- An indentation takes the place of a text's first run, and is a run itself. -/
theorem exists_reindent (outer : String) : ∃ fill : List Char,
    (∀ c ∈ fill, isHorizontal c = true) ∧ 2 ≤ fill.length ∧
      ∀ before lead run trail, FirstRun before.toList lead run trail →
        reindent outer before = String.ofList (lead ++ fill ++ trail) := by
  refine ⟨' ' :: ' ' :: ((indentation? outer.toList).map fun parts => parts.2.1).getD [], ?_,
    Nat.le_add_left 2 _, fun before lead run trail cut => ?_⟩
  · have inner : ∀ c ∈ ((indentation? outer.toList).map fun parts => parts.2.1).getD [],
        isHorizontal c = true := by
      cases found : indentation? outer.toList with
      | none => exact nofun
      | some parts => exact (firstRun_of_indentation? found).blank
    intro c member
    rcases List.mem_cons.mp member with rfl | member
    · decide
    · rcases List.mem_cons.mp member with rfl | member
      · decide
      · exact inner c member
  · rw [reindent, cut.indentation?]

/-- The first run of a text gives way to that of another with two spaces before it, or to the
two spaces if that has none. -/
inductive Reindents (outer before : String) : String → Prop where
  | deeper {lead run trail front indent back : List Char}
      (cut : FirstRun before.toList lead run trail)
      (outerCut : FirstRun outer.toList front indent back) :
      Reindents outer before (String.ofList (lead ++ (' ' :: ' ' :: indent) ++ trail))
  | shallow {lead run trail : List Char} (cut : FirstRun before.toList lead run trail)
      (flat : ∀ front indent back, ¬ FirstRun outer.toList front indent back) :
      Reindents outer before (String.ofList (lead ++ [' ', ' '] ++ trail))
  | none (flat : ∀ lead run trail, ¬ FirstRun before.toList lead run trail) :
      Reindents outer before before

theorem reindent_of_none (outer : String) {before : String}
    (none_ : indentation? before.toList = none) : reindent outer before = before := by
  rw [reindent, none_]

/-- A text has no run if none is found. -/
theorem indentation?_eq_none_iff : indentation? text = none ↔
    ∀ lead run trail, ¬ FirstRun text lead run trail := by
  constructor
  · intro none_ lead run trail cut
    cases none_.symm.trans cut.indentation?
  · intro flat
    cases found : indentation? text with
    | none => rfl
    | some parts => exact absurd (firstRun_of_indentation? found) (flat _ _ _)

theorem reindents_iff {outer before after : String} :
    Reindents outer before after ↔ after = reindent outer before := by
  constructor
  · rintro (⟨cut, outerCut⟩ | ⟨cut, flat⟩ | flat)
    · rw [reindent, cut.indentation?, outerCut.indentation?]
      rfl
    · rw [reindent, cut.indentation?, indentation?_eq_none_iff.mpr flat]
      rfl
    · rw [reindent_of_none outer (indentation?_eq_none_iff.mpr flat)]
  · rintro rfl
    unfold reindent
    cases found : indentation? before.toList with
    | none => exact .none (indentation?_eq_none_iff.mp found)
    | some parts =>
        have cut := firstRun_of_indentation? found
        cases outerFound : indentation? outer.toList with
        | none => exact .shallow cut (indentation?_eq_none_iff.mp outerFound)
        | some outerParts => exact .deeper cut (firstRun_of_indentation? outerFound)

/-- **Only the last indentation counts.** -/
theorem reindent_reindent (first last before : String) :
    reindent last (reindent first before) = reindent last before := by
  cases found : indentation? before.toList with
  | none => rw [reindent_of_none first found]
  | some parts =>
      obtain ⟨lead, run, trail⟩ := parts
      have cut := firstRun_of_indentation? found
      obtain ⟨fill, blank, long, fills⟩ := exists_reindent first
      obtain ⟨_, -, -, fillsLast⟩ := exists_reindent last
      have again : FirstRun (reindent first before).toList lead fill trail := by
        rw [fills _ _ _ _ cut, String.toList_ofList]
        exact { cut with whole := rfl, blank := blank, long := long }
      rw [fillsLast _ _ _ _ again, fillsLast _ _ _ _ cut]

theorem reindent_foldl (outers : List String) (last before : String) :
    reindent last (outers.foldl (fun before outer => reindent outer before) before) =
      reindent last before := by
  induction outers generalizing before with
  | nil => rfl
  | cons outer rest ih => rw [List.foldl_cons, ih, reindent_reindent]

/-! ## Items -/

theorem Item.reindent_reindent (first last : String) (item : Item) :
    (item.reindent first).reindent last = item.reindent last := by
  by_cases declares : item.kind.isDeclaration = true
  · simp only [reindent, declares, if_true, ApplyRule.reindent_reindent]
  · simp only [reindent, declares, Bool.false_eq_true, if_false]

namespace Forest

theorem reindent_cons_eq (outer : String) (item : Item) (children rest : Forest Item) :
    (Forest.cons item children rest).reindent outer =
      .cons (item.reindent outer) (children.reindent (item.reindent outer).raws.before)
        (rest.reindent outer) := rfl

/-- Items that are indented again are indented as if for the first time. -/
theorem reindent_reindent (first last : String) (items : Forest Item) :
    (items.reindent first).reindent last = items.reindent last := by
  induction items generalizing first last with
  | nil => rfl
  | cons item children rest ihc ihr =>
      simp only [reindent_cons_eq, Item.reindent_reindent, ihc, ihr]

theorem reindent_append (outer : String) (first second : Forest Item) :
    (first ++ second).reindent outer = first.reindent outer ++ second.reindent outer := by
  induction first with
  | nil => rfl
  | cons item children rest _ ih => simp only [cons_append, reindent_cons_eq, ih]

end Forest

/-! ## Nodes -/

namespace Forest

theorem tops_indented (outer : String) (forest : Forest Node) :
    (forest.indented outer).tops = forest.tops := by
  induction forest with
  | nil => rfl
  | cons node children rest _ ih => rw [indented, tops_cons, tops_cons, ih]

theorem indented_indented (first last : String) (forest : Forest Node) :
    (forest.indented first).indented last = forest.indented last := by
  induction forest generalizing first last with
  | nil => rfl
  | cons node children rest ihc ihr =>
      simp only [indented, Item.reindent_reindent, ihc, ihr]

/-- Each node is indented by what its parent has before it in the end. -/
theorem slot?_indented {forest : Forest Node} {other : NodeId} {above : Option NodeId}
    {slot : Slot} (nodup : forest.ids.Nodup) (stored : forest.slot? other above = some slot)
    (outer : String) : ∃ upper,
      (forest.indented outer).slot? other above = some (slot.touch (Item.reindent upper)) ∧
      (slot.parent = above ∧ upper = outer ∨
        ∃ parent holder, slot.parent = some parent ∧
          (forest.indented outer).slot? parent above = some holder ∧
          upper = holder.item.raws.before) := by
  induction forest generalizing above outer with
  | nil => cases stored
  | cons node children rest ihc ihr =>
      obtain ⟨⟨notBelow, notRest⟩, nodupBelow, nodupRest, disjoint⟩ := nodup_parts nodup
      let own := node.item.reindent outer
      rw [slot?] at stored
      simp only [indented, slot?]
      split at stored
      · rename_i here
        cases stored
        exact ⟨outer, by rw [if_pos here, tops_indented]; rfl, .inl ⟨rfl, rfl⟩⟩
      · rename_i elsewhere
        rw [if_neg elsewhere]
        rcases Option.or_eq_some_iff.mp stored with inside | ⟨-, later⟩
        · obtain ⟨upper, changed, place⟩ := ihc nodupBelow inside own.raws.before
          refine ⟨upper, by rw [changed, Option.some_or], .inr ?_⟩
          rcases place with ⟨parent, rfl⟩ | ⟨parent, holder, named, held, eq⟩
          · exact ⟨node.id, _, parent, by rw [if_pos rfl], rfl⟩
          · have member := mem_ids_of_slot? held
            rw [ids_indented] at member
            have ne : node.id ≠ parent := fun eq => notBelow (eq ▸ member)
            exact ⟨parent, holder, named, by rw [if_neg ne, held, Option.some_or], eq⟩
        · have outside : ∀ {id : NodeId}, id ∈ rest.ids →
              (children.indented own.raws.before).slot? id (some node.id) = none :=
            fun member => slot?_eq_none
              (fun both => disjoint (by rwa [ids_indented] at both) member) _
          obtain ⟨upper, changed, place⟩ := ihr nodupRest later outer
          refine ⟨upper, by rw [outside (mem_ids_of_slot? later), Option.none_or, changed], ?_⟩
          refine place.imp id ?_
          rintro ⟨parent, holder, named, held, eq⟩
          have member := mem_ids_of_slot? held
          rw [ids_indented] at member
          have ne : node.id ≠ parent := fun eq => notRest (eq ▸ member)
          exact ⟨parent, holder, named,
            by rw [if_neg ne, outside member, Option.none_or, held], eq⟩

end Forest

/-! ## Documents -/

/-- The declarations below a node were indented, each by what its parent has before it in the
end, and nothing else was changed. -/
structure Arena.Reindented (arena after : Arena) (id : NodeId) : Prop where
  below : ∀ other slot, Relation.TransGen arena.Under other id → arena.slots other = some slot →
    ∃ parent holder, slot.parent = some parent ∧ after.slots parent = some holder ∧
      after.slots other = some (slot.touch (Item.reindent holder.item.raws.before))
  others : ∀ other, ¬ Relation.TransGen arena.Under other id →
    after.slots other = arena.slots other
  root : after.root = arena.root
  fresh : after.fresh = arena.fresh

/-- A document that can be reached: a pass of a parsed stylesheet comes to it, and then it is
changed from outside. -/
def Document.Reachable (document : Document) : Prop :=
  ∃ css first options pass operations, Document.parse css = .ok first ∧
    Pass.Reached { document := first, options } pass ∧
    document = List.foldl Document.operate pass.document operations

theorem Document.Reachable.numbered {document : Document} (reachable : document.Reachable) :
    document.Numbered := by
  obtain ⟨css, first, options, pass, operations, parsed, reached, rfl⟩ := reachable
  have tidy := reached.tidy (Pass.tidy_of_parse parsed options)
  exact (tidy.sound.numbered.operations operations).1

theorem Document.parse_empty : Document.parse "" = .ok Document.new := by
  have empty : Component.read "".toList = [] := by decide +kernel
  rw [Document.parse, Body.parse, empty, Body.read]
  rfl

/-- What operations lead to from an empty document can be reached. -/
theorem Document.reachable_operations (operations : List TreeOperation) :
    (operations.foldl Document.operate Document.new).Reachable :=
  ⟨"", Document.new, {}, _, operations, parse_empty, .start, rfl⟩

section Arena

variable {document : Document} {id : NodeId} {item : Item} {children : Forest Node}

/-- The document with the declarations below a node indented. -/
def Document.indented (document : Document) (id : NodeId) (item : Item)
    (children : Forest Node) : Document :=
  document.splice id (.tree ⟨id, item⟩ (children.indented item.raws.before))

/-- Indenting changes slots in the node's tree only. -/
theorem Document.slots_indented (nodup : document.forest.ids.Nodup) {slot : Slot}
    (found : document.find? id = some (item, children))
    (stored : document.arena.slots id = some slot) (other : NodeId) :
    (document.indented id item children).arena.slots other =
      if other ∈ id :: children.ids then
        (Forest.tree ⟨id, item⟩ (children.indented item.raws.before)).slot? other slot.parent
      else document.arena.slots other := by
  have ids : (Forest.tree ⟨id, item⟩ (children.indented item.raws.before)).ids =
      id :: children.ids := by rw [Forest.ids_tree, Forest.ids_indented]
  have replaced : (document.indented id item children).arena.slots other = _ :=
    Forest.slot?_replace nodup found stored fun other new _ => ids ▸ new
  rw [replaced, ids]
  by_cases member : other ∈ id :: children.ids
  · rw [if_pos member, if_pos member]
  · rw [if_neg member, if_neg member, if_neg member]
    show (document.arena.slots other).map (Slot.exchange id [id]) = _
    cases document.arena.slots other with
    | none => rfl
    | some slot => rw [Option.map_some, Slot.exchange, NodeId.exchange_self]

theorem Document.slots_indented_self (nodup : document.forest.ids.Nodup) {slot : Slot}
    (found : document.find? id = some (item, children))
    (stored : document.arena.slots id = some slot) :
    (document.indented id item children).arena.slots id = some slot := by
  obtain ⟨above, same⟩ := slots_of_find? found
  cases stored.symm.trans same
  rw [slots_indented nodup found stored, if_pos List.mem_cons_self, Forest.slot?_tree_top,
    Forest.tops_indented]

theorem Document.slots_indented_below (nodup : document.forest.ids.Nodup) {other : NodeId}
    (found : document.find? id = some (item, children)) (member : other ∈ children.ids) :
    (document.indented id item children).arena.slots other =
      (children.indented item.raws.before).slot? other (some id) := by
  obtain ⟨above, stored⟩ := slots_of_find? found
  have ne : other ≠ id := fun same => (Forest.nodup_below nodup found).1 (same ▸ member)
  rw [slots_indented nodup found stored, if_pos (List.mem_cons_of_mem _ member),
    Forest.slot?_tree_below _ _ ne]

theorem Document.Numbered.reindented (numbered : document.Numbered)
    (found : document.find? id = some (item, children)) :
    document.arena.Reindented (document.indented id item children).arena id := by
  have nodup := numbered.nodup
  obtain ⟨above, stored⟩ := slots_of_find? found
  have self := slots_indented_self nodup found stored
  refine ⟨fun other slot under kept => ?_, fun other apart => ?_, rfl, rfl⟩
  · have member := (mem_below_iff_under numbered found).mpr under
    obtain ⟨upper, changed, place⟩ := Forest.slot?_indented (Forest.nodup_below nodup found).2
      ((slots_below nodup found member).symm.trans kept) item.raws.before
    rw [← slots_indented_below nodup found member] at changed
    rcases place with ⟨named, rfl⟩ | ⟨parent, holder, named, held, rfl⟩
    · exact ⟨id, _, named, self, changed⟩
    · have within := Forest.mem_ids_of_slot? held
      rw [Forest.ids_indented] at within
      exact ⟨parent, holder, named, (slots_indented_below nodup found within).trans held, changed⟩
  · by_cases member : other ∈ id :: children.ids
    · rcases List.mem_cons.mp member with rfl | below
      · rw [self, stored]
      · exact absurd ((mem_below_iff_under numbered found).mp below) apart
    · rw [slots_indented nodup found stored, if_neg member]

/-- Indenting the declarations below a node is done once and for all. -/
theorem Document.Numbered.cleanIndent_twice (numbered : document.Numbered)
    (found : document.find? id = some (item, children)) :
    Linking.cleanIndent id document.arena =
        some (.ok (), (document.indented id item children).arena) ∧
      Linking.cleanIndent id (document.indented id item children).arena =
        some (.ok (), (document.indented id item children).arena) := by
  obtain ⟨numberedAfter, ran⟩ :=
    (follows_cleanIndent numbered id).ok (Edit.cleanIndent_ok numbered.nodup found)
  have foundAfter : (document.indented id item children).find? id =
      some (item, children.indented item.raws.before) := find?_splice_self found _
  obtain ⟨-, again⟩ := (follows_cleanIndent numberedAfter id).ok
    (Edit.cleanIndent_ok numberedAfter.nodup foundAfter)
  rw [Forest.indented_indented, splice_splice] at again
  exact ⟨ran, again⟩

end Arena

/-! ## Sets in sets -/

/-- What items stand for, each as it was written in the set it is from. -/
inductive Gathers (sets : Sets) : Forest Item → Forest Item → Prop where
  | nil : Gathers sets .nil .nil
  | keep {item : Item} {children rest inside after : Forest Item}
      (plain : item.kind.reference? = none)
      (below : Gathers sets children inside) (later : Gathers sets rest after) :
      Gathers sets (.cons item children rest) (.cons item inside after)
  | known {item rule : Item} {name : String} {children rest body inside after : Forest Item}
      (refers : item.kind.reference? = some (some name)) (found : sets name = some (rule, body))
      (stands : Gathers sets body inside) (later : Gathers sets rest after) :
      Gathers sets (.cons item children rest) (inside ++ after)
  | unknown {item : Item} {name : String} {children rest after : Forest Item}
      (refers : item.kind.reference? = some (some name)) (absent : sets name = none)
      (later : Gathers sets rest after) : Gathers sets (.cons item children rest) after
  | nameless {item : Item} {children rest after : Forest Item}
      (refers : item.kind.reference? = some none) (later : Gathers sets rest after) :
      Gathers sets (.cons item children rest) after

/-- What is gathered was written in a set, or among the items themselves. -/
theorem Gathers.mem {sets : Sets} {items written : Forest Item}
    (gathers : Gathers sets items written) {item : Item} (member : item ∈ written.labels) :
    item ∈ items.labels ∨
      ∃ name rule body, sets name = some (rule, body) ∧ item ∈ body.labels := by
  induction gathers with
  | nil => cases member
  | keep _ _ _ ihBelow ihLater =>
      simp only [Forest.labels, List.mem_cons, List.mem_append] at member ⊢
      rcases member with own | below | later
      · exact .inl (.inl own)
      · exact (ihBelow below).imp_left fun inside => .inr (.inl inside)
      · exact (ihLater later).imp_left fun after => .inr (.inr after)
  | known _ found _ _ ihStands ihLater =>
      simp only [Forest.labels_append, List.mem_append] at member
      rcases member with inside | later
      · exact .inr ((ihStands inside).elim (fun own => ⟨_, _, _, found, own⟩) id)
      · refine (ihLater later).imp_left fun after => ?_
        simp only [Forest.labels, List.mem_cons, List.mem_append, after, or_true]
  | unknown _ _ _ ih | nameless _ _ ih =>
      refine (ih member).imp_left fun after => ?_
      simp only [Forest.labels, List.mem_cons, List.mem_append, after, or_true]

/-- What items stand for was indented once for each set on its way.  Indented again, it is
indented as it was written. -/
theorem Expands.gathers {sets : Sets} {items expanded : Forest Item}
    (stands : Expands sets items expanded) :
    ∃ written, Gathers sets items written ∧
      ∀ outer, expanded.reindent outer = written.reindent outer := by
  induction stands with
  | nil => exact ⟨.nil, .nil, fun _ => rfl⟩
  | keep plain _ _ ihBelow ihLater =>
      obtain ⟨inside, below, sameBelow⟩ := ihBelow
      obtain ⟨after, later, sameLater⟩ := ihLater
      refine ⟨_, .keep plain below later, fun outer => ?_⟩
      rw [Forest.reindent_cons_eq, Forest.reindent_cons_eq, sameBelow, sameLater]
  | known refers found _ _ ihStands ihLater =>
      obtain ⟨inside, stands, sameInside⟩ := ihStands
      obtain ⟨after, later, sameLater⟩ := ihLater
      refine ⟨_, .known refers found stands later, fun outer => ?_⟩
      rw [Forest.reindent_append, Forest.reindent_append, Forest.reindent_reindent, sameInside,
        sameLater]
  | unknown refers absent _ ih =>
      obtain ⟨after, later, same⟩ := ih
      exact ⟨after, .unknown refers absent later, same⟩
  | nameless refers _ ih =>
      obtain ⟨after, later, same⟩ := ih
      exact ⟨after, .nameless refers later, same⟩

/-- **Indenting absorbs and does not drift.**  At every node of a document that can be reached,
indenting the declarations below changes nothing but the text before them, and doing it again
changes nothing.  Indenting a text replaces its first run of two or more blanks, and after any
indentations the last one counts alone.  So what stands for items with references, through
any number of sets, is indented as if every item came from where it was written. -/
theorem indentation_absorbs {document : Document} {id : NodeId} (reachable : document.Reachable)
    (live : document.contains id = true) :
    (∃ after, Linking.cleanIndent id document.arena = some (.ok (), after) ∧
      document.arena.Reindented after id ∧
      Linking.cleanIndent id after = some (.ok (), after)) ∧
    (∀ outer before after, Reindents outer before after ↔ after = reindent outer before) ∧
    (∀ first last before, reindent last (reindent first before) = reindent last before) ∧
    (∀ outers last before,
      reindent last (List.foldl (fun before outer => reindent outer before) before outers) =
        reindent last before) ∧
    ∀ sets items expanded, Expands sets items expanded →
      ∃ written, Gathers sets items written ∧
        ∀ outer, expanded.reindent outer = written.reindent outer := by
  have numbered := reachable.numbered
  obtain ⟨⟨item, children⟩, found⟩ := Option.isSome_iff_exists.mp live
  obtain ⟨ran, again⟩ := numbered.cleanIndent_twice found
  refine ⟨⟨_, ran, numbered.reindented found, again⟩, ?_, reindent_reindent, reindent_foldl, ?_⟩
  · exact fun _ _ _ => reindents_iff
  · exact fun _ _ _ stands => stands.gathers

/-- Of two declarations in a rule, one inside an at-rule, each is indented by its own parent. -/
theorem indentation_absorbs_nested : ∃ document after,
    Document.parse ".x \x7b\n    @media y \x7b\n        a: b;\n    \x7d\n    c: d;\n\x7d" =
      .ok document ∧
    Linking.cleanIndent ⟨2⟩ document.arena = some (.ok (), after) ∧
    document.arena.Reindented after ⟨2⟩ ∧ Linking.cleanIndent ⟨2⟩ after = some (.ok (), after) ∧
    [3, 4, 5].map (fun index => (after.slots ⟨index⟩).map fun slot => slot.item.raws.before) =
      [some "\n    ", some "\n      ", some "\n  "] := by
  obtain ⟨document, parsed, computed⟩ := exists_ok_of_any
    (Document.parse ".x \x7b\n    @media y \x7b\n        a: b;\n    \x7d\n    c: d;\n\x7d")
    (fun document => decide (document.contains ⟨2⟩ = true) &&
      (Linking.cleanIndent ⟨2⟩ document.arena).any fun answer =>
        decide ([3, 4, 5].map (fun index =>
          (answer.2.slots ⟨index⟩).map fun slot => slot.item.raws.before) =
            [some "\n    ", some "\n      ", some "\n  "]))
    (by decide +kernel)
  obtain ⟨live, computed⟩ := Bool.and_eq_true_iff.mp computed
  have reachable : document.Reachable := ⟨_, document, {}, _, [], parsed, .start, rfl⟩
  obtain ⟨⟨after, ran, reindented, again⟩, -⟩ :=
    indentation_absorbs reachable (of_decide_eq_true live)
  rw [ran] at computed
  exact ⟨document, after, parsed, ran, reindented, again, of_decide_eq_true computed⟩

end ApplyRule
