/-
# ApplyRule.Proofs.ScopeTree -- what a rule under the root holds

A definition is taken out of the rule it stands in, its scope, and all that changes
under the root is what that rule holds.  `Document.Scoped` says so of a document in
the middle of it: the forest under the root is `below`, but for the scope, which now
holds `children`.  Every change among them is again of that form
(`Scoped.replace_child`, `Scoped.remove_child`, `Scoped.insert_child`), since a
change below a node is one in that node's place (`Forest.replace_within`).

In the end the scope is put in order, or goes with its last child
(`Forest.settled`).
-/
import ApplyRule.Proofs.RootTree

namespace ApplyRule

set_option autoImplicit false

namespace Forest

variable {forest children front back inner more : Forest Node} {id scope : NodeId} {item : Item}

/-- A node below another is no top. -/
theorem not_mem_tops_below (nodup : forest.ids.Nodup)
    (found : forest.find? scope = some (item, children)) (member : id ∈ children.ids) :
    id ∉ forest.tops := by
  induction forest with
  | nil => cases found
  | cons node below rest ihc ihr =>
      obtain ⟨⟨notBelow, notRest⟩, -, nodupRest, disjoint⟩ := nodup_parts nodup
      rw [tops_cons, List.mem_cons, not_or]
      rw [find?] at found
      split at found
      · cases found
        exact ⟨fun eq => notBelow (eq ▸ member), fun top => disjoint member (mem_ids_of_mem_tops top)⟩
      · rcases Option.or_eq_some_iff.mp found with inside | ⟨-, outside⟩
        · have within := mem_ids_below inside member
          exact ⟨fun eq => notBelow (eq ▸ within),
            fun top => disjoint within (mem_ids_of_mem_tops top)⟩
        · have within := mem_ids_below outside member
          exact ⟨fun eq => notRest (eq ▸ within), ihr nodupRest outside⟩

/-- A change below a node is one in that node's place. -/
theorem replace_within (nodup : forest.ids.Nodup)
    (found : forest.find? scope = some (item, children)) (member : id ∈ children.ids) :
    replace id more forest =
      replace scope (.tree ⟨scope, item⟩ (replace id more children)) forest := by
  induction forest with
  | nil => cases found
  | cons node below rest ihc ihr =>
      obtain ⟨⟨notBelow, notRest⟩, nodupBelow, nodupRest, disjoint⟩ := nodup_parts nodup
      have within := mem_ids_below found member
      rw [find?] at found
      split at found
      · rename_i here
        cases found
        have other : node.id ≠ id := fun eq => notBelow (eq ▸ member)
        have absent : id ∉ rest.ids := disjoint member
        rw [replace, if_neg other, replace, if_pos here, replace_of_not_mem absent, ← here]
        rfl
      · rename_i notHere
        rcases Option.or_eq_some_iff.mp found with inside | ⟨-, outside⟩
        · have idIn := mem_ids_below inside member
          have other : node.id ≠ id := fun eq => notBelow (eq ▸ idIn)
          rw [replace, if_neg other, replace, if_neg notHere, ← ihc nodupBelow inside,
            replace_of_not_mem (disjoint idIn),
            replace_of_not_mem (disjoint (mem_ids_of_find? inside))]
        · have idIn := mem_ids_below outside member
          have other : node.id ≠ id := fun eq => notRest (eq ▸ idIn)
          have absent : id ∉ below.ids := fun both => disjoint both idIn
          have scopeAbsent : scope ∉ below.ids := fun both =>
            disjoint both (mem_ids_of_find? outside)
          rw [replace, if_neg other, replace, if_neg notHere, ← ihr nodupRest outside,
            replace_of_not_mem absent, replace_of_not_mem scopeAbsent]

/-- Only the last of two changes in one node's place counts. -/
theorem replace_replace (scope : NodeId) (item : Item) (children more forest : Forest Node) :
    replace scope more (replace scope (.tree ⟨scope, item⟩ children) forest) =
      replace scope more forest := by
  induction forest with
  | nil => rfl
  | cons node below rest ihc ihr =>
      by_cases here : node.id = scope
      · simp only [replace, here, if_true, tree, cons_append, nil_append]
      · simp only [replace, here, if_false, ihc, ihr]

/-- A node's own tree in its place changes nothing. -/
theorem replace_self (nodup : forest.ids.Nodup)
    (found : forest.find? scope = some (item, children)) :
    replace scope (.tree ⟨scope, item⟩ children) forest = forest := by
  induction forest with
  | nil => rfl
  | cons node below rest ihc ihr =>
      obtain ⟨-, nodupBelow, nodupRest, disjoint⟩ := nodup_parts nodup
      rw [find?] at found
      split at found
      · rename_i here
        cases found
        rw [replace, if_pos here, ← here]
        rfl
      · rename_i notHere
        rw [replace, if_neg notHere]
        rcases Option.or_eq_some_iff.mp found with inside | ⟨-, outside⟩
        · rw [ihc nodupBelow inside, replace_of_not_mem (disjoint (mem_ids_of_find? inside))]
        · have absent : scope ∉ below.ids := fun both => disjoint both (mem_ids_of_find? outside)
          rw [ihr nodupRest outside, replace_of_not_mem absent]

theorem find?_replace_self (item : Item) (children : Forest Node) (member : scope ∈ forest.ids) :
    (replace scope (.tree ⟨scope, item⟩ children) forest).find? scope = some (item, children) := by
  induction forest with
  | nil => cases member
  | cons node below rest ihc ihr =>
      by_cases here : node.id = scope
      · rw [replace, if_pos here]
        exact find?_cons_self ..
      · rw [replace, if_neg here, find?, if_neg here]
        by_cases inside : scope ∈ below.ids
        · rw [ihc inside, Option.some_or]
        · have later : scope ∈ rest.ids := by
            rw [ids_cons, List.mem_cons, List.mem_append] at member
            exact (member.resolve_left (Ne.symm here)).resolve_left inside
          rw [replace_of_not_mem inside, find?_of_not_mem inside, Option.none_or, ihr later]

theorem update_eq_replace {change : Item → Item} (nodup : forest.ids.Nodup)
    (found : forest.find? scope = some (item, children)) :
    forest.update scope change = replace scope (.tree ⟨scope, change item⟩ children) forest := by
  induction forest with
  | nil => rfl
  | cons node below rest ihc ihr =>
      obtain ⟨⟨notBelow, notRest⟩, nodupBelow, nodupRest, disjoint⟩ := nodup_parts nodup
      rw [find?] at found
      split at found
      · rename_i here
        cases found
        rw [update, if_pos here, replace, if_pos here, update_of_not_mem (here ▸ notBelow),
          update_of_not_mem (here ▸ notRest), here]
        rfl
      · rename_i notHere
        rw [update, if_neg notHere, replace, if_neg notHere]
        rcases Option.or_eq_some_iff.mp found with inside | ⟨-, outside⟩
        · have absent := disjoint (mem_ids_of_find? inside)
          rw [ihc nodupBelow inside, update_of_not_mem absent, replace_of_not_mem absent]
        · have absent : scope ∉ below.ids := fun both => disjoint both (mem_ids_of_find? outside)
          rw [ihr nodupRest outside, update_of_not_mem absent, replace_of_not_mem absent]

/-- When a child of the root is removed, what stands deeper in the others is as it
was. -/
theorem find?_without {other : NodeId} (nodup : forest.ids.Nodup) (isTop : id ∈ forest.tops)
    (found : forest.find? id = some (item, children)) (inner : other ∉ forest.tops)
    (outside : other ∉ id :: children.ids) :
    (forest.without id).find? other = forest.find? other := by
  have deeper : other ∉ (replace id .nil forest).tops := by
    obtain ⟨before, after, old, new⟩ := tops_replace_of_mem nodup isTop
    rw [new, tops_nil, List.append_nil]
    rw [old] at inner
    simp only [List.mem_append, List.mem_cons, not_or] at inner ⊢
    exact ⟨inner.1, inner.2.2⟩
  have same : (replace id .nil forest).find? other = forest.find? other := by
    rw [find?_replace nodup found outside List.not_mem_nil]
    cases known : forest.find? other with
    | none => rfl
    | some pair =>
        have absent : id ∉ pair.2.ids := fun below => not_mem_tops_below nodup known below isTop
        rw [Option.map_some, replace_of_not_mem absent]
  rw [← same]
  cases forest with
  | nil => rfl
  | cons first below rest => exact find?_mapFirst_precede _ deeper

/-! ## A child among its siblings -/

/-- Every tree of a forest has trees before and after it. -/
theorem exists_split (child : id ∈ forest.tops) :
    ∃ front item inner back, forest = front ++ .cons ⟨id, item⟩ inner back := by
  induction forest with
  | nil => cases child
  | cons node below rest _ ih =>
      by_cases here : node.id = id
      · exact ⟨.nil, node.item, below, rest, by rw [← here]; rfl⟩
      · obtain ⟨front, item, inner, back, split⟩ :=
          ih ((List.mem_cons.mp child).resolve_left (Ne.symm here))
        exact ⟨.cons node below front, item, inner, back, by rw [split, cons_append]⟩

theorem not_mem_front (nodup : (front ++ .cons ⟨id, item⟩ inner back).ids.Nodup) :
    id ∉ front.ids := by
  rw [ids_append] at nodup
  exact fun member => (List.nodup_append'.mp nodup).2.2 member (by simp)

theorem find?_split (nodup : (front ++ .cons ⟨id, item⟩ inner back).ids.Nodup) :
    (front ++ .cons ⟨id, item⟩ inner back).find? id = some (item, inner) := by
  rw [find?_append, find?_of_not_mem (not_mem_front nodup), Option.none_or]
  exact find?_cons_self ..

theorem replace_split (nodup : (front ++ .cons ⟨id, item⟩ inner back).ids.Nodup)
    (more : Forest Node) :
    replace id more (front ++ .cons ⟨id, item⟩ inner back) = front ++ (more ++ back) := by
  have absent := not_mem_front nodup
  clear nodup
  induction front with
  | nil => rw [nil_append, replace, if_pos rfl, nil_append]
  | cons node below rest _ ih =>
      rw [ids_cons, List.mem_cons, List.mem_append, not_or, not_or] at absent
      rw [cons_append, replace, if_neg (Ne.symm absent.1), replace_of_not_mem absent.2.1,
        ih absent.2.2, cons_append]

/-- The forest without its last tree if that is a comment. -/
def uncommented : Forest Node → Forest Node
  | .nil => .nil
  | .cons node inner .nil => if node.item.kind.isComment then .nil else .cons node inner .nil
  | .cons node inner rest => .cons node inner rest.uncommented

theorem uncommented_append_tree (front : Forest Node) (last : Node) (inner : Forest Node) :
    (front ++ .tree last inner).uncommented =
      if last.item.kind.isComment then front else front ++ .tree last inner := by
  induction front with
  | nil => rfl
  | cons node below rest _ ih =>
      have more : ∃ next deeper others, rest ++ .tree last inner = .cons next deeper others := by
        cases rest with
        | nil => exact ⟨_, _, _, rfl⟩
        | cons next deeper others => exact ⟨_, _, _, rfl⟩
      obtain ⟨next, deeper, others, shape⟩ := more
      rw [cons_append]
      rw [shape] at ih ⊢
      rw [uncommented, ih]
      · split <;> rfl
      · nofun

/-- A forest is empty or has a last tree. -/
theorem eq_nil_or_append_tree (forest : Forest Node) :
    forest = .nil ∨ ∃ front last inner, forest = front ++ .tree last inner := by
  induction forest with
  | nil => exact .inl rfl
  | cons node below rest _ ih =>
      rcases ih with rfl | ⟨front, last, inner, rfl⟩
      · exact .inr ⟨.nil, node, below, rfl⟩
      · exact .inr ⟨.cons node below front, last, inner, rfl⟩

/-! ## A scope in order -/

/-- The item of a scope whose last child is `last`, once a definition was taken out of
it: its last statement is terminated, and the closing bracket stands on a line of its
own, unless that is a rule with its own semicolon. -/
def closed (last item : Item) : Item :=
  if last.kind.isRule && last.raws.ownSemicolon.isSome then item
  else { item with raws := { item.raws with semicolon := true, after := "\n" } }

/-- The forest under the root once the scope in it was left with `children`. -/
def settled (scope : NodeId) (item : Item) (children below : Forest Node) : Forest Node :=
  match children.roots.getLast? with
  | none => below.without scope
  | some last => replace scope (.tree ⟨scope, closed last.item item⟩ children) below

@[simp] theorem kind_closed (last item : Item) : (closed last item).kind = item.kind := by
  unfold closed
  split <;> rfl

@[simp] theorem source_closed (last item : Item) : (closed last item).source = item.source := by
  unfold closed
  split <;> rfl

/-- To take a node out it does not matter what it held. -/
theorem without_replace_tree (found : forest.find? scope = some (item, inner))
    (children : Forest Node) :
    (replace scope (.tree ⟨scope, item⟩ children) forest).without scope = forest.without scope := by
  have again := replace_replace scope item children .nil forest
  cases forest with
  | nil => cases found
  | cons node below rest =>
      by_cases here : node.id = scope
      · rw [find?, if_pos here] at found
        cases found
        simp only [replace, here, if_true, tree, cons_append, nil_append, without]
      · simp only [replace, here, if_false, without] at again ⊢
        rw [again]

/-- Other trees in the place of a node leave the places outside it. -/
theorem places_outside (nodup : forest.ids.Nodup)
    (found : forest.find? id = some (item, children)) (above : List Kind) :
    ∃ path, (∀ place ∈ Place.ofNode path ⟨id, item⟩ :: children.places (item.kind :: path),
        place ∈ forest.places above) ∧
      ∀ more, ∀ place ∈ (replace id more forest).places above,
        (place ∈ forest.places above ∧ place.id ∉ id :: children.ids) ∨
          place ∈ more.places path := by
  obtain ⟨before, path, after, old, new⟩ := places_replace nodup found above
  have ids : forest.ids = before.map Place.id ++ ((id :: children.ids) ++ after.map Place.id) := by
    rw [← map_id_places above, old]
    simp [Place.ofNode]
  rw [ids] at nodup
  obtain ⟨-, nodupLater, frontApart⟩ := List.nodup_append'.mp nodup
  obtain ⟨-, -, backApart⟩ := List.nodup_append'.mp nodupLater
  refine ⟨path, fun place member => ?_, fun more place member => ?_⟩
  · rw [old]
    exact List.mem_append_left _ (List.mem_append_right _ member)
  · rw [new, List.mem_append, List.mem_append] at member
    rcases member with (first | inside) | last
    · refine .inl ⟨by rw [old]; simp [first], fun both => ?_⟩
      exact frontApart (List.mem_map_of_mem first) (List.mem_append_left _ both)
    · exact .inr inside
    · refine .inl ⟨by rw [old]; simp [last], fun both => ?_⟩
      exact backApart both (List.mem_map_of_mem last)

theorem mem_places_without {place : Place} {above : List Kind} (nodup : forest.ids.Nodup)
    (found : forest.find? id = some (item, children))
    (member : place ∈ (forest.without id).places above) :
    place ∈ forest.places above ∧ place.id ∉ id :: children.ids := by
  obtain ⟨path, -, outside⟩ := places_outside nodup found above
  rw [places_without] at member
  exact (outside .nil place member).resolve_right List.not_mem_nil

/-- The places in a forest in which a scope was put in order: those outside it are as
they were, and those inside are those of its children. -/
theorem places_settled (nodup : forest.ids.Nodup)
    (found : forest.find? scope = some (item, children)) (above : List Kind) :
    ∃ path, (∀ place ∈ children.places (item.kind :: path), place ∈ forest.places above) ∧
      ∀ left, ∀ place ∈ (settled scope item left forest).places above,
        (place ∈ forest.places above ∧ place.id ∉ children.ids) ∨
          place ∈ left.places (item.kind :: path) := by
  obtain ⟨path, old, outside⟩ := places_outside nodup found above
  refine ⟨path, fun place member => old place (List.mem_cons_of_mem _ member),
    fun left place member => ?_⟩
  unfold settled at member
  split at member
  · obtain ⟨stays, apart⟩ := mem_places_without nodup found member
    exact .inl ⟨stays, fun both => apart (List.mem_cons_of_mem _ both)⟩
  · rename_i last _
    have same : Place.ofNode path ⟨scope, closed last.item item⟩ =
        Place.ofNode path ⟨scope, item⟩ := by
      simp [Place.ofNode]
    rcases outside _ place member with ⟨stays, apart⟩ | inside
    · exact .inl ⟨stays, fun both => apart (List.mem_cons_of_mem _ both)⟩
    · simp only [tree, places, same, kind_closed, List.append_nil, List.mem_cons] at inside
      rcases inside with rfl | deeper
      · exact .inl ⟨old _ List.mem_cons_self, (nodup_below nodup found).1⟩
      · exact .inr deeper

/-- The places beside a child are not its own. -/
theorem places_beside {place : Place} {path : List Kind}
    (nodup : (front ++ .cons ⟨id, item⟩ inner back).ids.Nodup)
    (beside : place ∈ front.places path ∨ place ∈ back.places path) :
    place ∈ (front ++ .cons ⟨id, item⟩ inner back).places path ∧ place.id ≠ id := by
  constructor
  · rw [places_append, List.mem_append, places, List.mem_cons, List.mem_append]
    tauto
  · intro same
    rw [ids_append, ids_cons] at nodup
    obtain ⟨-, nodupLater, apart⟩ := List.nodup_append'.mp nodup
    rcases beside with before | after
    · exact apart (mem_ids_of_mem_places before) (same ▸ List.mem_cons_self)
    · exact (List.nodup_cons.mp nodupLater).1
        (same ▸ List.mem_append_right _ (mem_ids_of_mem_places after))

theorem mem_places_uncommented {place : Place} {above : List Kind}
    (member : place ∈ forest.uncommented.places above) : place ∈ forest.places above := by
  rcases forest.eq_nil_or_append_tree with rfl | ⟨front, last, inner, rfl⟩
  · exact member
  · rw [uncommented_append_tree] at member
    split at member
    · rw [places_append]
      exact List.mem_append_left _ member
    · exact member

end Forest

namespace Document

variable {document after : Document} {tops : List NodeId} {id scope : NodeId} {place : Place}
  {item rootItem : Item} {below children more : Forest Node}

/-! ## Places in a document -/

/-- The place of a node under the root, as the document sees it. -/
theorem Sound.exists_node_of_place (sound : document.Sound tops)
    (rootFound : document.find? document.root = some (rootItem, below))
    (member : place ∈ below.places [.root]) :
    ∃ item children path, below.find? place.id = some (item, children) ∧
      document.find? place.id = some (item, children) ∧
      below.lineage? place.id [⟨document.root, rootItem⟩] = some path ∧
      document.lineage? place.id = some path ∧
      place = Place.ofNode (path.map (·.item.kind)) ⟨place.id, item⟩ := by
  have nodup := (Forest.nodup_below sound.nodup rootFound).2
  have within := Forest.mem_ids_of_mem_places member
  obtain ⟨_, _, found, kind⟩ := sound.root
  rw [rootFound] at found
  cases found
  obtain ⟨item, children, path, inside, lineage, same⟩ :=
    Forest.exists_find?_of_mem_places nodup [⟨document.root, rootItem⟩]
      (by simpa [kind] using member)
  refine ⟨item, children, path, inside,
    (Forest.find?_eq_find? sound.nodup rootFound within).trans inside, lineage, ?_, same⟩
  rw [Document.lineage?,
    Forest.lineage?_below_top sound.nodup sound.standing rootFound within, lineage]

/-- The attached nodes are the root and those below it. -/
theorem Sound.isAttached_iff (sound : document.Sound tops)
    (rootFound : document.find? document.root = some (rootItem, below)) :
    document.isAttached id = true ↔ id = document.root ∨ id ∈ below.ids := by
  constructor
  · intro attached
    obtain ⟨_, _, found, inTree⟩ := sound.below_root_of_isAttached attached
    rw [rootFound] at found
    cases found
    exact List.mem_cons.mp inTree
  · rintro (rfl | within)
    · simp [isAttached]
    · obtain ⟨path, lineage⟩ := Forest.exists_lineage? within [⟨document.root, rootItem⟩]
      have same := Forest.lineage?_below_top sound.nodup sound.standing rootFound within []
      obtain ⟨upper, eq, -⟩ := Forest.held_of_lineage?
        (Forest.nodup_below sound.nodup rootFound).2 lineage
      rw [isAttached, Document.lineage?, same, lineage, eq]
      simp

/-- The parent of a node under the root is the root or another node there. -/
theorem Sound.parent_of_place (sound : document.Sound tops)
    (rootFound : document.find? document.root = some (rootItem, below))
    (member : place ∈ below.places [.root]) :
    ∃ parent kind, document.parent? place.id = some (some parent) ∧
      document.kind? parent = some kind ∧ place.above.head? = some kind ∧
      ((kind = .root ∧ place.id ∈ below.tops) ∨
        ∃ item children, below.find? parent = some (item, children) ∧ item.kind = kind ∧
          kind.isRoot = false ∧ place.id ∈ children.tops) := by
  have nodup := (Forest.nodup_below sound.nodup rootFound).2
  obtain ⟨_, _, found, rootKind⟩ := sound.root
  rw [rootFound] at found
  cases found
  obtain ⟨item, children, path, -, -, inner, lineage, same⟩ :=
    sound.exists_node_of_place rootFound member
  obtain ⟨within, split, -, top, parent⟩ := Forest.held_of_lineage? nodup inner
  have above : place.above.head? = path.head?.map (·.item.kind) := by
    rw [same]
    cases path <;> rfl
  cases within with
  | nil =>
      rw [List.nil_append] at split
      rw [split] at above lineage
      refine ⟨document.root, .root, ?_, ?_, ?_, .inl ⟨rfl, top rfl⟩⟩
      · rw [parent?, lineage]
        rfl
      · rw [kind?_of_find? rootFound, rootKind]
      · rw [above, List.head?_cons, Option.map_some, rootKind]
  | cons nearest others =>
      obtain ⟨siblings, found, child⟩ := parent nearest rfl
      rw [List.cons_append] at split
      rw [split] at above lineage
      have inDocument : document.find? nearest.id = some (nearest.item, siblings) :=
        (Forest.find?_eq_find? sound.nodup rootFound (Forest.mem_ids_of_find? found)).trans found
      refine ⟨nearest.id, nearest.item.kind, ?_, kind?_of_find? inDocument, above,
        .inr ⟨nearest.item, siblings, found, rfl, ?_, child⟩⟩
      · rw [parent?, lineage]
        rfl
      · by_contra isRoot
        have standing := sound.alone ⟨nearest.id, nearest.item⟩
          ((Forest.labels_sublist_of_find? inDocument).subset List.mem_cons_self)
          (by simpa using isRoot)
        exact (Forest.nodup_below sound.nodup rootFound).1
          (standing ▸ Forest.mem_ids_of_find? found)

/-! ## Scopes -/

/-- The forest under the root is `below`, but for the rule `scope` in it, which holds
`children`. -/
structure Scoped (document : Document) (rootItem : Item) (below : Forest Node) (scope : NodeId)
    (item : Item) (children : Forest Node) : Prop where
  under : document.find? document.root =
    some (rootItem, Forest.replace scope (.tree ⟨scope, item⟩ children) below)
  origin : ∃ old, below.find? scope = some (item, old)
  rule : item.kind.isRule = true

namespace Scoped

theorem start (sound : document.Sound tops)
    (rootFound : document.find? document.root = some (rootItem, below))
    (found : below.find? scope = some (item, children)) (rule : item.kind.isRule = true) :
    document.Scoped rootItem below scope item children := by
  refine ⟨?_, ⟨children, found⟩, rule⟩
  rw [Forest.replace_self (Forest.nodup_below sound.nodup rootFound).2 found, rootFound]

theorem transfer (held : document.Scoped rootItem below scope item children)
    (root : after.root = document.root)
    (same : after.find? document.root = document.find? document.root) :
    after.Scoped rootItem below scope item children := by
  refine ⟨?_, held.origin, held.rule⟩
  rw [root, same, held.under]

theorem found_below (held : document.Scoped rootItem below scope item children) :
    (Forest.replace scope (.tree ⟨scope, item⟩ children) below).find? scope =
      some (item, children) := by
  obtain ⟨_, found⟩ := held.origin
  exact Forest.find?_replace_self _ _ (Forest.mem_ids_of_find? found)

theorem stands (held : document.Scoped rootItem below scope item children) :
    document.Scope scope children :=
  ⟨rootItem, _, item, held.under, held.found_below, held.rule⟩

theorem found (held : document.Scoped rootItem below scope item children)
    (sound : document.Sound tops) : document.find? scope = some (item, children) :=
  (Forest.find?_eq_find? sound.nodup held.under
    (Forest.mem_ids_of_find? held.found_below)).trans held.found_below

theorem nodup (held : document.Scoped rootItem below scope item children)
    (sound : document.Sound tops) : children.ids.Nodup :=
  (Forest.nodup_below sound.nodup (held.found sound)).2

/-- A change below the scope is one of what it holds. -/
theorem replace_child (held : document.Scoped rootItem below scope item children)
    (sound : document.Sound tops) (member : id ∈ children.ids) (root : after.root = document.root)
    (under : after.find? document.root = some (rootItem,
      Forest.replace id more (Forest.replace scope (.tree ⟨scope, item⟩ children) below))) :
    after.Scoped rootItem below scope item (Forest.replace id more children) := by
  refine ⟨?_, held.origin, held.rule⟩
  have nodup := (Forest.nodup_below sound.nodup held.under).2
  rw [root, under, Forest.replace_within nodup held.found_below member, Forest.replace_replace]

end Scoped

end Document

end ApplyRule
