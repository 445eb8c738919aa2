/-
# ApplyRule.Proofs.Places -- where the nodes of a forest stand

`Forest.places` lists the nodes of a forest in document order, each with the kinds
of the nodes above it.  A place tells all that decides what becomes of a node: its
kind, and whether and in what it stands.

* `places_replace` -- other trees in the place of a node change nothing before and
  after it.
* `exists_find?_of_mem_places` -- a place is that of a node which the forest finds,
  with the path upwards that `lineage?` gives.

`Walk` is the invariant of a loop over the nodes of a class that are there when it
begins, in document order, while the forest changes under it: what was visited and
left comes first, and what is still to come is what is left of the list.  A visit
leaves the node (`Walk.leave`) or puts trees without such nodes in its place
(`Walk.replace`).
-/
import ApplyRule.Proofs.Replacement

namespace ApplyRule

set_option autoImplicit false

/-- A node as the nodes above it see it; the nearest of them comes first. -/
structure Place where
  above : List Kind
  id : NodeId
  kind : Kind
  source : Option Text.Location

/-- The place of a node below nodes of these kinds. -/
def Place.ofNode (above : List Kind) (node : Node) : Place :=
  ⟨above, node.id, node.item.kind, node.item.source⟩

namespace Forest

/-- The places of all nodes, in document order, in a forest that stands below nodes
of the kinds `above`. -/
def places (above : List Kind) : Forest Node → List Place
  | .nil => []
  | .cons node children rest =>
      .ofNode above node :: (children.places (node.item.kind :: above) ++ rest.places above)

variable {forest children more : Forest Node} {id : NodeId} {item : Item} {place : Place}

@[simp] theorem places_append (above : List Kind) (first second : Forest Node) :
    (first ++ second).places above = first.places above ++ second.places above := by
  induction first with
  | nil => rfl
  | cons node children rest _ ih => simp [places, ih]

theorem places_tree (above : List Kind) (node : Node) (children : Forest Node) :
    (Forest.tree node children).places above =
      .ofNode above node :: children.places (node.item.kind :: above) := by
  rw [tree, places, places, List.append_nil]

@[simp] theorem map_id_places (above : List Kind) (forest : Forest Node) :
    (forest.places above).map Place.id = forest.ids := by
  induction forest generalizing above with
  | nil => rfl
  | cons node children rest ihc ihr => simp [places, Place.ofNode, ihc, ihr]

theorem mem_ids_of_mem_places {above : List Kind} (member : place ∈ forest.places above) :
    place.id ∈ forest.ids := by
  rw [← map_id_places above]
  exact List.mem_map_of_mem member

theorem exists_place {above : List Kind} (member : id ∈ forest.ids) :
    ∃ place ∈ forest.places above, place.id = id := by
  rw [← map_id_places above] at member
  exact List.mem_map.mp member

/-- One node stands in one place. -/
theorem eq_of_mem_places {above : List Kind} {other : Place} (nodup : forest.ids.Nodup)
    (member : place ∈ forest.places above) (also : other ∈ forest.places above)
    (same : place.id = other.id) : place = other :=
  List.inj_on_of_nodup_map (map_id_places above forest ▸ nodup) member also same

/-- Other trees in the place of a node change nothing before it and after it. -/
theorem places_replace (nodup : forest.ids.Nodup)
    (found : forest.find? id = some (item, children)) (above : List Kind) :
    ∃ before path after,
      forest.places above = before ++
        (Place.ofNode path ⟨id, item⟩ :: children.places (item.kind :: path)) ++ after ∧
      ∀ more, (replace id more forest).places above = before ++ more.places path ++ after := by
  induction forest generalizing above with
  | nil => cases found
  | cons node below rest ihc ihr =>
      obtain ⟨-, nodupBelow, nodupRest, disjoint⟩ := nodup_parts nodup
      rw [find?] at found
      split at found
      · rename_i here
        cases found
        refine ⟨[], above, rest.places above, ?_, fun more => ?_⟩
        · simp [places, ← here]
        · rw [replace, if_pos here, places_append, List.nil_append]
      · rename_i other
        rcases Option.or_eq_some_iff.mp found with inside | ⟨-, outside⟩
        · obtain ⟨before, path, after, old, new⟩ :=
            ihc nodupBelow inside (node.item.kind :: above)
          have absent := disjoint (mem_ids_of_find? inside)
          refine ⟨.ofNode above node :: before, path, after ++ rest.places above, ?_,
            fun more => ?_⟩
          · simp [places, old]
          · rw [replace, if_neg other, replace_of_not_mem absent]
            simp [places, new]
        · obtain ⟨before, path, after, old, new⟩ := ihr nodupRest outside above
          have absent : id ∉ below.ids := fun both => disjoint both (mem_ids_of_find? outside)
          refine ⟨.ofNode above node :: (below.places (node.item.kind :: above) ++ before), path,
            after, ?_, fun more => ?_⟩
          · simp [places, old]
          · rw [replace, if_neg other, replace_of_not_mem absent]
            simp [places, new]

/-- A place is that of a node which is found, below the nodes on its path upwards. -/
theorem exists_find?_of_mem_places (nodup : forest.ids.Nodup) (upper : List Node)
    (member : place ∈ forest.places (upper.map (·.item.kind))) :
    ∃ item children path, forest.find? place.id = some (item, children) ∧
      forest.lineage? place.id upper = some path ∧
      place = Place.ofNode (path.map (·.item.kind)) ⟨place.id, item⟩ := by
  induction forest generalizing upper with
  | nil => cases member
  | cons node below rest ihc ihr =>
      obtain ⟨⟨notBelow, notRest⟩, nodupBelow, nodupRest, disjoint⟩ := nodup_parts nodup
      rcases List.mem_cons.mp member with rfl | deeper
      · refine ⟨node.item, below, upper, find?_cons_self .., ?_, rfl⟩
        simp only [Place.ofNode, lineage?, if_true]
      · rcases List.mem_append.mp deeper with inside | outside
        · have within := mem_ids_of_mem_places inside
          have other : node.id ≠ place.id := fun eq => notBelow (eq ▸ within)
          obtain ⟨item, children, path, found, lineage, same⟩ :=
            ihc nodupBelow (node :: upper) inside
          refine ⟨item, children, path, (find?_cons_below nodup within).trans found, ?_, same⟩
          rw [lineage?, if_neg other, lineage, Option.some_or]
        · have within := mem_ids_of_mem_places outside
          have other : node.id ≠ place.id := fun eq => notRest (eq ▸ within)
          have absent : place.id ∉ below.ids := fun both => disjoint both within
          obtain ⟨item, children, path, found, lineage, same⟩ := ihr nodupRest upper outside
          refine ⟨item, children, path, (find?_cons_rest nodup within).trans found, ?_, same⟩
          rw [lineage?, if_neg other, lineage?_of_not_mem absent, Option.none_or]
          exact lineage

/-- The path upwards from a node inside the tree of a top begins below that top. -/
theorem lineage?_below_top (nodup : forest.ids.Nodup) {top : NodeId} (isTop : top ∈ forest.tops)
    (found : forest.find? top = some (item, children)) (member : id ∈ children.ids)
    (above : List Node) :
    forest.lineage? id above = children.lineage? id (⟨top, item⟩ :: above) :=
  lineage?_within nodup found (lineage?_of_mem_tops nodup isTop above) member

/-! ## Loops in document order -/

/-- The places of the nodes of a class. -/
def placesOf (p : Kind → Bool) (above : List Kind) (forest : Forest Node) : List Place :=
  (forest.places above).filter fun place => p place.kind

theorem placesOf_cons (p : Kind → Bool) (above : List Kind) (node : Node)
    (children rest : Forest Node) :
    (Forest.cons node children rest).placesOf p above =
      (if p node.item.kind then [.ofNode above node] else []) ++
        (children.placesOf p (node.item.kind :: above) ++ rest.placesOf p above) := by
  rw [placesOf, places, List.filter_cons, List.filter_append]
  show (if p node.item.kind = true then _ else _) = _
  split <;> rfl

@[simp] theorem placesOf_append (p : Kind → Bool) (above : List Kind)
    (first second : Forest Node) :
    (first ++ second).placesOf p above = first.placesOf p above ++ second.placesOf p above := by
  simp [placesOf]

theorem map_id_placesOf (p : Kind → Bool) (above : List Kind) (forest : Forest Node) :
    (forest.placesOf p above).map Place.id =
      (forest.labels.filter fun node => p node.item.kind).map Node.id := by
  induction forest generalizing above with
  | nil => rfl
  | cons node children rest ihc ihr =>
      simp only [placesOf] at ihc ihr
      simp only [placesOf, places, labels, List.filter_cons, List.filter_append, Place.ofNode]
      split <;> simp [ihc, ihr]

theorem nodup_placesOf (nodup : forest.ids.Nodup) (p : Kind → Bool) (above : List Kind) :
    ((forest.placesOf p above).map Place.id).Nodup := by
  refine List.Nodup.sublist (List.filter_sublist.map Place.id) ?_
  rw [map_id_places]
  exact nodup

theorem mem_places_of_mem_placesOf {p : Kind → Bool} {above : List Kind}
    (member : place ∈ forest.placesOf p above) : place ∈ forest.places above :=
  List.mem_of_mem_filter member

theorem mem_ids_of_mem_placesOf {p : Kind → Bool} {above : List Kind}
    (member : place ∈ forest.placesOf p above) : place.id ∈ forest.ids :=
  mem_ids_of_mem_places (mem_places_of_mem_placesOf member)

/-- The places of a class are cut at a place where all places are. -/
theorem cut_placesOf {p : Kind → Bool} {above : List Kind} {before later seen ahead : List Place}
    (nodup : forest.ids.Nodup) (whole : forest.places above = before ++ place :: later)
    (split : forest.placesOf p above = seen ++ place :: ahead) :
    seen = before.filter (fun place => p place.kind) ∧
      ahead = later.filter fun place => p place.kind := by
  have placeIn : place ∈ forest.placesOf p above := by
    rw [split]
    exact List.mem_append_right _ List.mem_cons_self
  have selected : p place.kind = true := by simpa using (List.mem_filter.mp placeIn).2
  have cut : forest.placesOf p above = before.filter (fun place => p place.kind) ++
      place :: later.filter fun place => p place.kind := by
    simp [placesOf, whole, selected]
  have nodupPlaces := nodup_placesOf nodup p above
  rw [split, List.map_append, List.map_cons] at nodupPlaces
  obtain ⟨-, nodupLater, disjoint⟩ := List.nodup_append'.mp nodupPlaces
  have notSeen : place ∉ seen := fun member =>
    disjoint (List.mem_map_of_mem member) List.mem_cons_self
  have notAhead : place ∉ ahead := fun member =>
    (List.nodup_cons.mp nodupLater).1 (List.mem_map_of_mem member)
  obtain ⟨front, -, back⟩ :=
    (List.append_cons_inj_of_notMem notSeen notAhead).mp (split.symm.trans cut)
  exact ⟨front, back⟩

/-- Of a list without new nodes, the nodes that are left after a replacement. -/
theorem filter_replace {todo : List NodeId} (nodup : forest.ids.Nodup)
    (found : forest.find? id = some (item, children)) (new : ∀ other ∈ more.ids, other ∉ todo) :
    (todo.filter fun other => other ∈ (replace id more forest).ids) =
      (todo.filter fun other => other ∈ forest.ids).filter
        fun other => other ∉ id :: children.ids := by
  rw [List.filter_filter]
  refine List.filter_congr fun other member => ?_
  have notNew : other ∉ more.ids := fun among => new other among member
  have stays : other ∈ (replace id more forest).ids ↔ _ := mem_ids_replace nodup found
  rw [Bool.eq_iff_iff]
  simp only [decide_eq_true_eq, Bool.and_eq_true, stays]
  tauto

/-- How far a loop over the nodes of a class has come: those in `seen` were visited
and left, and `todo` is what is left of the list, of which some may be gone. -/
def Walk (p : Kind → Bool) (above : List Kind) (todo : List NodeId) (seen : List Place)
    (forest : Forest Node) : Prop :=
  ∃ ahead, forest.placesOf p above = seen ++ ahead ∧
    ahead.map Place.id = todo.filter fun id => id ∈ forest.ids

namespace Walk

variable {p : Kind → Bool} {above : List Kind} {todo : List NodeId} {seen : List Place}

theorem start (p : Kind → Bool) (above : List Kind) (forest : Forest Node) :
    Walk p above ((forest.placesOf p above).map Place.id) [] forest := by
  refine ⟨_, (List.nil_append _).symm, ?_⟩
  rw [List.filter_eq_self.mpr]
  intro id member
  obtain ⟨place, among, rfl⟩ := List.mem_map.mp member
  exact decide_eq_true (mem_ids_of_mem_placesOf among)

/-- At the end, all such nodes have been visited. -/
theorem finish (walk : Walk p above [] seen forest) : forest.placesOf p above = seen := by
  obtain ⟨ahead, split, left⟩ := walk
  rw [List.filter_nil, List.map_eq_nil_iff] at left
  rw [split, left, List.append_nil]

/-- A node that is gone is passed over. -/
theorem skip (walk : Walk p above (id :: todo) seen forest) (gone : id ∉ forest.ids) :
    Walk p above todo seen forest := by
  obtain ⟨ahead, split, left⟩ := walk
  refine ⟨ahead, split, ?_⟩
  rw [left, List.filter_cons_of_neg (by simpa using gone)]

/-- A node that is there is the next one to come. -/
theorem next (walk : Walk p above (id :: todo) seen forest) (alive : id ∈ forest.ids) :
    ∃ place ahead, place.id = id ∧ forest.placesOf p above = seen ++ place :: ahead ∧
      ahead.map Place.id = todo.filter fun id => id ∈ forest.ids := by
  obtain ⟨ahead, split, left⟩ := walk
  rw [List.filter_cons_of_pos (by simpa using alive)] at left
  obtain ⟨place, rest, rfl, same, later⟩ := List.map_eq_cons_iff.mp left
  exact ⟨place, rest, same, split, later⟩

/-- A node is visited and left. -/
theorem leave (walk : Walk p above (id :: todo) seen forest) (nodup : forest.ids.Nodup)
    (member : place ∈ forest.places above) (same : place.id = id) :
    Walk p above todo (seen ++ [place]) forest := by
  obtain ⟨other, ahead, otherId, split, left⟩ := walk.next (same ▸ mem_ids_of_mem_places member)
  have among : other ∈ forest.places above := by
    refine mem_places_of_mem_placesOf (p := p) ?_
    rw [split]
    exact List.mem_append_right _ List.mem_cons_self
  obtain rfl := eq_of_mem_places nodup among member (otherId.trans same.symm)
  exact ⟨ahead, by rw [split, List.append_assoc, List.singleton_append], left⟩

/-- Trees without such nodes take the place of a node that is visited. -/
theorem replace (walk : Walk p above (id :: todo) seen forest) (nodup : forest.ids.Nodup)
    (found : forest.find? id = some (item, children))
    (none_ : ∀ path, more.placesOf p path = [])
    (new : ∀ other ∈ more.ids, other ∉ todo) :
    Walk p above todo seen (Forest.replace id more forest) := by
  obtain ⟨place, ahead, rfl, split, left⟩ := walk.next (mem_ids_of_find? found)
  obtain ⟨before, path, after, old, changed⟩ := places_replace nodup found above
  have own : place = Place.ofNode path ⟨place.id, item⟩ := by
    have placeIn : place ∈ forest.placesOf p above := by
      rw [split]
      exact List.mem_append_right _ List.mem_cons_self
    refine eq_of_mem_places nodup (List.mem_of_mem_filter placeIn) ?_ rfl
    rw [old]
    simp
  rw [← own, List.append_assoc, List.cons_append] at old
  obtain ⟨rfl, rfl⟩ := cut_placesOf nodup old split
  refine ⟨after.filter fun place => p place.kind, ?_, ?_⟩
  · have nothing : (more.places path).filter (fun place => p place.kind) = [] := none_ path
    rw [placesOf, changed, List.filter_append, List.filter_append, nothing, List.append_nil]
  · -- What is left of the list is what was left of it, less the nodes that are gone.
    rw [filter_replace nodup found new, ← left, List.filter_append, List.map_append,
      List.filter_append]
    have ids : forest.ids = before.map Place.id ++ (place.id :: children.ids ++
        after.map Place.id) := by
      rw [← map_id_places above, old]
      simp
    rw [ids] at nodup
    have apart := (List.nodup_append'.mp (List.nodup_append'.mp nodup).2.1).2.2
    have gone : (((children.places (item.kind :: path)).filter fun place => p place.kind).map
        Place.id).filter (fun other => other ∉ place.id :: children.ids) = [] := by
      rw [List.filter_eq_nil_iff]
      intro other member
      obtain ⟨inner, among, rfl⟩ := List.mem_map.mp member
      have := mem_ids_of_mem_places (List.mem_of_mem_filter among)
      simp [this]
    have stay : ((after.filter fun place => p place.kind).map Place.id).filter
        (fun other => other ∉ place.id :: children.ids) =
          (after.filter fun place => p place.kind).map Place.id := by
      rw [List.filter_eq_self]
      intro other member
      obtain ⟨later, among, rfl⟩ := List.mem_map.mp member
      have inAfter := List.mem_map_of_mem (f := Place.id) (List.mem_of_mem_filter among)
      exact decide_eq_true fun both => apart both inAfter
    rw [gone, stay, List.nil_append]

end Walk

end Forest

end ApplyRule
