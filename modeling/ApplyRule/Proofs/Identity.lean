/-
# ApplyRule.Proofs.Identity -- nodes and where they stand

Where every identity stands once, it names one node.  `Forest.ids` lists the
identities of a forest and `Forest.tops` those of the trees themselves.

* `find?_eq_find?` -- what is found below a node is what the forest below that
  node finds.
* `find?_of_mem_trees`, `exists_tree`, `disjoint_trees` -- every node is in one tree.
* `held_of_lineage?`, `lineage?_of_child` -- the path upwards from a node and the
  children of the nodes on it say the same.
-/
import ApplyRule.Document
import Mathlib.Data.List.Nodup

namespace ApplyRule

set_option autoImplicit false

namespace Forest

/-- The identities of all nodes, in document order. -/
def ids (forest : Forest Node) : List NodeId :=
  forest.labels.map Node.id

/-- The identities of the trees themselves. -/
def tops (forest : Forest Node) : List NodeId :=
  forest.roots.map Node.id

variable {forest children : Forest Node} {id : NodeId} {item : Item}

@[simp] theorem ids_nil : (.nil : Forest Node).ids = [] := rfl

@[simp] theorem ids_cons (node : Node) (children rest : Forest Node) :
    (Forest.cons node children rest).ids = node.id :: (children.ids ++ rest.ids) := by
  simp [ids, labels]

@[simp] theorem ids_append (first second : Forest Node) :
    (first ++ second).ids = first.ids ++ second.ids := by
  simp [ids]

@[simp] theorem tops_nil : (.nil : Forest Node).tops = [] := rfl

@[simp] theorem tops_cons (node : Node) (children rest : Forest Node) :
    (Forest.cons node children rest).tops = node.id :: rest.tops := rfl

@[simp] theorem tops_append (first second : Forest Node) :
    (first ++ second).tops = first.tops ++ second.tops := by
  simp [tops]

theorem roots_sublist {α : Type} (forest : Forest α) : forest.roots.Sublist forest.labels := by
  induction forest with
  | nil => exact .slnil
  | cons node children rest _ ih =>
      exact (ih.trans (List.sublist_append_right _ _)).cons_cons node

theorem tops_sublist (forest : Forest Node) : forest.tops.Sublist forest.ids :=
  forest.roots_sublist.map Node.id

theorem mem_ids_of_mem_tops (top : id ∈ forest.tops) : id ∈ forest.ids :=
  forest.tops_sublist.subset top

/-! ## Finding a node -/

@[simp] theorem find?_append (id : NodeId) (first second : Forest Node) :
    (first ++ second).find? id = (first.find? id).or (second.find? id) := by
  induction first with
  | nil => rfl
  | cons node children rest _ ih =>
      simp only [cons_append, find?]
      split
      · rfl
      · rw [ih, Option.or_assoc]

theorem find?_eq_none : forest.find? id = none ↔ id ∉ forest.ids := by
  induction forest with
  | nil => simp [find?]
  | cons node children rest ihc ihr =>
      by_cases here : node.id = id
      · simp [find?, here]
      · have other : id ≠ node.id := fun eq => here eq.symm
        simp [find?, here, other, ihc, ihr]

theorem find?_of_not_mem (absent : id ∉ forest.ids) : forest.find? id = none :=
  find?_eq_none.mpr absent

theorem exists_find? (member : id ∈ forest.ids) :
    ∃ item children, forest.find? id = some (item, children) := by
  cases found : forest.find? id with
  | none => exact absurd member (find?_eq_none.mp found)
  | some pair => exact ⟨pair.1, pair.2, rfl⟩

theorem mem_ids_of_find? {pair : Item × Forest Node} (found : forest.find? id = some pair) :
    id ∈ forest.ids := by
  by_contra absent
  rw [find?_of_not_mem absent] at found
  cases found

/-- A node stands directly before those below it. -/
theorem labels_of_find? (found : forest.find? id = some (item, children)) :
    ∃ before after, forest.labels = before ++ ⟨id, item⟩ :: children.labels ++ after := by
  induction forest with
  | nil => cases found
  | cons node inner rest ihc ihr =>
      rw [find?] at found
      split at found
      · rename_i here
        cases found
        refine ⟨[], rest.labels, ?_⟩
        simp [labels, ← here]
      · rcases Option.or_eq_some_iff.mp found with inside | ⟨-, outside⟩
        · obtain ⟨before, after, eq⟩ := ihc inside
          exact ⟨node :: before, after ++ rest.labels, by simp [labels, eq]⟩
        · obtain ⟨before, after, eq⟩ := ihr outside
          exact ⟨node :: (inner.labels ++ before), after, by simp [labels, eq]⟩

theorem labels_sublist_of_find? (found : forest.find? id = some (item, children)) :
    (⟨id, item⟩ :: children.labels).Sublist forest.labels := by
  obtain ⟨before, after, eq⟩ := labels_of_find? found
  rw [eq]
  exact (List.sublist_append_right _ _).trans (List.sublist_append_left _ _)

theorem ids_sublist_of_find? (found : forest.find? id = some (item, children)) :
    (id :: children.ids).Sublist forest.ids :=
  (labels_sublist_of_find? found).map Node.id

theorem mem_ids_below (found : forest.find? id = some (item, children)) {inner : NodeId}
    (member : inner ∈ children.ids) : inner ∈ forest.ids :=
  (ids_sublist_of_find? found).subset (.tail _ member)

theorem nodup_below (nodup : forest.ids.Nodup) (found : forest.find? id = some (item, children)) :
    id ∉ children.ids ∧ children.ids.Nodup :=
  List.nodup_cons.mp ((ids_sublist_of_find? found).nodup nodup)

theorem nodup_parts {node : Node} {rest : Forest Node}
    (nodup : (Forest.cons node children rest).ids.Nodup) :
    (node.id ∉ children.ids ∧ node.id ∉ rest.ids) ∧ children.ids.Nodup ∧ rest.ids.Nodup ∧
      children.ids.Disjoint rest.ids := by
  rw [ids_cons, List.nodup_cons, List.nodup_append', List.mem_append, not_or] at nodup
  exact nodup

@[simp] theorem find?_cons_self (node : Node) (below rest : Forest Node) :
    (Forest.cons node below rest).find? node.id = some (node.item, below) := by
  rw [find?, if_pos rfl]

theorem find?_cons_below {node : Node} {below rest : Forest Node}
    (nodup : (Forest.cons node below rest).ids.Nodup) (member : id ∈ below.ids) :
    (Forest.cons node below rest).find? id = below.find? id := by
  obtain ⟨⟨notBelow, -⟩, -, -, -⟩ := nodup_parts nodup
  have other : node.id ≠ id := fun eq => notBelow (eq ▸ member)
  obtain ⟨_, _, some_⟩ := exists_find? member
  rw [find?, if_neg other, some_, Option.some_or]

theorem find?_cons_rest {node : Node} {below rest : Forest Node}
    (nodup : (Forest.cons node below rest).ids.Nodup) (member : id ∈ rest.ids) :
    (Forest.cons node below rest).find? id = rest.find? id := by
  obtain ⟨⟨-, notRest⟩, -, -, disjoint⟩ := nodup_parts nodup
  have other : node.id ≠ id := fun eq => notRest (eq ▸ member)
  have absent : id ∉ below.ids := fun both => disjoint both member
  rw [find?, if_neg other, find?_of_not_mem absent, Option.none_or]

/-- What is found below a node is what the forest below that node finds. -/
theorem find?_eq_find? (nodup : forest.ids.Nodup)
    (found : forest.find? id = some (item, children)) {inner : NodeId}
    (member : inner ∈ children.ids) : forest.find? inner = children.find? inner := by
  induction forest with
  | nil => cases found
  | cons node below rest ihc ihr =>
      obtain ⟨-, nodupBelow, nodupRest, -⟩ := nodup_parts nodup
      rw [find?] at found
      split at found
      · cases found
        exact find?_cons_below nodup member
      · rcases Option.or_eq_some_iff.mp found with inside | ⟨-, outside⟩
        · rw [find?_cons_below nodup (mem_ids_below inside member)]
          exact ihc nodupBelow inside
        · rw [find?_cons_rest nodup (mem_ids_below outside member)]
          exact ihr nodupRest outside

/-! ## The trees of a forest -/

theorem tops_eq_map_trees (forest : Forest Node) :
    forest.tops = forest.trees.map fun tree => tree.1.id := by
  induction forest with
  | nil => rfl
  | cons node children rest _ ih => simp [trees, ih]

theorem find?_of_mem_trees (nodup : forest.ids.Nodup) {node : Node}
    (tree : (node, children) ∈ forest.trees) :
    forest.find? node.id = some (node.item, children) := by
  induction forest with
  | nil => cases tree
  | cons first below rest _ ih =>
      obtain ⟨-, -, nodupRest, -⟩ := nodup_parts nodup
      rcases List.mem_cons.mp tree with here | later
      · cases here
        exact find?_cons_self node children rest
      · have found := ih nodupRest later
        rw [find?_cons_rest nodup (mem_ids_of_find? found)]
        exact found

/-- Every node is in the tree of some top. -/
theorem exists_tree (nodup : forest.ids.Nodup) (member : id ∈ forest.ids) :
    ∃ top item children, top ∈ forest.tops ∧ forest.find? top = some (item, children) ∧
      (id = top ∨ id ∈ children.ids) := by
  have inTree : ∃ tree ∈ forest.trees, id = tree.1.id ∨ id ∈ tree.2.ids := by
    clear nodup
    induction forest with
    | nil => cases member
    | cons node below rest _ ih =>
        rcases List.mem_cons.mp (ids_cons .. ▸ member) with here | there
        · exact ⟨(node, below), List.mem_cons_self, .inl here⟩
        · rcases List.mem_append.mp there with inside | outside
          · exact ⟨(node, below), List.mem_cons_self, .inr inside⟩
          · obtain ⟨tree, later, holds⟩ := ih outside
            exact ⟨tree, List.mem_cons_of_mem _ later, holds⟩
  obtain ⟨⟨node, children⟩, tree, holds⟩ := inTree
  refine ⟨node.id, node.item, children, ?_, find?_of_mem_trees nodup tree, holds⟩
  rw [tops_eq_map_trees]
  exact List.mem_map_of_mem tree

/-- The trees of different tops have no node in common. -/
theorem disjoint_trees (nodup : forest.ids.Nodup) {first second : NodeId}
    (firstTop : first ∈ forest.tops) (secondTop : second ∈ forest.tops) (ne : first ≠ second)
    {item₁ item₂ : Item} {children₁ children₂ : Forest Node}
    (found₁ : forest.find? first = some (item₁, children₁))
    (found₂ : forest.find? second = some (item₂, children₂)) :
    (first :: children₁.ids).Disjoint (second :: children₂.ids) := by
  induction forest with
  | nil => cases found₁
  | cons node below rest _ ih =>
      obtain ⟨⟨-, notRest⟩, -, nodupRest, disjoint⟩ := nodup_parts nodup
      -- The first tree and a later one: the later one is within `rest`.
      have apart : ∀ {top : NodeId} {item : Item} {children : Forest Node}, top ∈ rest.tops →
          (Forest.cons node below rest).find? top = some (item, children) →
            rest.find? top = some (item, children) ∧
              (node.id :: below.ids).Disjoint (top :: children.ids) := by
        intro top item children later found
        rw [find?_cons_rest nodup (mem_ids_of_mem_tops later)] at found
        refine ⟨found, ?_⟩
        have within := (ids_sublist_of_find? found).subset
        exact List.disjoint_cons_left.mpr
          ⟨fun both => notRest (within both), fun _ inside both => disjoint inside (within both)⟩
      have here : ∀ {item : Item} {children : Forest Node},
          (Forest.cons node below rest).find? node.id = some (item, children) →
            children = below := by
        intro item children found
        rw [find?_cons_self] at found
        cases found
        rfl
      rcases List.mem_cons.mp firstTop with rfl | later₁ <;>
        rcases List.mem_cons.mp secondTop with rfl | later₂
      · exact absurd rfl ne
      · rw [here found₁]
        exact (apart later₂ found₂).2
      · rw [here found₂]
        exact List.disjoint_symm (apart later₁ found₁).2
      · exact ih nodupRest later₁ later₂ (apart later₁ found₁).1 (apart later₂ found₂).1

/-! ## The path upwards -/

theorem lineage?_of_not_mem (absent : id ∉ forest.ids) (above : List Node) :
    forest.lineage? id above = none := by
  induction forest generalizing above with
  | nil => rfl
  | cons node children rest ihc ihr =>
      simp only [ids_cons, List.mem_cons, List.mem_append, not_or] at absent
      rw [lineage?, if_neg (fun eq => absent.1 eq.symm), ihc absent.2.1, ihr absent.2.2]
      rfl

theorem exists_lineage? (member : id ∈ forest.ids) (above : List Node) :
    ∃ path, forest.lineage? id above = some path := by
  induction forest generalizing above with
  | nil => cases member
  | cons node children rest ihc ihr =>
      rw [lineage?]
      split
      · exact ⟨above, rfl⟩
      · rename_i other
        rcases List.mem_append.mp ((List.mem_cons.mp (ids_cons .. ▸ member)).resolve_left
          fun eq => other eq.symm) with inside | outside
        · obtain ⟨path, eq⟩ := ihc inside (node :: above)
          exact ⟨path, by rw [eq, Option.some_or]⟩
        · cases inner : children.lineage? id (node :: above) with
          | some path => exact ⟨path, rfl⟩
          | none =>
              obtain ⟨path, eq⟩ := ihr outside above
              exact ⟨path, by rw [eq, Option.none_or]⟩

theorem lineage?_of_mem_tops (nodup : forest.ids.Nodup) (top : id ∈ forest.tops)
    (above : List Node) : forest.lineage? id above = some above := by
  induction forest with
  | nil => cases top
  | cons node children rest _ ih =>
      obtain ⟨-, -, nodupRest, disjoint⟩ := nodup_parts nodup
      rw [lineage?]
      split
      · rfl
      · rename_i other
        have later : id ∈ rest.tops := (List.mem_cons.mp top).resolve_left fun eq => other eq.symm
        rw [lineage?_of_not_mem (fun both => disjoint both (mem_ids_of_mem_tops later)),
          Option.none_or]
        exact ih nodupRest later

/-- Every node on the path upwards, as far as it is within the forest, holds the
node, and the nearest is its parent. -/
theorem held_of_lineage? (nodup : forest.ids.Nodup) {above path : List Node}
    (lineage : forest.lineage? id above = some path) :
    ∃ within, path = within ++ above ∧
      (∀ node ∈ within, ∃ children, forest.find? node.id = some (node.item, children) ∧
        id ∈ children.ids) ∧
      (within = [] → id ∈ forest.tops) ∧
      (∀ node, within.head? = some node → ∃ children,
        forest.find? node.id = some (node.item, children) ∧ id ∈ children.tops) := by
  induction forest generalizing above path with
  | nil => cases lineage
  | cons node below rest ihc ihr =>
      obtain ⟨-, nodupBelow, nodupRest, -⟩ := nodup_parts nodup
      rw [lineage?] at lineage
      split at lineage
      · rename_i here
        cases lineage
        exact ⟨[], rfl, by simp, fun _ => by simp [here], by simp⟩
      · rcases Option.or_eq_some_iff.mp lineage with inside | ⟨-, outside⟩
        · obtain ⟨within, eq, held, first, parent⟩ := ihc nodupBelow inside
          have lift : ∀ {other : NodeId} {pair : Item × Forest Node},
              below.find? other = some pair →
                (Forest.cons node below rest).find? other = some pair :=
            fun found => (find?_cons_below nodup (mem_ids_of_find? found)).trans found
          have member : id ∈ below.ids := by
            by_contra absent
            rw [lineage?_of_not_mem absent] at inside
            cases inside
          refine ⟨within ++ [node], by simp [eq], ?_, by simp, ?_⟩
          · intro upper mem
            rcases List.mem_append.mp mem with upperIn | last
            · obtain ⟨children, found, holds⟩ := held upper upperIn
              exact ⟨children, lift found, holds⟩
            · cases List.mem_singleton.mp last
              exact ⟨below, find?_cons_self .., member⟩
          · intro upper head
            cases within with
            | nil =>
                simp only [List.nil_append, List.head?_cons, Option.some.injEq] at head
                subst head
                exact ⟨below, find?_cons_self .., first rfl⟩
            | cons nearest _ =>
                obtain ⟨children, found, child⟩ := parent upper (by simpa using head)
                exact ⟨children, lift found, child⟩
        · obtain ⟨within, eq, held, first, parent⟩ := ihr nodupRest outside
          have lift : ∀ {other : NodeId} {pair : Item × Forest Node},
              rest.find? other = some pair →
                (Forest.cons node below rest).find? other = some pair :=
            fun found => (find?_cons_rest nodup (mem_ids_of_find? found)).trans found
          refine ⟨within, eq, ?_, fun none_ => .tail _ (first none_), ?_⟩
          · intro upper mem
            obtain ⟨children, found, holds⟩ := held upper mem
            exact ⟨children, lift found, holds⟩
          · intro upper head
            obtain ⟨children, found, child⟩ := parent upper head
            exact ⟨children, lift found, child⟩

/-- The node above a child is its parent. -/
theorem lineage?_of_child (nodup : forest.ids.Nodup) {parent : NodeId}
    (found : forest.find? parent = some (item, children)) (child : id ∈ children.tops)
    (above : List Node) : ∃ path, forest.lineage? id above = some (⟨parent, item⟩ :: path) := by
  have member := mem_ids_of_mem_tops child
  induction forest generalizing above with
  | nil => cases found
  | cons node below rest ihc ihr =>
      obtain ⟨⟨notBelow, notRest⟩, nodupBelow, nodupRest, disjoint⟩ := nodup_parts nodup
      rw [find?] at found
      split at found
      · rename_i here
        cases found
        have other : node.id ≠ id := fun eq => notBelow (eq ▸ member)
        refine ⟨above, ?_⟩
        rw [lineage?, if_neg other, lineage?_of_mem_tops nodupBelow child, Option.some_or, ← here]
      · rcases Option.or_eq_some_iff.mp found with inside | ⟨-, outside⟩
        · have other : node.id ≠ id := fun eq => notBelow (eq ▸ mem_ids_below inside member)
          obtain ⟨path, eq⟩ := ihc nodupBelow inside (node :: above)
          exact ⟨path, by rw [lineage?, if_neg other, eq, Option.some_or]⟩
        · have within := mem_ids_below outside member
          have other : node.id ≠ id := fun eq => notRest (eq ▸ within)
          obtain ⟨path, eq⟩ := ihr nodupRest outside above
          refine ⟨path, ?_⟩
          rw [lineage?, if_neg other, lineage?_of_not_mem (fun both => disjoint both within),
            Option.none_or]
          exact eq

/-- The path upwards from a node inside a tree begins below that tree's top. -/
theorem lineage?_within (nodup : forest.ids.Nodup) {top : NodeId}
    (found : forest.find? top = some (item, children)) {above path : List Node}
    (lineage : forest.lineage? top above = some path) (member : id ∈ children.ids) :
    forest.lineage? id above = children.lineage? id (⟨top, item⟩ :: path) := by
  induction forest generalizing above with
  | nil => cases found
  | cons node below rest ihc ihr =>
      obtain ⟨⟨notBelow, notRest⟩, nodupBelow, nodupRest, disjoint⟩ := nodup_parts nodup
      rw [find?] at found
      rw [lineage?] at lineage
      split at found
      · rename_i here
        cases found
        rw [if_pos here] at lineage
        cases lineage
        have other : node.id ≠ id := fun eq => notBelow (eq ▸ member)
        obtain ⟨within, eq⟩ := exists_lineage? member (node :: path)
        rw [lineage?, if_neg other, eq, Option.some_or, ← here, ← eq]
      · rename_i notHere
        rw [if_neg notHere] at lineage
        rcases Option.or_eq_some_iff.mp found with inside | ⟨-, outside⟩
        · have within := mem_ids_below inside member
          have other : node.id ≠ id := fun eq => notBelow (eq ▸ within)
          rw [lineage?_of_not_mem (disjoint (mem_ids_of_find? inside)), Option.or_none] at lineage
          rw [lineage?, if_neg other, lineage?_of_not_mem (disjoint within), Option.or_none]
          exact ihc nodupBelow inside lineage
        · have within := mem_ids_below outside member
          have other : node.id ≠ id := fun eq => notRest (eq ▸ within)
          rw [lineage?_of_not_mem (fun both => disjoint both (mem_ids_of_find? outside)),
            Option.none_or] at lineage
          rw [lineage?, if_neg other, lineage?_of_not_mem (fun both => disjoint both within),
            Option.none_or]
          exact ihr nodupRest outside lineage

end Forest

end ApplyRule
