/-
# ApplyRule.Forest -- ordered trees

A forest is empty, or it is a first tree, given by its label and the forest of
its children, followed by the trees after it.  Every walk over trees is then one
structural recursion, and every statement about them one induction.

`labels` lists all labels in document order: each label directly before those
below it.
-/

namespace ApplyRule

set_option autoImplicit false

/-- An ordered list of trees with labels in `α`. -/
inductive Forest (α : Type) where
  | nil
  | cons (label : α) (children rest : Forest α)
  deriving DecidableEq

namespace Forest

variable {α β : Type}

/-- The forest of one tree. -/
def tree (label : α) (children : Forest α) : Forest α :=
  .cons label children .nil

/-- The trees of one forest, then those of another. -/
def append : Forest α → Forest α → Forest α
  | .nil, more => more
  | .cons label children rest, more => .cons label children (append rest more)

instance : Append (Forest α) := ⟨append⟩

instance : EmptyCollection (Forest α) := ⟨.nil⟩

/-- The same trees with other labels. -/
def map (f : α → β) : Forest α → Forest β
  | .nil => .nil
  | .cons label children rest => .cons (f label) (map f children) (map f rest)

/-- All labels, in document order. -/
def labels : Forest α → List α
  | .nil => []
  | .cons label children rest => label :: (labels children ++ labels rest)

/-- The labels of the trees themselves. -/
def roots : Forest α → List α
  | .nil => []
  | .cons label _ rest => label :: roots rest

/-- The trees, each a label with its children. -/
def trees : Forest α → List (α × Forest α)
  | .nil => []
  | .cons label children rest => (label, children) :: trees rest

/-- How many labels there are. -/
def size : Forest α → Nat
  | .nil => 0
  | .cons _ children rest => size children + size rest + 1

@[simp] theorem nil_append (forest : Forest α) : (.nil : Forest α) ++ forest = forest := rfl

@[simp] theorem cons_append (label : α) (children rest more : Forest α) :
    Forest.cons label children rest ++ more = .cons label children (rest ++ more) := rfl

@[simp] theorem append_nil (forest : Forest α) : forest ++ (.nil : Forest α) = forest := by
  induction forest with
  | nil => rfl
  | cons label children rest _ ih => rw [cons_append, ih]

theorem append_assoc (first second third : Forest α) :
    first ++ second ++ third = first ++ (second ++ third) := by
  induction first with
  | nil => rfl
  | cons label children rest _ ih => simp [ih]

@[simp] theorem labels_append (first second : Forest α) :
    (first ++ second).labels = first.labels ++ second.labels := by
  induction first with
  | nil => rfl
  | cons label children rest _ ih => simp [labels, ih]

@[simp] theorem roots_append (first second : Forest α) :
    (first ++ second).roots = first.roots ++ second.roots := by
  induction first with
  | nil => rfl
  | cons label children rest _ ih => simp [roots, ih]

@[simp] theorem labels_map (f : α → β) (forest : Forest α) :
    (forest.map f).labels = forest.labels.map f := by
  induction forest with
  | nil => rfl
  | cons label children rest ihc ihr => simp [map, labels, ihc, ihr]

theorem length_labels (forest : Forest α) : forest.labels.length = forest.size := by
  induction forest with
  | nil => rfl
  | cons label children rest ihc ihr => simp [labels, size, ihc, ihr]

end Forest

end ApplyRule
