/-
# ApplyRule.NameMap -- values by name, in order

The entries stand in the order in which their names came first.  A name that
comes again keeps its place and takes the new value.

`lookup?_insert` and `names_insert` say what `insert` does to each name's value
and to the order of names.
-/

namespace ApplyRule

set_option autoImplicit false

/-- Values by name, in the order in which the names came first. -/
structure NameMap (β : Type) where
  entries : List (String × β)

namespace NameMap

variable {β : Type}

def empty : NameMap β := ⟨[]⟩

/-- The value of a name among entries. -/
def find? (name : String) : List (String × β) → Option β
  | [] => none
  | (own, value) :: rest => if own = name then some value else find? name rest

/-- Entries with a value for a name. -/
def put (name : String) (value : β) : List (String × β) → List (String × β)
  | [] => [(name, value)]
  | (own, old) :: rest =>
      if own = name then (own, value) :: rest else (own, old) :: put name value rest

def lookup? (map : NameMap β) (name : String) : Option β :=
  find? name map.entries

def contains (map : NameMap β) (name : String) : Bool :=
  (map.lookup? name).isSome

def insert (map : NameMap β) (name : String) (value : β) : NameMap β :=
  ⟨put name value map.entries⟩

def names (map : NameMap β) : List String :=
  map.entries.map Prod.fst

def size (map : NameMap β) : Nat :=
  map.entries.length

def isEmpty (map : NameMap β) : Bool :=
  map.entries.isEmpty

/-- The map of entries that come one after the other. -/
def ofList (entries : List (String × β)) : NameMap β :=
  entries.foldl (fun map (name, value) => map.insert name value) empty

theorem find?_put (name other : String) (value : β) (entries : List (String × β)) :
    find? other (put name value entries) =
      if name = other then some value else find? other entries := by
  induction entries with
  | nil => simp [put, find?]
  | cons entry rest ih =>
      obtain ⟨own, old⟩ := entry
      by_cases same : own = name
      · subst same
        simp only [put, if_pos, find?]
        split <;> rfl
      · simp only [put, if_neg same, find?, ih]
        split
        · rename_i eq
          rw [if_neg (fun h => same (eq.trans h.symm))]
        · rfl

theorem lookup?_insert (map : NameMap β) (name other : String) (value : β) :
    (map.insert name value).lookup? other =
      if name = other then some value else map.lookup? other :=
  find?_put name other value map.entries

theorem map_fst_put (name : String) (value : β) (entries : List (String × β)) :
    (put name value entries).map Prod.fst =
      if name ∈ entries.map Prod.fst then entries.map Prod.fst
      else entries.map Prod.fst ++ [name] := by
  induction entries with
  | nil => simp [put]
  | cons entry rest ih =>
      obtain ⟨own, old⟩ := entry
      by_cases same : own = name
      · simp [put, same]
      · have other : name ≠ own := fun h => same h.symm
        simp only [put, if_neg same, List.map_cons, ih, List.mem_cons, other, false_or]
        split <;> simp

theorem names_insert (map : NameMap β) (name : String) (value : β) :
    (map.insert name value).names =
      if name ∈ map.names then map.names else map.names ++ [name] :=
  map_fst_put name value map.entries

end NameMap

end ApplyRule
