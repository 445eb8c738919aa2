/-
# ApplyRule.Proofs.Registry -- names and the rules they are registered with

`put_cases` is what putting a value under a name does to the entries.  Where no
name stands twice, a look-up finds an entry if and only if it is there
(`find?_eq_some_iff`), in whatever order the entries stand (`find?_perm`).
-/
import ApplyRule.Pass
import Mathlib.Data.List.Nodup

namespace ApplyRule

set_option autoImplicit false

namespace NameMap

variable {β : Type} {name : String} {value : β} {entries order : List (String × β)}

/-- A name that is there takes the new value in its place, and another comes
last. -/
theorem put_cases (name : String) (value : β) (entries : List (String × β)) :
    (find? name entries = none ∧ name ∉ entries.map Prod.fst ∧
      put name value entries = entries ++ [(name, value)]) ∨
    ∃ before old after, entries = before ++ (name, old) :: after ∧
      find? name entries = some old ∧
      put name value entries = before ++ (name, value) :: after := by
  induction entries with
  | nil => exact .inl ⟨rfl, List.not_mem_nil, rfl⟩
  | cons entry rest ih =>
      obtain ⟨own, old⟩ := entry
      by_cases same : own = name
      · subst same
        exact .inr ⟨[], old, rest, rfl, by simp [find?], by simp [put]⟩
      · rcases ih with ⟨none_, absent, last⟩ | ⟨before, prior, after, split, found, placed⟩
        · refine .inl ⟨by simp [find?, same, none_], ?_, by simp [put, same, last]⟩
          rw [List.map_cons, List.mem_cons, not_or]
          exact ⟨fun eq => same eq.symm, absent⟩
        · exact .inr ⟨(own, old) :: before, prior, after, by rw [split, List.cons_append],
            by simp [find?, same, found], by simp [put, same, placed]⟩

theorem mem_of_find? (found : find? name entries = some value) : (name, value) ∈ entries := by
  rcases put_cases name value entries with ⟨none_, -⟩ | ⟨before, old, after, split, same, -⟩
  · rw [none_] at found
    cases found
  · rw [same] at found
    cases found
    rw [split]
    exact List.mem_append_right _ List.mem_cons_self

theorem find?_eq_some_iff (nodup : (entries.map Prod.fst).Nodup) :
    find? name entries = some value ↔ (name, value) ∈ entries := by
  refine ⟨mem_of_find?, fun member => ?_⟩
  rcases put_cases name value entries with ⟨-, absent, -⟩ | ⟨before, old, after, split, found, -⟩
  · exact absurd (List.mem_map_of_mem member) absent
  · rw [found]
    exact congrArg (fun entry => some entry.2)
      (List.inj_on_of_nodup_map nodup (mem_of_find? found) member rfl)

theorem find?_perm (nodup : (entries.map Prod.fst).Nodup) (perm : order.Perm entries)
    (name : String) : find? name order = find? name entries := by
  have orderNodup : (order.map Prod.fst).Nodup := (perm.map Prod.fst).nodup_iff.mpr nodup
  refine Option.ext fun value => ?_
  rw [find?_eq_some_iff orderNodup, find?_eq_some_iff nodup]
  exact perm.mem_iff

end NameMap

namespace Registry

variable {registry : Registry} {name : String} {set : NodeId}

/-- The identities of the registered rules, in order. -/
def ids (registry : Registry) : List NodeId :=
  registry.entries.map Prod.snd

theorem mem_ids_of_lookup? (known : registry.lookup? name = some set) : set ∈ registry.ids :=
  List.mem_map.mpr ⟨(name, set), NameMap.mem_of_find? known, rfl⟩

theorem mem_names_of_lookup? (known : registry.lookup? name = some set) : name ∈ registry.names :=
  List.mem_map.mpr ⟨(name, set), NameMap.mem_of_find? known, rfl⟩

theorem lookup?_of_mem_names (member : name ∈ registry.names) :
    ∃ set, registry.lookup? name = some set := by
  rcases NameMap.put_cases name NodeId.null registry.entries with ⟨-, absent, -⟩ |
    ⟨_, old, _, _, found, -⟩
  · exact absurd member absent
  · exact ⟨old, found⟩

theorem nodup_names_insert (nodup : registry.names.Nodup) (name : String) (set : NodeId) :
    (registry.insert name set).names.Nodup := by
  rw [NameMap.names_insert]
  split
  · exact nodup
  · rename_i absent
    exact List.nodup_append'.mpr ⟨nodup, List.nodup_singleton name, by simpa using absent⟩

end Registry

end ApplyRule
