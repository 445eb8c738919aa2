/-
# ApplyRule.Proofs.ReferenceName -- what the parameters of a reference can be

A set is named by two hyphens and its name, after which white space and one colon may
stand (`SetName.read?_eq_some_iff`).  A reference names it so, or in round brackets with
white space inside them, and with white space around the whole.  These parameters name a
set and no others do (`referenceName?_eq_some_iff`).

In brackets there stand only inert characters, so that the bracket at the end is the one
that closes the block (`split?_inert`).  The other way round, the block is the one that the
bracket at the front opens (`Split.Around.at_front`), and as the parameters are trimmed,
nothing can follow it.
-/
import ApplyRule.Proofs.Brought
import ApplyRule.Proofs.InertText
import ApplyRule.Proofs.SetStatement

namespace ApplyRule

set_option autoImplicit false

open Text Scan

/-! ## Trimmed text -/

section Trim

variable {lead core trail text : List Char}

/-- Text of nothing but white space. -/
def Text.Space (text : List Char) : Prop :=
  ∀ c ∈ text, isSpace c = true

/-- Text that is trimmed: no white space stands at its ends. -/
structure Text.Solid (text : List Char) : Prop where
  first : ∀ c ∈ text.head?, isSpace c = false
  last : ∀ c ∈ text.getLast?, isSpace c = false

theorem getLast?_dropEnd {α : Type} (p : α → Bool) (list : List α) :
    ∀ a ∈ (dropEnd p list).getLast?, p a = false := by
  induction list with
  | nil => simp [dropEnd]
  | cons a rest ih =>
      rw [dropEnd]
      split
      · split
        · simp
        · rename_i stays
          rintro _ ⟨⟩
          exact Bool.eq_false_iff.mpr stays
      · rename_i kept some_
        cases dropped : dropEnd p rest with
        | nil => exact absurd dropped some_
        | cons b more =>
            rw [dropped] at ih
            simpa [List.getLast?_cons_cons] using ih

theorem solid_trim (text : List Char) : Solid (trim text) := by
  refine ⟨fun c first => ?_, getLast?_dropEnd isSpace _⟩
  have whole := dropEnd_append_takeEnd isSpace (text.dropWhile isSpace)
  have solid := List.head?_dropWhile_not isSpace text
  cases kept : trim text with
  | nil => simp [kept] at first
  | cons d rest =>
      rw [kept] at first
      cases first
      rw [← whole, show dropEnd isSpace (text.dropWhile isSpace) = c :: rest from kept] at solid
      simpa using solid

theorem exists_trim (text : List Char) :
    ∃ lead trail, Space lead ∧ Space trail ∧ text = lead ++ trim text ++ trail := by
  refine ⟨text.takeWhile isSpace, takeEnd isSpace (text.dropWhile isSpace),
    fun _ => List.mem_takeWhile_imp, fun _ => mem_takeEnd, ?_⟩
  rw [List.append_assoc, trim, trimEnd, dropEnd_append_takeEnd, List.takeWhile_append_dropWhile]

theorem trim_append (before : Space lead) (solid : Solid core) (filled : core ≠ [])
    (behind : Space trail) : trim (lead ++ core ++ trail) = core := by
  obtain ⟨first, last⟩ := solid
  have front : (lead ++ (core ++ trail)).dropWhile isSpace = core ++ trail := by
    rw [List.dropWhile_append_of_pos before]
    cases core with
    | nil => exact absurd rfl filled
    | cons c rest => simp [first c rfl]
  rw [List.append_assoc, trim, front, trimEnd, dropEnd_append behind]
  rcases List.eq_nil_or_concat core with rfl | ⟨body, end_, rfl⟩
  · rfl
  · rw [List.concat_eq_append] at last ⊢
    exact dropEnd_concat (last end_ (by simp))

end Trim

/-! ## The name of a set -/

namespace SetName

/-- A name: characters of names, and one of them at least. -/
structure IsName (name : List Char) : Prop where
  filled : name ≠ []
  all : ∀ c ∈ name, isNameChar c = true

/-- What may stand after a name: white space, and then a colon. -/
def Tail (tail : List Char) : Prop :=
  ∃ gap colon, tail = gap ++ colon ∧ Space gap ∧ (colon = [] ∨ colon = [':'])

variable {name tail text : List Char}

theorem Tail.nil : Tail [] :=
  ⟨[], [], rfl, nofun, .inl rfl⟩

/-- No character of a name stands after the name. -/
theorem Tail.first (ends : Tail tail) : ∀ c ∈ tail.head?, isNameChar c = false := by
  obtain ⟨gap, colon, rfl, spaces, stop⟩ := ends
  cases gap with
  | nil =>
      rcases stop with rfl | rfl
      · nofun
      · rintro _ ⟨⟩
        decide
  | cons d rest =>
      rintro _ ⟨⟩
      by_contra isName
      rw [Bool.not_eq_false] at isName
      exact absurd ((of_isNameChar isName).2.2.2.symm.trans (spaces d List.mem_cons_self)) nofun

theorem Tail.takeWhile (ends : Tail tail) : tail.takeWhile isNameChar = [] := by
  cases tail with
  | nil => rfl
  | cons c rest => exact List.takeWhile_cons_of_neg (by simp [ends.first c rfl])

theorem Tail.dropWhile (ends : Tail tail) : tail.dropWhile isNameChar = tail := by
  cases tail with
  | nil => rfl
  | cons c rest => exact List.dropWhile_cons_of_neg (by simp [ends.first c rfl])

/-- A text names a set just where it is two hyphens, the name, and what may stand after
it. -/
theorem read?_eq_some_iff :
    read? text = some name ↔ IsName name ∧ ∃ tail, Tail tail ∧ text = '-' :: '-' :: (name ++ tail) := by
  constructor
  · intro found
    unfold read? at found
    split at found
    · rename_i rest
      dsimp only at found
      split at found
      · cases found
      · rename_i filled
        split at found
        · rename_i stop
          cases found
          refine ⟨⟨by simpa using filled, fun _ => List.mem_takeWhile_imp⟩,
            rest.dropWhile isNameChar, ⟨_, _, (List.takeWhile_append_dropWhile).symm,
              fun _ => List.mem_takeWhile_imp, stop⟩, ?_⟩
          rw [List.takeWhile_append_dropWhile]
        · cases found
    · cases found
  · rintro ⟨isName, tail, ends, rfl⟩
    have taken : (name ++ tail).takeWhile isNameChar = name := by
      rw [List.takeWhile_append_of_pos isName.all, ends.takeWhile, List.append_nil]
    have left : (name ++ tail).dropWhile isNameChar = tail := by
      rw [List.dropWhile_append_of_pos isName.all, ends.dropWhile]
    have stop : tail.dropWhile isSpace = [] ∨ tail.dropWhile isSpace = [':'] := by
      obtain ⟨gap, colon, rfl, spaces, stop⟩ := ends
      rw [List.dropWhile_append_of_pos spaces]
      rcases stop with rfl | rfl
      · exact .inl rfl
      · exact .inr rfl
    rw [read?, taken, left, if_neg (by simp [isName.filled]), if_pos stop]

/-- What names a set names it in white space too. -/
theorem exists_trim_written {lead trail : List Char} (isName : IsName name) (before : Space lead)
    (ends : Tail tail) (behind : Space trail) : ∃ own, Tail own ∧
      trim (lead ++ '-' :: '-' :: (name ++ tail) ++ trail) = '-' :: '-' :: (name ++ own) := by
  have first : isSpace '-' = false := by decide
  obtain ⟨gap, colon, rfl, spaces, rfl | rfl⟩ := ends
  · refine ⟨[], .nil, ?_⟩
    have last : ∀ c ∈ ('-' :: '-' :: name).getLast?, isSpace c = false := by
      intro c isLast
      rw [List.getLast?_cons_cons, List.getLast?_cons_of_ne_nil isName.filled] at isLast
      exact (of_isNameChar (isName.all c (List.mem_of_getLast? isLast))).2.2.2
    have whole : lead ++ '-' :: '-' :: (name ++ (gap ++ [])) ++ trail =
        lead ++ '-' :: '-' :: name ++ (gap ++ trail) := by simp
    rw [whole, List.append_nil]
    exact trim_append before ⟨by rintro _ ⟨⟩; exact first, last⟩ (by simp)
      (List.forall_mem_append.mpr ⟨spaces, behind⟩)
  · refine ⟨gap ++ [':'], ⟨gap, [':'], rfl, spaces, .inr rfl⟩, ?_⟩
    refine trim_append before ⟨by rintro _ ⟨⟩; exact first, fun c isLast => ?_⟩ (by simp) behind
    rw [show '-' :: '-' :: (name ++ (gap ++ [':'])) = ('-' :: '-' :: (name ++ gap)) ++ [':'] by simp,
      List.getLast?_concat] at isLast
    cases isLast
    decide

/-! ## References -/

/-- A class of characters without brackets and other marks is inert. -/
theorem isInert_of {p : Char → Bool} (none_ : marks.any p = false) {c : Char}
    (holds : p c = true) : isInert c = true := by
  by_contra mark
  rw [isInert, Bool.not_eq_true, Bool.not_eq_false', List.contains_iff_mem] at mark
  exact List.any_eq_false.mp none_ c mark holds

/-- What names a set is inert, and so is white space around it. -/
theorem inert_written {lead trail : List Char} (isName : IsName name) (before : Space lead)
    (ends : Tail tail) (behind : Space trail) :
    Inert (lead ++ '-' :: '-' :: (name ++ tail) ++ trail) := by
  have spaces {text : List Char} (blank : Space text) : Inert text := fun c member =>
    isInert_of (p := isSpace) (by decide) (blank c member)
  have own : Inert name := fun c member =>
    isInert_of (p := isNameChar) (by decide) (isName.all c member)
  have colon : Inert tail := by
    obtain ⟨gap, colon, rfl, blank, rfl | rfl⟩ := ends
    · exact List.forall_mem_append.mpr ⟨spaces blank, nofun⟩
    · exact List.forall_mem_append.mpr ⟨spaces blank, by simp; decide⟩
  refine List.forall_mem_append.mpr ⟨List.forall_mem_append.mpr ⟨spaces before, ?_⟩, spaces behind⟩
  have hyphen : isInert '-' = true := by decide
  exact List.forall_mem_cons.mpr ⟨hyphen, List.forall_mem_cons.mpr ⟨hyphen,
    List.forall_mem_append.mpr ⟨own, colon⟩⟩⟩

/-- The parameters of a reference, once trimmed: what names the set, alone or in round
brackets. -/
inductive Refers (name : List Char) : List Char → Prop where
  | plain {tail : List Char} (ends : Tail tail) : Refers name ('-' :: '-' :: (name ++ tail))
  | enclosed {lead tail trail : List Char} (before : Space lead) (ends : Tail tail)
      (behind : Space trail) :
      Refers name ('(' :: (lead ++ '-' :: '-' :: (name ++ tail) ++ trail ++ [')']))

/-- Nothing follows a block that trimmed text starts with, unless it can be seen. -/
theorem eq_nil_of_solid {front after : List Char} (solid : Solid (front ++ after))
    (blank : Space after) : after = [] := by
  rcases List.eq_nil_or_concat after with rfl | ⟨more, c, rfl⟩
  · rfl
  · rw [List.concat_eq_append] at solid blank
    have seen := solid.last c (by rw [← List.append_assoc, List.getLast?_concat]; rfl)
    exact absurd (seen.symm.trans (blank c (by simp))) nofun

theorem readReference?_eq_some_iff {params : List Char} :
    readReference? params = some name ↔ IsName name ∧ Refers name (trim params) := by
  have solid := solid_trim params
  unfold readReference?
  generalize trim params = text at solid ⊢
  constructor
  · intro found
    split at found
    · rename_i rest
      split at found
      · cases found
      · rename_i split isSplit
        split at found
        · rename_i blank
          obtain ⟨isName, tail, ends, inside⟩ := read?_eq_some_iff.mp found
          obtain ⟨opener, around⟩ := split?_eq_some_iff.mp isSplit
          have whole : '(' :: rest = '(' :: (split.body ++ ')' :: split.after) :=
            around.at_front rfl
          have shut : Solid ('(' :: (split.body ++ [')']) ++ split.after) := by
            rw [whole] at solid
            simpa using solid
          have none_ : split.after = [] := eq_nil_of_solid shut (isSpace_of_trim blank)
          obtain ⟨lead, trail, before, behind, body⟩ := exists_trim split.body
          refine ⟨isName, ?_⟩
          rw [whole, none_, body, inside]
          exact .enclosed before ends behind
        · cases found
    · obtain ⟨isName, tail, ends, rfl⟩ := read?_eq_some_iff.mp found
      exact ⟨isName, .plain ends⟩
  · rintro ⟨isName, refers⟩
    cases refers with
    | plain ends => exact read?_eq_some_iff.mpr ⟨isName, _, ends, rfl⟩
    | @enclosed lead tail trail before ends behind =>
        have isSplit : split? .round ('(' :: (lead ++ '-' :: '-' :: (name ++ tail) ++ trail ++ [')'])) =
            some ⟨[], lead ++ '-' :: '-' :: (name ++ tail) ++ trail, []⟩ :=
          split?_inert .round (inert_written isName before ends behind) []
        obtain ⟨own, ownEnds, trimmed⟩ := exists_trim_written isName before ends behind
        simp only [isSplit, trimmed]
        exact read?_eq_some_iff.mpr ⟨isName, own, ownEnds, rfl⟩

end SetName

theorem setName?_iff {text name : String} : setName? text = some name ↔
    SetName.IsName name.toList ∧
      ∃ tail, SetName.Tail tail ∧ text.toList = '-' :: '-' :: (name.toList ++ tail) := by
  rw [← SetName.read?_eq_some_iff, setName?, Option.map_eq_some_iff]
  constructor
  · rintro ⟨own, found, rfl⟩
    rwa [String.toList_ofList]
  · exact fun found => ⟨_, found, String.ofList_toList⟩

theorem referenceName?_iff {params name : String} : referenceName? params = some name ↔
    SetName.IsName name.toList ∧ SetName.Refers name.toList (trim params.toList) := by
  rw [← SetName.readReference?_eq_some_iff, referenceName?, Option.map_eq_some_iff]
  constructor
  · rintro ⟨own, found, rfl⟩
    rwa [String.toList_ofList]
  · exact fun found => ⟨_, found, String.ofList_toList⟩

/-- **The parameters that name a set.**  A name is one or more ASCII letters, digits,
underscores and hyphens.  Parameters name it just where they are, but for white space
around them, two hyphens and the name, with white space and one colon after it or without;
or that in round brackets, with white space inside them. -/
theorem referenceName?_eq_some_iff {params name : String} :
    referenceName? params = some name ↔
      (name ≠ "" ∧ ∀ c ∈ name.toList, c.isAlphanum ∨ c = '_' ∨ c = '-') ∧
        ∃ gap colon : List Char, Space gap ∧ (colon = [] ∨ colon = [':']) ∧
          (trim params.toList = ['-', '-'] ++ name.toList ++ gap ++ colon ∨
            ∃ lead trail : List Char, Space lead ∧ Space trail ∧
              trim params.toList =
                ['('] ++ lead ++ ['-', '-'] ++ name.toList ++ gap ++ colon ++ trail ++ [')']) := by
  rw [referenceName?_iff]
  refine and_congr ⟨fun ⟨filled, all⟩ => ?_, fun ⟨filled, all⟩ => ?_⟩ ⟨fun refers => ?_, ?_⟩
  · exact ⟨by simpa using filled, by simpa [SetName.isNameChar, or_assoc] using all⟩
  · exact ⟨by simpa using filled, by simpa [SetName.isNameChar, or_assoc] using all⟩
  · generalize trim params.toList = text at refers
    cases refers with
    | plain ends =>
        obtain ⟨gap, colon, rfl, blank, stop⟩ := ends
        exact ⟨gap, colon, blank, stop, .inl (by simp)⟩
    | enclosed before ends behind =>
        obtain ⟨gap, colon, rfl, blank, stop⟩ := ends
        exact ⟨gap, colon, blank, stop, .inr ⟨_, _, before, behind, by simp⟩⟩
  · rintro ⟨gap, colon, blank, stop, same | ⟨lead, trail, before, behind, same⟩⟩
    · rw [same]
      simpa using SetName.Refers.plain ⟨gap, colon, rfl, blank, stop⟩
    · rw [same]
      simpa using SetName.Refers.enclosed before ⟨gap, colon, rfl, blank, stop⟩ behind

end ApplyRule
