/-
# ApplyRule.Proofs.InertText -- a text without brackets, in brackets

An inert character is no bracket and does not start a string, a comment or an escape
(`Scan.isInert`).  A token that starts in an inert text does not go on across a divider
after it, and none opens or closes anything (`exists_lexemes_inert`).  So an inert text in
brackets is the inside of a block, whatever follows the block (`split?_inert`).
-/
import ApplyRule.Proofs.SplitParts

namespace ApplyRule

set_option autoImplicit false

open Text Scan Component

/-- The characters that are brackets or start a string, a comment, an escape, or a mark of
several characters. -/
def Scan.marks : List Char :=
  ['(', ')', '[', ']', '{', '}', quotationMark, apostrophe, '\\', '/', '#', '@', '<', '>',
    '~', '|', '^', '$', '*']

/-- A character that is none of these. -/
def Scan.isInert (c : Char) : Bool :=
  !marks.contains c

/-- A text of inert characters. -/
def Scan.Inert (text : List Char) : Prop :=
  ∀ c ∈ text, isInert c = true

theorem Scan.ne_of_isInert {c m : Char} (inert : isInert c = true) (mark : m ∈ marks) : c ≠ m := by
  rintro rfl
  simp [isInert, mark] at inert

namespace Scan

variable {c z : Char} {text rest : List Char}

theorem Inert.head (inert : Inert (c :: rest)) : isInert c = true :=
  inert c List.mem_cons_self

theorem Inert.of_subset (inert : Inert text) (inside : rest ⊆ text) : Inert rest :=
  fun c member => inert c (inside member)

/-! ## Where a token ends -/

/-- Without escapes, a name ends before a divider. -/
theorem name_length_le (inert : Inert text) (divider : isDivider z = true) (back : List Char) :
    (name (text ++ z :: back)).2 ≤ text.length := by
  induction text with
  | nil =>
      obtain ⟨noEscape, noName⟩ := of_divider (p := fun z => z ≠ '\\' ∧ isNameChar z = false) divider
        (by decide)
      rw [List.nil_append, name, if_neg noEscape, noName]
      exact Nat.le_refl _
  | cons c rest ih =>
      have shorter := ih (inert.of_subset (List.subset_cons_self c rest))
      rw [List.cons_append, name, if_neg (ne_of_isInert inert.head (by decide)), List.length_cons]
      split
      · exact Nat.succ_le_succ shorter
      · exact Nat.zero_le _

theorem numeric_length_le (inert : Inert text) (divider : isDivider z = true) (back : List Char) :
    (numeric (text ++ z :: back)).2 ≤ text.length := by
  have bound := numeral_length_le text
  have left : (text.drop (numeral text).2).length = text.length - (numeral text).2 :=
    List.length_drop
  have inertRest := inert.of_subset (List.drop_subset (numeral text).2 text)
  simp only [numeric, numeral_cut divider (.inr ⟨back, rfl⟩), List.drop_append_of_le_length bound]
  generalize text.drop (numeral text).2 = rest at left inertRest ⊢
  have unit := name_length_le inertRest divider back
  split
  · rename_i percent
    cases rest with
    | nil =>
        have other := of_divider (p := fun z => z ≠ '%') divider (by decide)
        cases percent
        exact absurd rfl other
    | cons c rest =>
        rw [List.length_cons] at left
        show (numeral text).2 + 1 ≤ text.length
        omega
  · split
    · show (numeral text).2 + (name (rest ++ z :: back)).2 ≤ text.length
      omega
    · exact bound

/-- No bracket follows a name in an inert text, so that no function is read. -/
theorem identLike_length_le (inert : Inert text) (divider : isDivider z = true) (back : List Char) :
    (identLike (text ++ z :: back)).2 ≤ text.length := by
  have bound := name_length_le inert divider back
  unfold identLike
  dsimp only
  split
  · rename_i rest next
    rw [List.drop_append_of_le_length bound] at next
    have inertRest := inert.of_subset (List.drop_subset (name (text ++ z :: back)).2 text)
    cases left : text.drop (name (text ++ z :: back)).2 with
    | nil =>
        rw [left] at next
        have other := of_divider (p := fun z => z ≠ '(') divider (by decide)
        exact absurd (List.cons.inj next).1 other
    | cons c more =>
        rw [left] at next inertRest
        have other := ne_of_isInert inertRest.head (show '(' ∈ marks by decide)
        exact absurd (List.cons.inj next).1 other
  · exact bound

theorem matcher?_inert (inert : isInert c = true) : matcher? c = none := by
  have other (m : Char) (mark : m ∈ marks) := ne_of_isInert inert mark
  unfold matcher?
  split
  · exact absurd rfl (other '~' (by decide))
  · exact absurd rfl (other '|' (by decide))
  · exact absurd rfl (other '^' (by decide))
  · exact absurd rfl (other '$' (by decide))
  · exact absurd rfl (other '*' (by decide))
  · rfl

end Scan

/-- A property of what is read has to hold of both ways to read it. -/
theorem Token.length_ite {n : Nat} {test : Prop} {_ : Decidable test} {one other : Token × Nat}
    (passed : test → one.2 ≤ n) (failed : ¬ test → other.2 ≤ n) :
    (if test then one else other).2 ≤ n := by
  split
  · exact passed ‹_›
  · exact failed ‹_›

section Inert

variable {c z : Char} {rest inner : List Char}

/-- A token of an inert text ends before a divider. -/
theorem Token.read_length_le (inert : Inert (c :: rest)) (divider : Scan.isDivider z = true)
    (back : List Char) : (Token.read c (rest ++ z :: back)).2 ≤ rest.length := by
  have other (m : Char) (mark : m ∈ marks) : c ≠ m := ne_of_isInert inert.head mark
  unfold Token.read
  refine length_ite (fun _ => ?_) fun _ => ?_
  · have stops := of_divider (p := fun z => isBlank z = false) divider (by decide)
    rw [takeWhile_cut stops (.inr ⟨back, rfl⟩)]
    exact (List.takeWhile_sublist Text.isBlank).length_le
  refine length_ite (fun quotes => ?_) fun _ => ?_
  · simp [other quotationMark (by decide), other apostrophe (by decide)] at quotes
  rw [if_neg (other '#' (by decide)), if_neg (by simp [other '@' (by decide)]),
    if_neg (by simp [other '/' (by decide)]), if_neg (by simp [other '<' (by decide)])]
  refine length_ite (fun _ => ?_) fun _ => ?_
  · have short := numeric_length_le inert divider back
    rw [List.length_cons] at short
    exact Nat.sub_le_of_le_add short
  refine length_ite (fun close => ?_) fun _ => length_ite (fun _ => ?_) fun _ => ?_
  · -- The end mark of a comment has a character that is neither inert nor a divider.
    simp only [startsWith, Bool.and_eq_true, List.isPrefixOf_iff_prefix] at close
    obtain ⟨-, more, mark⟩ := close
    obtain ⟨notHyphen, notMark⟩ := of_divider (p := fun z => z ≠ '-' ∧ z ≠ '>') divider (by decide)
    cases rest with
    | nil =>
        obtain ⟨isHyphen, -⟩ := List.cons.inj (mark : '-' :: '>' :: more = z :: back)
        exact absurd isHyphen.symm notHyphen
    | cons d rest =>
        cases rest with
        | nil =>
            obtain ⟨isMark, -⟩ := List.cons.inj (List.cons.inj (mark : '-' :: _ = d :: z :: back)).2
            exact absurd isMark.symm notMark
        | cons e rest =>
            obtain ⟨isMark, -⟩ :=
              List.cons.inj (List.cons.inj (mark : '-' :: _ = d :: e :: (rest ++ z :: back))).2
            exact absurd isMark.symm (ne_of_isInert (inert e (by simp)) (by decide))
  · have short := identLike_length_le inert divider back
    rw [List.length_cons] at short
    exact Nat.sub_le_of_le_add short
  · rw [matcher?_inert inert.head]
    exact Nat.zero_le _

/-- A token of an inert text opens nothing and closes nothing. -/
theorem Token.read_inert (inert : Inert (c :: rest)) (divider : Scan.isDivider z = true)
    (back : List Char) : (Token.read c (rest ++ z :: back)).1.opens? = none ∧
      (Token.read c (rest ++ z :: back)).1.closes? = none := by
  have within := Token.read_length_le inert divider back
  have function := Token.namedFunction_read c (rest ++ z :: back)
  have isMark {m : Char} (marked : (Token.read c (rest ++ z :: back)).1.mark? = some m) :
      m ∉ marks := fun mark =>
    ne_of_isInert inert.head mark (Token.read_mark marked).1
  generalize Token.read c (rest ++ z :: back) = read at within function isMark
  obtain ⟨token, length⟩ := read
  cases token with
  | function called =>
      obtain ⟨written, whole, -⟩ := function called rfl
      rw [List.take_append_of_le_length within] at whole
      have member : '(' ∈ c :: rest.take length := by rw [whole]; simp
      have among : '(' ∈ c :: rest :=
        List.cons_subset_cons c (List.take_subset length rest) member
      exact absurd (inert '(' among) (by decide)
  | opening bracket => exact absurd (by cases bracket <;> decide) (isMark bracket.mark?_opening)
  | closing bracket => exact absurd (by cases bracket <;> decide) (isMark bracket.mark?_closing)
  | _ => exact ⟨rfl, rfl⟩

/-- The lexemes of an inert text before a divider are leaves. -/
theorem exists_lexemes_inert (here : Location) (inert : Inert inner)
    (divider : Scan.isDivider z = true) (back : List Char) :
    ∃ front there, lexemesFrom here (inner ++ z :: back) =
        front ++ lexemesFrom there (z :: back) ∧ Lexeme.textOf front = inner ∧
      ∀ lexeme ∈ front, lexeme.token.opens? = none ∧ lexeme.token.closes? = none := by
  induction length : inner.length using Nat.strong_induction_on generalizing here inner with
  | _ count ih =>
      cases inner with
      | nil => exact ⟨[], here, rfl, rfl, by simp⟩
      | cons c rest =>
          have within := Token.read_length_le inert divider back
          have leaf := Token.read_inert inert divider back
          have inertRest : Inert (rest.drop (Token.read c (rest ++ z :: back)).2) :=
            inert.of_subset fun d member =>
              List.mem_cons_of_mem c (List.drop_subset _ rest member)
          rw [List.cons_append, lexemesFrom_cons, List.take_append_of_le_length within,
            List.drop_append_of_le_length within]
          obtain ⟨front, there, read, written, leaves⟩ := ih _ (by
            rw [← length, List.length_drop, List.length_cons]
            omega) (here.advance (c :: rest.take _)) inertRest rfl
          refine ⟨_ :: front, there, by rw [read, List.cons_append], ?_,
            List.forall_mem_cons.mpr ⟨leaf, leaves⟩⟩
          rw [Lexeme.textOf, List.flatMap_cons, ← Lexeme.textOf, written, List.cons_append,
            List.take_append_drop]

/-- Leaves make a part of a block. -/
theorem Component.inside_leaves {bracket : Bracket} {lexemes : List Lexeme}
    (leaves : ∀ lexeme ∈ lexemes, lexeme.token.opens? = none ∧ lexeme.token.closes? = none) :
    Inside bracket lexemes (lexemes.map .leaf) := by
  induction lexemes with
  | nil => exact .nil
  | cons lexeme rest ih =>
      obtain ⟨own, others⟩ := List.forall_mem_cons.mp leaves
      exact .leaf (by simp [own.2]) own.1 (ih others)

/-- **An inert text in brackets** is the inside of a block, whatever follows the block. -/
theorem split?_inert (bracket : Bracket) (inert : Inert inner) (back : List Char) :
    split? bracket (bracket.opener :: (inner ++ bracket.closer :: back)) =
      some ⟨[], inner, back⟩ := by
  obtain ⟨front, there, read, written, leaves⟩ := exists_lexemes_inert
    (Location.first.advance [bracket.opener]) inert bracket.isDivider_closer back
  have closes : ∀ here, (⟨.closing bracket, [bracket.closer], here⟩ : Lexeme).token.closes? =
      some bracket := fun _ => rfl
  rw [lexemesFrom_cons, Token.read_divider bracket.isDivider_closer, bracket.single_closer] at read
  have inside : Inside bracket front (front.map .leaf) := inside_leaves leaves
  have block := inside [bracket] (⟨.closing bracket, [bracket.closer], there⟩ ::
    lexemesFrom (there.advance [bracket.closer]) back) (by simp)
  rw [levels_closer (closes there)] at block
  have opens : (⟨.opening bracket, [bracket.opener], .first⟩ : Lexeme).token.opens? =
      some bracket := rfl
  have textFront := textOf_leaves front
  rw [written] at textFront
  rw [split?, Component.read, lexemes, lexemesFrom_cons, Token.read_opener]
  simp only [List.take_zero, List.drop_zero, read]
  rw [group, levels_opener (not_closesFirst_nil _) opens block]
  simp only [Level.prepend, Level.cons, List.append_nil, List.head?_cons, Option.getD_some]
  rw [Split.ofComponents?, if_pos opens, textFront, ← group, textOf_group, textOf_lexemesFrom]

end Inert

end ApplyRule
