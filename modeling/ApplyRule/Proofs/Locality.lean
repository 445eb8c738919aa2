/-
# ApplyRule.Proofs.Locality -- a divider cuts the text

Whether a closing bracket or the end of the text follows is the same to every token
that ends before it.  No token needs a bracket to know where it ends: to a name or a
number a bracket is like the end of the text, and a string, a comment or a URL goes on
across it.  The bracket that opens a block, the colon and the semicolon are no
different; these characters are the dividers (`Scan.isDivider`).

So the lexemes up to a divider do not depend on what follows it (`lexemesFrom_cut`).
-/
import ApplyRule.Proofs.Lexeme

namespace ApplyRule

set_option autoImplicit false

open Text

namespace Scan

/-- A closing bracket. -/
def isClosing (c : Char) : Bool :=
  c = ')' || c = ']' || c = '}'

/-- A text that is empty or starts with `z`. -/
def Cuts (z : Char) (tail : List Char) : Prop :=
  tail = [] ∨ ∃ more, tail = z :: more

/-- A character at which a token ends that does not go on across it: a closing bracket,
the bracket that opens a block, a colon or a semicolon. -/
def isDivider (c : Char) : Bool :=
  isClosing c || c = '{' || c = ':' || c = ';'

theorem isDivider_of_isClosing {c : Char} (closing : isClosing c = true) : isDivider c = true := by
  simp [isDivider, closing]

theorem of_divider {p : Char → Prop} {z : Char} (divider : isDivider z = true)
    (each : p ')' ∧ p ']' ∧ p '}' ∧ p '{' ∧ p ':' ∧ p ';') : p z := by
  simp only [isDivider, isClosing, Bool.or_eq_true, decide_eq_true_eq] at divider
  obtain ⟨round, square, curly, opens, colon, semicolon⟩ := each
  rcases divider with ((((rfl | rfl) | rfl) | rfl) | rfl) | rfl <;> assumption

variable {z : Char} {text tail back : List Char}

/-! ## What a divider does not change -/

theorem takeWhile_cut {p : Char → Bool} (stops : p z = false) (cuts : Cuts z tail) :
    (text ++ tail).takeWhile p = text.takeWhile p := by
  rcases cuts with rfl | ⟨more, rfl⟩
  · rw [List.append_nil]
  · induction text with
    | nil => simp [stops]
    | cons c rest ih => simp only [List.cons_append, List.takeWhile_cons, ih]

theorem dropWhile_cut {p : Char → Bool} (stops : p z = false) (cuts : Cuts z tail) :
    (text ++ tail).dropWhile p = text.dropWhile p ++ tail := by
  rcases cuts with rfl | ⟨more, rfl⟩
  · rw [List.append_nil, List.append_nil]
  · induction text with
    | nil => simp [stops]
    | cons c rest ih =>
        simp only [List.cons_append, List.dropWhile_cons, ih]
        split <;> rfl

/-- What a divider does not change. -/
theorem blind_cut {α : Type} {f : List Char → α} (cuts : Cuts z tail)
    (blind : ∀ more, f (text ++ z :: more) = f text) : f (text ++ tail) = f text := by
  rcases cuts with rfl | ⟨more, rfl⟩
  · rw [List.append_nil]
  · exact blind more

/-! ### Questions about the front -/

theorem startsLine_cut (divider : isDivider z = true) (cuts : Cuts z tail) :
    startsLine (text ++ tail) = startsLine text := by
  refine blind_cut cuts fun more => ?_
  cases text with
  | nil => exact of_divider (p := fun z => isNewline z = false) divider (by decide)
  | cons c rest => rfl

theorem startsDigit_cut (divider : isDivider z = true) (cuts : Cuts z tail) :
    startsDigit (text ++ tail) = startsDigit text := by
  refine blind_cut cuts fun more => ?_
  cases text with
  | nil => exact of_divider (p := fun z => z.isDigit = false) divider (by decide)
  | cons c rest => rfl

theorem newlineLength_cut (divider : isDivider z = true) (cuts : Cuts z tail) :
    newlineLength (text ++ tail) = newlineLength text := by
  refine blind_cut cuts fun more => ?_
  match text with
  | [] =>
      exact of_divider (p := fun z => newlineLength (z :: more) = 0) divider
        ⟨rfl, rfl, rfl, rfl, rfl, rfl⟩
  | [c] =>
      have other : z ≠ '\n' :=
        of_divider (p := fun z => z ≠ '\n') divider (by decide)
      by_cases return_ : c = '\r' <;> simp [newlineLength, return_, other]
  | c :: d :: rest =>
      by_cases return_ : c = '\r' <;> by_cases feed : d = '\n' <;>
        simp [newlineLength, return_, feed]

theorem blankLength_cut (divider : isDivider z = true) (cuts : Cuts z tail) :
    blankLength (text ++ tail) = blankLength text := by
  refine blind_cut cuts fun more => ?_
  cases text with
  | nil =>
      exact of_divider (p := fun z => blankLength (z :: more) = 0) divider
        ⟨rfl, rfl, rfl, rfl, rfl, rfl⟩
  | cons c rest =>
      rw [List.cons_append, blankLength, blankLength, ← List.cons_append,
        newlineLength_cut divider (.inr ⟨more, rfl⟩)]

theorem startsIdent_cut (divider : isDivider z = true) (cuts : Cuts z tail) :
    startsIdent (text ++ tail) = startsIdent text := by
  refine blind_cut cuts fun more => ?_
  match text with
  | [] =>
      exact of_divider (p := fun z => startsIdent (z :: more) = false) divider
        ⟨rfl, rfl, rfl, rfl, rfl, rfl⟩
  | [c] =>
      have plain := of_divider
        (p := fun z => isNameStart z = false ∧ z ≠ '-' ∧ z ≠ '\\' ∧ isNewline z = false) divider
        (by decide)
      by_cases hyphen : c = '-' <;> by_cases escape : c = '\\' <;>
        simp_all [startsIdent, startsLine]
  | c :: d :: rest =>
      by_cases hyphen : c = '-' <;> by_cases escape : c = '\\' <;>
        simp_all [startsIdent, startsLine]

theorem startsWith_cut {mark : List Char} (plain : z ∉ mark) (cuts : Cuts z tail) :
    startsWith mark (text ++ tail) = startsWith mark text := by
  refine blind_cut cuts fun more => ?_
  unfold startsWith
  induction mark generalizing text with
  | nil => simp
  | cons m rest ih =>
      simp only [List.mem_cons, not_or] at plain
      cases text with
      | nil => simp [List.isPrefixOf, Ne.symm plain.1]
      | cons c others => simp [List.isPrefixOf, ih plain.2]

/-! ### Numbers -/

theorem startsMagnitude_cut (divider : isDivider z = true) (cuts : Cuts z tail) :
    startsMagnitude (text ++ tail) = startsMagnitude text := by
  cases text with
  | nil =>
      exact blind_cut (f := startsMagnitude) cuts fun more =>
        of_divider (p := fun z => startsMagnitude (z :: more) = false) divider
          ⟨rfl, rfl, rfl, rfl, rfl, rfl⟩
  | cons c rest =>
      by_cases point : c = '.'
      · subst point
        exact startsDigit_cut divider cuts
      · simp [startsMagnitude, point, startsDigit]

theorem startsNumeral_cut (divider : isDivider z = true) (cuts : Cuts z tail) :
    startsNumeral (text ++ tail) = startsNumeral text := by
  cases text with
  | nil =>
      exact blind_cut (f := startsNumeral) cuts fun more =>
        of_divider (p := fun z => startsNumeral (z :: more) = false) divider
          ⟨rfl, rfl, rfl, rfl, rfl, rfl⟩
  | cons c rest =>
      by_cases plus : c = '+'
      · subst plus
        exact startsMagnitude_cut divider cuts
      · by_cases minus : c = '-'
        · subst minus
          exact startsMagnitude_cut divider cuts
        · have same : startsMagnitude (c :: rest ++ tail) = startsMagnitude (c :: rest) :=
            startsMagnitude_cut divider cuts
          simpa [startsNumeral, plus, minus] using same

theorem sign_cut (divider : isDivider z = true) (cuts : Cuts z tail) :
    sign (text ++ tail) = sign text := by
  refine blind_cut cuts fun more => ?_
  cases text with
  | nil =>
      exact of_divider (p := fun z => sign (z :: more) = (false, 0)) divider
        ⟨rfl, rfl, rfl, rfl, rfl, rfl⟩
  | cons c rest =>
      by_cases plus : c = '+' <;> by_cases minus : c = '-' <;> simp [sign, plus, minus]

theorem digits_cut (divider : isDivider z = true) (cuts : Cuts z tail) :
    digits (text ++ tail) = digits text := by
  have stops := of_divider (p := fun z => z.isDigit = false) divider (by decide)
  rw [digits, digits, takeWhile_cut stops cuts]

theorem fraction_cut (divider : isDivider z = true) (cuts : Cuts z tail) :
    fraction (text ++ tail) = fraction text := by
  cases text with
  | nil =>
      exact blind_cut (f := fraction) cuts fun more =>
        of_divider (p := fun z => fraction (z :: more) = ([], 0)) divider
          ⟨rfl, rfl, rfl, rfl, rfl, rfl⟩
  | cons c rest =>
      by_cases point : c = '.'
      · subst point
        simp only [List.cons_append, fraction, startsDigit_cut divider cuts,
          digits_cut divider cuts]
      · simp [fraction, point]

theorem sign_length_le (text : List Char) : (sign text).2 ≤ text.length := by
  unfold sign
  split <;> simp

theorem digits_length_le (text : List Char) : (digits text).length ≤ text.length := by
  rw [digits, List.length_map]
  exact (List.takeWhile_sublist _).length_le

theorem fraction_length_le (text : List Char) : (fraction text).2 ≤ text.length := by
  unfold fraction
  split
  · split
    · simpa using digits_length_le _
    · simp
  · simp

theorem exponent_length_le (text : List Char) : (exponent text).2 ≤ text.length := by
  unfold exponent
  split
  · simp
  · rename_i c rest
    dsimp only
    split
    · have first := sign_length_le rest
      have more := digits_length_le (rest.drop (sign rest).2)
      rw [List.length_drop] at more
      simp only [List.length_cons]
      omega
    · simp

theorem exponent_cut (divider : isDivider z = true) (cuts : Cuts z tail) :
    exponent (text ++ tail) = exponent text := by
  cases text with
  | nil =>
      refine blind_cut (f := exponent) cuts fun more => ?_
      have other := of_divider (p := fun z => z ≠ 'e' ∧ z ≠ 'E') divider (by decide)
      simp [exponent, other.1, other.2]
  | cons c rest =>
      simp only [List.cons_append, exponent, sign_cut divider cuts,
        List.drop_append_of_le_length (sign_length_le rest), startsDigit_cut divider cuts,
        digits_cut divider cuts]

theorem numeral_cut (divider : isDivider z = true) (cuts : Cuts z tail) :
    numeral (text ++ tail) = numeral text := by
  simp only [numeral, sign_cut divider cuts, List.drop_append_of_le_length (sign_length_le _),
    digits_cut divider cuts, List.drop_append_of_le_length (digits_length_le _),
    fraction_cut divider cuts, List.drop_append_of_le_length (fraction_length_le _),
    exponent_cut divider cuts]

theorem numeral_length_le (text : List Char) : (numeral text).2 ≤ text.length := by
  simp only [numeral]
  have first := sign_length_le text
  have whole := digits_length_le (text.drop (sign text).2)
  have point := fraction_length_le
    ((text.drop (sign text).2).drop (digits (text.drop (sign text).2)).length)
  have power := exponent_length_le
    (((text.drop (sign text).2).drop (digits (text.drop (sign text).2)).length).drop
      (fraction ((text.drop (sign text).2).drop (digits (text.drop (sign text).2)).length)).2)
  simp only [List.length_drop] at whole point power
  omega

/-! ### Names -/

theorem take_takeWhile_cut {p : Char → Bool} (stops : p z = false) (cuts : Cuts z tail) (n : Nat) :
    ((text ++ tail).take n).takeWhile p = (text.take n).takeWhile p := by
  rw [List.take_append]
  refine takeWhile_cut stops ?_
  rcases cuts with rfl | ⟨more, rfl⟩
  · exact .inl List.take_nil
  · cases n - text.length with
    | zero => exact .inl rfl
    | succ count => exact .inr ⟨_, rfl⟩

/-- An escape that has a character before the divider ends before it. -/
theorem escape_cut {c : Char} (divider : isDivider z = true) (cuts : Cuts z tail) :
    escape (c :: text ++ tail) = escape (c :: text) := by
  have stops := of_divider (p := fun z => isHexDigit z = false) divider (by decide)
  have digits : (((c :: text) ++ tail).take 6).takeWhile isHexDigit =
      ((c :: text).take 6).takeWhile isHexDigit := take_takeWhile_cut stops cuts 6
  have within : (((c :: text).take 6).takeWhile isHexDigit).length ≤ (c :: text).length :=
    ((List.takeWhile_sublist _).trans (List.take_sublist _ _)).length_le
  rw [List.cons_append] at digits ⊢
  rw [escape, escape, digits, ← List.cons_append]
  dsimp only
  rw [List.drop_append_of_le_length within, blankLength_cut divider cuts]

theorem newlineLength_le (text : List Char) : newlineLength text ≤ text.length := by
  unfold newlineLength
  split
  · simp
  · split <;> simp
  · simp

theorem blankLength_le (text : List Char) : blankLength text ≤ text.length := by
  unfold blankLength
  split
  · simp
  · split
    · simp
    · exact newlineLength_le _

theorem escape_length_le (text : List Char) : (escape text).2 ≤ text.length := by
  unfold escape
  split
  · simp
  · rename_i c rest
    split
    · have within : (((c :: rest).take 6).takeWhile isHexDigit).length ≤ (c :: rest).length :=
        ((List.takeWhile_sublist _).trans (List.take_sublist _ _)).length_le
      have blank := blankLength_le
        ((c :: rest).drop (((c :: rest).take 6).takeWhile isHexDigit).length)
      rw [List.length_drop] at blank
      dsimp only
      omega
    · simp

theorem escape_divider (divider : isDivider z = true) (more : List Char) :
    (escape (z :: more)).2 = 1 := by
  have plain := of_divider (p := fun z => isHexDigit z = false) divider (by decide)
  rw [escape, plain]
  rfl

theorem name_cut (divider : isDivider z = true) (cuts : Cuts z tail)
    (within : (name (text ++ z :: back)).2 ≤ text.length) :
    name (text ++ tail) = name text := by
  have plain := of_divider (p := fun z => z ≠ '\\' ∧ isNameChar z = false) divider (by decide)
  fun_induction name text with
  | case1 =>
      rcases cuts with rfl | ⟨more, rfl⟩
      · rw [List.nil_append, name]
      · rw [List.nil_append, name, if_neg plain.1, plain.2, if_neg Bool.false_ne_true]
  | case2 rest line =>
      rw [List.cons_append, name, if_pos rfl, startsLine_cut divider cuts, if_pos line]
  | case3 rest line escaped length read more moreLength recursive ih =>
      rw [List.cons_append, name, if_pos rfl, startsLine_cut divider (.inr ⟨back, rfl⟩),
        if_neg line] at within
      rw [List.cons_append, name, if_pos rfl, startsLine_cut divider cuts, if_neg line]
      cases rest with
      | nil =>
          have one := escape_divider divider back
          simp only [List.nil_append, one, List.length_cons, List.length_nil] at within
          omega
      | cons d others =>
          have bound := escape_length_le (d :: others)
          rw [read] at bound
          simp only [escape_cut divider (.inr ⟨back, rfl⟩), read,
            List.drop_append_of_le_length bound, List.length_cons] at within
          simp only [escape_cut divider cuts, read, List.drop_append_of_le_length bound]
          rw [ih (by rw [List.length_drop, List.length_cons]; omega), recursive]
  | case4 c rest other nameChar more moreLength recursive ih =>
      rw [List.cons_append, name, if_neg other, if_pos nameChar] at within
      rw [List.cons_append, name, if_neg other, if_pos nameChar, ih, recursive]
      simpa using within
  | case5 c rest other nameChar =>
      rw [List.cons_append, name, if_neg other, if_neg nameChar]

theorem numeric_cut (divider : isDivider z = true) (cuts : Cuts z tail)
    (within : (numeric (text ++ z :: back)).2 ≤ text.length) :
    numeric (text ++ tail) = numeric text := by
  have bound := numeral_length_le text
  have left : (text.drop (numeral text).2).length = text.length - (numeral text).2 :=
    List.length_drop
  simp only [numeric, numeral_cut divider (.inr ⟨back, rfl⟩),
    List.drop_append_of_le_length bound, startsIdent_cut divider (.inr ⟨back, rfl⟩)] at within
  simp only [numeric, numeral_cut divider cuts, List.drop_append_of_le_length bound,
    startsIdent_cut divider cuts]
  generalize text.drop (numeral text).2 = rest at within left
  cases rest with
  | nil =>
      have other := of_divider (p := fun z => z ≠ '%') divider (by decide)
      rcases cuts with rfl | ⟨more, rfl⟩
      · rfl
      · simp [other, startsIdent]
  | cons d others =>
      by_cases percent : d = '%'
      · simp [percent]
      · by_cases ident : startsIdent (d :: others) = true
        · simp only [List.cons_append, ident, if_true] at within ⊢
          have short : (name (d :: others ++ z :: back)).2 ≤ (d :: others).length := by
            simp [percent] at within
            rw [List.cons_append]
            omega
          have unit : name (d :: (others ++ tail)) = name (d :: others) :=
            name_cut divider cuts short
          simp [percent, unit]
        · simp [percent, ident]

/-! ### Comments and strings -/

theorem commentText_cons {c : Char} {rest : List Char}
    (goesOn : ∀ more, c = '*' → rest = '/' :: more → False) :
    commentText (c :: rest) = (c :: (commentText rest).1, (commentText rest).2 + 1) := by
  rw [commentText]
  exact goesOn

theorem commentText_cut (divider : isDivider z = true) (cuts : Cuts z tail)
    (within : (commentText (text ++ z :: back)).2 ≤ text.length) :
    commentText (text ++ tail) = commentText text := by
  have plain := of_divider (p := fun z => z ≠ '*' ∧ z ≠ '/') divider (by decide)
  fun_induction commentText text with
  | case1 =>
      rw [List.nil_append, commentText_cons fun _ star _ => plain.1 star] at within
      cases within
  | case2 rest => rfl
  | case3 c rest goesOn more moreLength recursive ih =>
      have still : ∀ tail, Cuts z tail → ∀ more, c = '*' → rest ++ tail = '/' :: more → False := by
        rintro tail cuts more rfl same
        cases rest with
        | nil =>
            rcases cuts with rfl | ⟨others, rfl⟩
            · cases same
            · cases same
              exact plain.2 rfl
        | cons d others =>
            cases same
            exact goesOn _ rfl rfl
      rw [List.cons_append, commentText_cons (still _ (.inr ⟨back, rfl⟩))] at within
      rw [List.cons_append, commentText_cons (still _ cuts),
        ih (by simpa using within), recursive]

theorem quoted_cut {mark : Char} (divider : isDivider z = true) (other : z ≠ mark)
    (cuts : Cuts z tail) (within : (quoted mark (text ++ z :: back)).length ≤ text.length) :
    quoted mark (text ++ tail) = quoted mark text := by
  have plain := of_divider (p := fun z => isNewline z = false ∧ z ≠ '\\') divider (by decide)
  fun_induction quoted mark text with
  | case1 =>
      rw [List.nil_append, quoted, if_neg other, plain.1, if_neg Bool.false_ne_true,
        if_neg plain.2] at within
      cases within
  | case2 rest => rw [List.cons_append, quoted, if_pos rfl]
  | case3 c rest noMark newline => rw [List.cons_append, quoted, if_neg noMark, if_pos newline]
  | case4 rest empty noMark noLine =>
      cases List.isEmpty_iff.mp empty
      have one := escape_divider divider back
      have line : startsLine (z :: back) = false := plain.1
      rw [List.cons_append, List.nil_append, quoted, if_neg noMark, if_neg noLine, if_pos rfl,
        List.isEmpty_cons, if_neg Bool.false_ne_true, line, if_neg Bool.false_ne_true] at within
      simp [one, Run.cons] at within
  | case5 rest some_ line noMark noLine ih =>
      have filled : ∀ tail : List Char, (rest ++ tail).isEmpty = false := fun tail => by
        cases rest with
        | nil => cases some_ rfl
        | cons d others => rfl
      have bound := newlineLength_le rest
      rw [List.cons_append, quoted, if_neg noMark, if_neg noLine, if_pos rfl, filled,
        if_neg Bool.false_ne_true, startsLine_cut divider (.inr ⟨back, rfl⟩), if_pos line,
        newlineLength_cut divider (.inr ⟨back, rfl⟩),
        List.drop_append_of_le_length bound] at within
      rw [List.cons_append, quoted, if_neg noMark, if_neg noLine, if_pos rfl, filled,
        if_neg Bool.false_ne_true, startsLine_cut divider cuts, if_pos line,
        newlineLength_cut divider cuts, List.drop_append_of_le_length bound, ih]
      simp only [Run.skip, List.length_cons] at within
      rw [List.length_drop]
      omega
  | case6 rest some_ line escaped length read noMark noLine ih =>
      cases rest with
      | nil => cases some_ rfl
      | cons d others =>
          have bound := escape_length_le (d :: others)
          rw [read] at bound
          have filled : ∀ tail : List Char, (d :: others ++ tail).isEmpty = false := fun _ => rfl
          rw [List.cons_append, quoted, if_neg noMark, if_neg noLine, if_pos rfl, filled,
            if_neg Bool.false_ne_true, startsLine_cut divider (.inr ⟨back, rfl⟩), if_neg line,
            escape_cut divider (.inr ⟨back, rfl⟩), read] at within
          rw [List.cons_append, quoted, if_neg noMark, if_neg noLine, if_pos rfl, filled,
            if_neg Bool.false_ne_true, startsLine_cut divider cuts, if_neg line,
            escape_cut divider cuts, read]
          simp only [List.drop_append_of_le_length bound, Run.cons, List.length_cons] at within ⊢
          rw [ih]
          rw [List.length_drop, List.length_cons]
          omega
  | case7 c rest noMark noLine noEscape ih =>
      rw [List.cons_append, quoted, if_neg noMark, if_neg noLine, if_neg noEscape] at within
      rw [List.cons_append, quoted, if_neg noMark, if_neg noLine, if_neg noEscape, ih]
      simpa [Run.cons] using within

/-! ### URLs -/

theorem url_length_pos (c : Char) (rest : List Char) : 0 < (url (c :: rest)).length := by
  rw [url]
  split
  · exact Nat.one_pos
  · split
    · dsimp only
      split <;> exact Nat.succ_pos _
    · split
      · exact Nat.one_pos
      · split
        · split
          · exact Nat.one_pos
          · exact Nat.succ_pos _
        · exact Nat.succ_pos _

theorem url_cut (divider : isDivider z = true) (cuts : Cuts z tail)
    (within : (url (text ++ z :: back)).length ≤ text.length) :
    url (text ++ tail) = url text := by
  have stops := of_divider (p := fun z => isBlank z = false) divider (by decide)
  fun_induction url text with
  | case1 =>
      have positive := url_length_pos z back
      rw [List.nil_append, List.length_nil] at within
      omega
  | case2 rest => rw [List.cons_append, url, if_pos rfl]
  | case3 c rest other blank gap none_ =>
      -- The blanks go on to the divider, and the URL across it.
      have all : (rest.takeWhile isBlank).length = rest.length := by
        have whole := List.takeWhile_append_dropWhile (p := isBlank) (l := rest)
        rw [none_, List.append_nil] at whole
        rw [whole]
      rw [List.cons_append, url, if_neg other, if_pos blank,
        takeWhile_cut stops (.inr ⟨back, rfl⟩), dropWhile_cut stops (.inr ⟨back, rfl⟩),
        none_, List.nil_append] at within
      simp only [List.length_cons] at within
      omega
  | case4 c rest other blank gap next more some_ =>
      rw [List.cons_append, url, if_neg other, if_pos blank, takeWhile_cut stops cuts,
        dropWhile_cut stops cuts, some_]
      rfl
  | case5 c rest other solid bad =>
      rw [List.cons_append, url, if_neg other, if_neg solid, if_pos bad]
  | case6 rest line other solid good =>
      rw [List.cons_append, url, if_neg other, if_neg solid, if_neg good, if_pos rfl,
        startsLine_cut divider cuts, if_pos line]
  | case7 rest line escaped length read other solid good ih =>
      rw [List.cons_append, url, if_neg other, if_neg solid, if_neg good, if_pos rfl,
        startsLine_cut divider (.inr ⟨back, rfl⟩), if_neg line] at within
      rw [List.cons_append, url, if_neg other, if_neg solid, if_neg good, if_pos rfl,
        startsLine_cut divider cuts, if_neg line]
      cases rest with
      | nil =>
          have one := escape_divider divider back
          simp only [List.nil_append, one, Run.cons, List.length_cons, List.length_nil] at within
          omega
      | cons d others =>
          have bound := escape_length_le (d :: others)
          rw [read] at bound
          simp only [escape_cut divider (.inr ⟨back, rfl⟩), read,
            List.drop_append_of_le_length bound, Run.cons, List.length_cons] at within
          simp only [escape_cut divider cuts, read, List.drop_append_of_le_length bound]
          rw [ih]
          rw [List.length_drop, List.length_cons]
          omega
  | case8 c rest other solid good plain ih =>
      rw [List.cons_append, url, if_neg other, if_neg solid, if_neg good, if_neg plain] at within
      rw [List.cons_append, url, if_neg other, if_neg solid, if_neg good, if_neg plain, ih]
      simpa [Run.cons] using within

theorem urlRemains_cons {c : Char} {rest : List Char}
    (bracket : ∀ more, c = '\\' → rest = ')' :: more → False)
    (escape : ∀ more, c = '\\' → rest = '\\' :: more → False) (other : c ≠ ')') :
    urlRemains (c :: rest) = urlRemains rest + 1 := by
  rw [urlRemains, if_neg other]
  · exact bracket
  · exact escape

theorem urlRemains_cut (divider : isDivider z = true) (cuts : Cuts z tail)
    (within : urlRemains (text ++ z :: back) ≤ text.length) :
    urlRemains (text ++ tail) = urlRemains text := by
  have plain := of_divider (p := fun z => z ≠ '\\') divider (by decide)
  fun_induction urlRemains text with
  | case1 =>
      by_cases round : z = ')'
      · subst round
        rcases cuts with rfl | ⟨more, rfl⟩
        · rfl
        · simp [urlRemains]
      · rw [List.nil_append, urlRemains_cons (fun _ same => absurd same plain)
          (fun _ same => absurd same plain) round] at within
        cases within
  | case2 rest ih =>
      simp only [List.cons_append, urlRemains, List.length_cons] at within ⊢
      rw [ih (by omega)]
  | case3 rest ih =>
      simp only [List.cons_append, urlRemains, List.length_cons] at within ⊢
      rw [ih (by omega)]
  | case4 rest _ _ => simp [urlRemains]
  | case5 c rest bracket escape other ih =>
      -- A backslash directly before a round bracket would take it in.
      have apart : c = '\\' → rest = [] → z ≠ ')' := by
        rintro rfl rfl rfl
        simp [urlRemains] at within
      have still : ∀ tail, Cuts z tail →
          urlRemains (c :: (rest ++ tail)) = urlRemains (rest ++ tail) + 1 := by
        intro tail cuts
        refine urlRemains_cons (fun more isEscape same => ?_) (fun more isEscape same => ?_) other
        · cases rest with
          | nil =>
              rcases cuts with rfl | ⟨others, rfl⟩
              · cases same
              · exact apart isEscape rfl (List.cons.inj same).1
          | cons d others => exact bracket others isEscape (by rw [(List.cons.inj same).1])
        · cases rest with
          | nil =>
              rcases cuts with rfl | ⟨others, rfl⟩
              · cases same
              · exact plain (List.cons.inj same).1
          | cons d others => exact escape others isEscape (by rw [(List.cons.inj same).1])
      rw [List.cons_append, still _ (.inr ⟨back, rfl⟩), List.length_cons] at within
      rw [List.cons_append, still _ cuts, ih (by omega)]

/-- The URL token of a text that starts with neither a blank nor a quotation mark, after
`gap` blanks. -/
def unquotedUrl (gap : Nat) (text : List Char) : Token × Nat :=
  let run := url text
  if run.sound then (.unquotedUrl (String.ofList run.value), gap + run.length)
  else
    let length := run.length + urlRemains (text.drop run.length)
    let closed := (text.drop length).length.min 1
    (.badUrl (String.ofList (text.take length)), gap + length + closed)

theorem urlToken?_eq (text : List Char) : urlToken? text =
    match text.dropWhile isBlank with
    | [] => some (.unquotedUrl "", (text.takeWhile isBlank).length)
    | c :: rest =>
        if c = quotationMark || c = apostrophe then none
        else some (unquotedUrl (text.takeWhile isBlank).length (c :: rest)) := by
  unfold urlToken? unquotedUrl
  dsimp only
  cases text.dropWhile isBlank with
  | nil => rfl
  | cons c rest =>
      dsimp only
      split
      · rfl
      · split <;> rfl

theorem url_length_le_unquotedUrl (gap : Nat) (text : List Char) :
    gap + (url text).length ≤ (unquotedUrl gap text).2 := by
  unfold unquotedUrl
  dsimp only
  split <;> dsimp only <;> omega

theorem unquotedUrl_cut {gap : Nat} (divider : isDivider z = true) (cuts : Cuts z tail)
    (within : (unquotedUrl gap (text ++ z :: back)).2 ≤ gap + text.length) :
    unquotedUrl gap (text ++ tail) = unquotedUrl gap text := by
  have again : Cuts z (z :: back) := .inr ⟨back, rfl⟩
  have short : (url (text ++ z :: back)).length ≤ text.length := by
    have least := url_length_le_unquotedUrl gap (text ++ z :: back)
    omega
  have bound : (url text).length ≤ text.length := by
    rwa [url_cut divider again short] at short
  unfold unquotedUrl at within ⊢
  rw [url_cut divider again short] at within
  rw [url_cut divider cuts short]
  dsimp only at within ⊢
  by_cases sound : (url text).sound = true
  · rw [if_pos sound, if_pos sound]
  · rw [if_neg sound] at within
    rw [if_neg sound, if_neg sound]
    dsimp only at within
    rw [List.drop_append_of_le_length bound] at within ⊢
    have left : (text.drop (url text).length).length = text.length - (url text).length :=
      List.length_drop
    generalize text.drop (url text).length = remains at within left ⊢
    have few : urlRemains (remains ++ z :: back) ≤ remains.length := by omega
    rw [urlRemains_cut divider again few] at within
    rw [urlRemains_cut divider cuts few]
    -- The divider is left, so that one character more belongs to the URL.
    have one : ∀ n : Nat, 0 < n → n.min 1 = 1 := fun n positive => Nat.min_eq_right positive
    have last : 0 < (z :: back).length := Nat.succ_pos _
    rw [urlRemains_cut divider again few] at few
    rw [List.length_drop, List.length_append, one _ (by omega)] at within
    rw [List.take_append_of_le_length (by omega), List.length_drop, List.length_drop,
      List.length_append, one _ (by omega), one _ (by omega)]

theorem urlToken?_cut (divider : isDivider z = true) (cuts : Cuts z tail)
    (within : ∀ found, urlToken? (text ++ z :: back) = some found → found.2 ≤ text.length) :
    urlToken? (text ++ tail) = urlToken? text := by
  have stops := of_divider (p := fun z => isBlank z = false) divider (by decide)
  have unquoted := of_divider
    (p := fun z => (decide (z = quotationMark) || decide (z = apostrophe)) = false) divider
    (by decide)
  have split := congrArg List.length (List.takeWhile_append_dropWhile (p := isBlank) (l := text))
  rw [List.length_append] at split
  rw [urlToken?_eq, takeWhile_cut stops (.inr ⟨back, rfl⟩),
    dropWhile_cut stops (.inr ⟨back, rfl⟩)] at within
  rw [urlToken?_eq, urlToken?_eq, takeWhile_cut stops cuts, dropWhile_cut stops cuts]
  generalize (text.takeWhile isBlank).length = gap at within split ⊢
  generalize text.dropWhile isBlank = rest at within split ⊢
  cases rest with
  | nil =>
      -- The divider itself would belong to the URL.
      exfalso
      simp only [List.nil_append, unquoted, Bool.false_eq_true, if_false] at within
      have least := url_length_le_unquotedUrl gap (z :: back)
      have positive := url_length_pos z back
      have most := within _ rfl
      rw [List.length_nil] at split
      omega
  | cons c others =>
      by_cases quotes : (decide (c = quotationMark) || decide (c = apostrophe)) = true
      · simp only [List.cons_append, quotes, if_true]
      · simp only [List.cons_append, quotes, Bool.false_eq_true, if_false] at within ⊢
        have most := within _ rfl
        rw [← split, ← List.cons_append] at most
        rw [← List.cons_append, unquotedUrl_cut divider cuts most]

/-! ## Tokens -/

theorem name_length_le_identLike (text : List Char) : (name text).2 ≤ (identLike text).2 := by
  unfold identLike
  dsimp only
  split
  · split
    · split
      · dsimp only
        omega
      · exact Nat.le_succ _
    · exact Nat.le_succ _
  · exact Nat.le_refl _

theorem identLike_cut (divider : isDivider z = true) (cuts : Cuts z tail)
    (within : (identLike (text ++ z :: back)).2 ≤ text.length) :
    identLike (text ++ tail) = identLike text := by
  have short := Nat.le_trans (name_length_le_identLike _) within
  have bound : (name text).2 ≤ text.length := by
    rwa [name_cut divider (.inr ⟨back, rfl⟩) short] at short
  have left : (text.drop (name text).2).length = text.length - (name text).2 := List.length_drop
  simp only [identLike, name_cut divider (.inr ⟨back, rfl⟩) short,
    List.drop_append_of_le_length bound] at within
  simp only [identLike, name_cut divider cuts short, List.drop_append_of_le_length bound]
  generalize text.drop (name text).2 = rest at within left ⊢
  cases rest with
  | nil =>
      have other := of_divider (p := fun z => z ≠ '(') divider (by decide)
      rcases cuts with rfl | ⟨more, rfl⟩
      · rfl
      · simp [other]
  | cons d others =>
      by_cases opens : d = '('
      · subst opens
        simp only [List.cons_append] at within ⊢
        split
        · rename_i isUrl
          rw [if_pos isUrl] at within
          rw [urlToken?_cut divider cuts]
          intro found same
          rw [same] at within
          simp only [List.length_cons] at within left
          omega
        · rfl
      · simp [opens]

end Scan

open Scan

/-- A token read by cases is the same in both texts if it is in each case. -/
theorem Token.ite_cut {p : Prop} [Decidable p] {n : Nat} {first second a b a' b' : Token × Nat}
    (within : (if p then first else second).2 ≤ n) (pos : p → first.2 ≤ n → a = a')
    (neg : ¬ p → second.2 ≤ n → b = b') : (if p then a else b) = if p then a' else b' := by
  by_cases holds : p
  · rw [if_pos holds] at within ⊢
    rw [if_pos holds, pos holds within]
  · rw [if_neg holds] at within ⊢
    rw [if_neg holds, neg holds within]

/-- **A token that ends before a divider** is the same whatever follows the divider. -/
theorem Token.read_cut {c z : Char} {text tail back : List Char} (divider : isDivider z = true)
    (cuts : Cuts z tail) (within : (Token.read c (text ++ z :: back)).2 ≤ text.length) :
    Token.read c (text ++ tail) = Token.read c text := by
  have stops := of_divider (p := fun z => isBlank z = false) divider (by decide)
  have marks := of_divider (p := fun z => z ∉ ['-'] ∧ z ∉ ['*'] ∧ z ∉ ['!', '-', '-'] ∧
    z ∉ ['-', '>'] ∧ z ≠ quotationMark ∧ z ≠ apostrophe ∧ z ≠ '=') divider
    ⟨by decide, by decide, by decide, by decide, by decide, by decide⟩
  obtain ⟨hyphen, star, opens, closes, quotation, apostrophe_, equals⟩ := marks
  have again : Cuts z (z :: back) := .inr ⟨back, rfl⟩
  have cons : ∀ more, c :: (text ++ more) = c :: text ++ more := fun _ => rfl
  -- Of what follows the text, no test of a case sees more than it sees of the text alone.
  unfold Token.read at within ⊢
  simp only [cons, takeWhile_cut stops again, startsIdent_cut divider again,
    startsDigit_cut divider again, startsWith_cut hyphen again, startsWith_cut star again,
    startsWith_cut opens again, startsWith_cut closes again, startsNumeral_cut divider again]
    at within
  simp only [cons, takeWhile_cut stops cuts, startsIdent_cut divider cuts,
    startsDigit_cut divider cuts, startsWith_cut hyphen cuts, startsWith_cut star cuts,
    startsWith_cut opens cuts, startsWith_cut closes cuts, startsNumeral_cut divider cuts]
  refine ite_cut within (fun _ _ => rfl) fun _ within => ?_
  refine ite_cut within (fun quote within => ?_) fun _ within => ?_
  · have other : z ≠ c := by
      rintro rfl
      simp [quotation, apostrophe_] at quote
    rw [quoted_cut divider other cuts within]
  refine ite_cut within (fun _ within => ?_) fun _ within => ?_
  · refine ite_cut within (fun _ within => ?_) fun _ within => ?_
    · rw [name_cut divider cuts within]
    · refine ite_cut within (fun _ within => ?_) fun _ _ => rfl
      rw [name_cut divider cuts within]
  refine ite_cut within (fun _ within => ?_) fun _ within => ?_
  · rw [name_cut divider cuts within]
  refine ite_cut within (fun comment within => ?_) fun _ within => ?_
  · cases text with
    | nil => simp [startsWith] at comment
    | cons d rest =>
        simp only [List.cons_append, List.drop_one, List.tail_cons, List.length_cons,
          Nat.add_le_add_iff_right] at within ⊢
        rw [commentText_cut divider cuts within]
  refine ite_cut within (fun _ _ => rfl) fun _ within => ?_
  refine ite_cut within (fun _ within => ?_) fun _ within => ?_
  · have fits : (numeric (c :: text ++ z :: back)).2 ≤ (c :: text).length := by
      rw [List.length_cons]
      omega
    rw [numeric_cut divider cuts fits]
  refine ite_cut within (fun _ _ => rfl) fun _ within => ?_
  refine ite_cut within (fun _ within => ?_) fun _ _ => ?_
  · have fits : (identLike (c :: text ++ z :: back)).2 ≤ (c :: text).length := by
      rw [List.length_cons]
      omega
    rw [identLike_cut divider cuts fits]
  · cases text with
    | nil =>
        rcases cuts with rfl | ⟨more, rfl⟩
        · rfl
        · cases matcher? c <;> simp [equals]
    | cons d rest =>
        cases matcher? c with
        | none => rfl
        | some token => by_cases equal : d = '=' <;> simp [equal]

theorem lexemesFrom_cons (here : Location) (c : Char) (rest : List Char) :
    lexemesFrom here (c :: rest) =
      ⟨(Token.read c rest).1, c :: rest.take (Token.read c rest).2, here⟩ ::
        lexemesFrom (here.advance (c :: rest.take (Token.read c rest).2))
          (rest.drop (Token.read c rest).2) := by
  rw [lexemesFrom]
  rfl

/-- **The lexemes up to a divider** do not depend on what follows it: they are those of
the text up to there. -/
theorem lexemesFrom_cut {z : Char} {text tail back : List Char} {here : Location}
    {front rest : List Lexeme} (divider : isDivider z = true) (cuts : Cuts z tail)
    (found : lexemesFrom here (text ++ z :: back) = front ++ rest)
    (whole : Lexeme.textOf front = text) :
    ∃ there, lexemesFrom here (text ++ tail) = front ++ lexemesFrom there tail := by
  induction front generalizing here text with
  | nil =>
      subst whole
      exact ⟨here, rfl⟩
  | cons lexeme others ih =>
      cases text with
      | nil =>
          rw [List.nil_append, lexemesFrom_cons, List.cons_append, List.cons.injEq] at found
          rw [Lexeme.textOf, List.flatMap_cons, ← found.1] at whole
          cases whole
      | cons c text =>
          rw [List.cons_append, lexemesFrom_cons, List.cons_append, List.cons.injEq] at found
          obtain ⟨isFirst, found⟩ := found
          rw [Lexeme.textOf, List.flatMap_cons, ← isFirst, List.cons_append,
            List.cons.injEq] at whole
          replace whole := whole.2
          have within : (Token.read c (text ++ z :: back)).2 ≤ text.length := by
            have lengths := congrArg List.length whole
            rw [List.length_append, List.length_take, List.length_append, List.length_cons]
              at lengths
            omega
          have same := Token.read_cut divider (.inr ⟨back, rfl⟩) within
          have also := Token.read_cut divider cuts within
          rw [same] at within found whole isFirst
          rw [List.take_append_of_le_length within] at whole isFirst found
          rw [List.drop_append_of_le_length within] at found
          have remains : Lexeme.textOf others = text.drop (Token.read c text).2 := by
            have parts := whole.trans (List.take_append_drop (Token.read c text).2 text).symm
            exact List.append_cancel_left parts
          obtain ⟨there, more⟩ := ih found remains
          refine ⟨there, ?_⟩
          rw [List.cons_append, lexemesFrom_cons, also, List.take_append_of_le_length within,
            List.drop_append_of_le_length within, more, isFirst, List.cons_append]

end ApplyRule
