/-
# ApplyRule.Proofs.LineBreaks -- where the lexemes of a text stand

A carriage return and a line feed directly after it make one line break.  No token ends
between the two (`Token.uncut_read`): white space and comments go on, a string is broken
off before a line break, and an escape takes in both characters.

So the line breaks of a text are those of its parts, cut where the lexemes are cut, and a
lexeme starts where the text before it ends (`standing_lexemesFrom`).  `Text.locate` says
where that is without walking the text: a line for each line break, a column for each
UTF-16 unit of the last line.  Of two places the later one is on a later line, or further
right (`Location.before_locate`).
-/
import ApplyRule.Proofs.Locality
import ApplyRule.Proofs.Reading

namespace ApplyRule

set_option autoImplicit false

open Text

namespace Text

/-! ## Lines and columns -/

/-- The line breaks of a text. -/
def lineBreaks : List Char → Nat
  | [] => 0
  | '\r' :: '\n' :: rest => lineBreaks rest + 1
  | c :: rest => lineBreaks rest + if isNewline c then 1 else 0

/-- What stands after the last line break. -/
def lastLine (text : List Char) : List Char :=
  takeEnd (fun c => !isNewline c) text

/-- The UTF-16 units of a text. -/
def width : List Char → Nat
  | [] => 0
  | c :: rest => units c + width rest

/-- The line and the column, from one, of what follows a text. -/
def locate (text : List Char) : Location :=
  ⟨lineBreaks text + 1, width (lastLine text) + 1⟩

theorem units_pos (c : Char) : 0 < units c := by
  unfold units
  split <;> decide

theorem lineBreaks_cons {c : Char} {rest : List Char}
    (single : ∀ more, c = '\r' → rest = '\n' :: more → False) :
    lineBreaks (c :: rest) = lineBreaks rest + if isNewline c then 1 else 0 := by
  rw [lineBreaks]
  exact single

theorem lineBreaks_eq_zero {text : List Char} :
    lineBreaks text = 0 ↔ ∀ c ∈ text, isNewline c = false := by
  fun_induction lineBreaks text with
  | case1 => simp
  | case2 rest ih => simp [isNewline]
  | case3 c rest single ih =>
      cases newline : isNewline c <;> simp [newline, ih]

theorem lastLine_cons_newline {c : Char} (rest : List Char) (newline : isNewline c = true) :
    lastLine (c :: rest) = lastLine rest := by
  unfold lastLine takeEnd
  rw [dropEnd]
  split
  · rename_i none_
    simp [none_, newline]
  · simp

/-- A text without line breaks is one line. -/
theorem lastLine_of_lineBreaks {text : List Char} (none_ : lineBreaks text = 0) :
    lastLine text = text := by
  have solid := lineBreaks_eq_zero.mp none_
  have nothing : dropEnd (fun c => !isNewline c) text = [] := by
    clear none_
    induction text with
    | nil => rfl
    | cons c rest ih =>
        obtain ⟨first, later⟩ := List.forall_mem_cons.mp solid
        simp [dropEnd, ih later, first]
  rw [lastLine, takeEnd, nothing, List.length_nil, List.drop_zero]

theorem lastLine_cons {c : Char} {rest : List Char} (some_ : lineBreaks rest ≠ 0) :
    lastLine (c :: rest) = lastLine rest := by
  unfold lastLine takeEnd
  rw [dropEnd]
  split
  · rename_i nothing
    have solid := dropEnd_eq_nil nothing
    refine absurd (lineBreaks_eq_zero.mpr fun d member => ?_) some_
    simpa using solid d member
  · simp

namespace Location

theorem advance_cons {here : Location} {c : Char} {rest : List Char}
    (single : ∀ more, c = '\r' → rest = '\n' :: more → False) :
    here.advance (c :: rest) =
      if isNewline c then here.nextLine.advance rest
      else advance ⟨here.line, here.column + units c⟩ rest := by
  rw [advance]
  exact single

/-- Walking a text is counting its line breaks and the units of its last line. -/
theorem advance_eq (here : Location) (text : List Char) :
    here.advance text =
      if lineBreaks text = 0 then ⟨here.line, here.column + width text⟩
      else ⟨here.line + lineBreaks text, width (lastLine text) + 1⟩ := by
  -- Whatever a line break is made of, the last line is that of the text after it.
  have after {here : Location} {rest : List Char} (ih : here.nextLine.advance rest =
      if lineBreaks rest = 0 then ⟨here.nextLine.line, here.nextLine.column + width rest⟩
      else ⟨here.nextLine.line + lineBreaks rest, width (lastLine rest) + 1⟩) :
      here.nextLine.advance rest =
        ⟨here.line + (lineBreaks rest + 1), width (lastLine rest) + 1⟩ := by
    rw [ih]
    split
    · rename_i none_
      rw [none_, lastLine_of_lineBreaks none_, nextLine, Nat.add_comm (width rest)]
    · rw [nextLine, Nat.add_right_comm, Nat.add_assoc]
  fun_induction here.advance text with
  | case1 here => simp [lineBreaks, width]
  | case2 here rest ih =>
      rw [after ih, lineBreaks, if_neg (Nat.succ_ne_zero _),
        lastLine_cons_newline _ (by decide), lastLine_cons_newline _ (by decide)]
  | case3 here c rest single newline ih =>
      rw [after ih, lineBreaks_cons single, if_pos newline, if_neg (Nat.succ_ne_zero _),
        lastLine_cons_newline _ newline]
  | case4 here c rest single solid ih =>
      have same : lineBreaks (c :: rest) = lineBreaks rest := by
        rw [lineBreaks_cons single, if_neg solid, Nat.add_zero]
      rw [ih, same]
      by_cases none_ : lineBreaks rest = 0
      · simp only [if_pos none_, width, Nat.add_assoc]
      · rw [if_neg none_, if_neg none_, lastLine_cons none_]

/-- A text ends where its line breaks and its last line say. -/
theorem advance_first (text : List Char) : first.advance text = locate text := by
  rw [advance_eq, locate]
  split
  · rename_i none_
    rw [none_, lastLine_of_lineBreaks none_, first, Nat.add_comm 1]
  · rw [first, Nat.add_comm 1]

example : locate "a\r\n\n\rb\x0c𝄞c".toList = ⟨5, 4⟩ := by decide

/-- A place is before another: on an earlier line, or further left on the same line. -/
def Before (here there : Location) : Prop :=
  here.line < there.line ∨ here.line = there.line ∧ here.column < there.column

/-- A text does not end before it starts. -/
theorem not_before_advance (here : Location) (text : List Char) :
    ¬ (here.advance text).Before here := by
  rw [advance_eq]
  split
  · simp [Before]
  · simp only [Before]
    omega

end Location

/-! ## Cutting a text between its line breaks -/

/-- No line break goes on from the end of one text into another. -/
def Apart (front back : List Char) : Prop :=
  front.getLast? = some '\r' → back.head? ≠ some '\n'

theorem apart_nil (back : List Char) : Apart [] back := nofun

theorem Apart.of_head {front back other : List Char} (apart : Apart front back)
    (same : other.head? = back.head?) : Apart front other :=
  fun last => same ▸ apart last

theorem Apart.tail {c : Char} {rest back : List Char} (apart : Apart (c :: rest) back) :
    Apart rest back := by
  intro last
  refine apart ?_
  cases rest with
  | nil => cases last
  | cons d more => rwa [List.getLast?_cons_cons]

theorem apart_of_visible {c : Char} (front more : List Char) (solid : isNewline c = false) :
    Apart front (c :: more) := by
  rintro - same
  cases same
  cases solid

/-- Walking two texts one after the other is walking both at once. -/
theorem Location.advance_append (here : Location) {front back : List Char}
    (apart : Apart front back) :
    (here.advance front).advance back = here.advance (front ++ back) := by
  have still {c : Char} {rest : List Char} (apart : Apart (c :: rest) back)
      (single : ∀ more, c = '\r' → rest = '\n' :: more → False) :
      ∀ more, c = '\r' → rest ++ back = '\n' :: more → False := by
    rintro more rfl same
    cases rest with
    | nil => exact apart rfl (by rw [← List.nil_append back, same]; rfl)
    | cons d others => exact single others rfl (by rw [(List.cons.inj same).1])
  fun_induction here.advance front with
  | case1 here => rfl
  | case2 here rest ih =>
      rw [ih apart.tail.tail]
      rfl
  | case3 here c rest single newline ih =>
      rw [ih apart.tail, List.cons_append, advance_cons (still apart single), if_pos newline]
  | case4 here c rest single solid ih =>
      rw [ih apart.tail, List.cons_append, advance_cons (still apart single), if_neg solid]

theorem advance_locate {front back : List Char} (apart : Apart front back) :
    (locate front).advance back = locate (front ++ back) := by
  rw [← Location.advance_first, ← Location.advance_first, Location.advance_append _ apart]

/-- **A later place.**  What follows a character that starts no line is after it. -/
theorem Location.before_locate {c : Char} (front more : List Char) (solid : isNewline c = false) :
    (locate front).Before (locate (front ++ c :: more)) := by
  have single : ∀ rest, c = '\r' → more = '\n' :: rest → False := by
    rintro rest rfl
    cases solid
  rw [← advance_locate (apart_of_visible front more solid), advance_cons single,
    if_neg (by simp [solid])]
  generalize locate front = here
  have least := not_before_advance ⟨here.line, here.column + units c⟩ more
  have positive := units_pos c
  simp only [Before] at least ⊢
  omega

end Text

namespace Scan

/-! ## The length of a token -/

/-- The first `n` characters of a text do not end inside a line break. -/
def Uncut (text : List Char) (n : Nat) : Prop :=
  Apart (text.take n) (text.drop n)

variable {text rest : List Char} {c : Char} {k n : Nat}

theorem uncut_zero (text : List Char) : Uncut text 0 := apart_nil _

/-- A cut in what a cut leaves. -/
theorem Uncut.add (first : Uncut text k) (second : Uncut (text.drop k) n) : Uncut text (k + n) := by
  unfold Uncut at *
  rw [List.take_add, ← List.drop_drop]
  intro last
  cases part : (text.drop k).take n with
  | nil =>
      -- Nothing more is taken, so nothing more is dropped, or nothing is left.
      rw [part, List.append_nil] at last
      rcases List.take_eq_nil_iff.mp part with rfl | none_
      · exact first last
      · simp [none_]
  | cons d more =>
      rw [List.getLast?_append, Option.or_of_isSome (by simp [part])] at last
      exact second last

theorem uncut_one (solid : c ≠ '\r') : Uncut (c :: rest) 1 := by
  intro last
  cases last
  exact absurd rfl solid

theorem Uncut.cons (solid : c ≠ '\r') (later : Uncut rest n) : Uncut (c :: rest) (n + 1) := by
  rw [Nat.add_comm]
  exact (uncut_one solid).add later

/-- A text is not cut where all of it is taken. -/
theorem uncut_of_drop (ended : text.drop n = []) : Uncut text n := by
  intro _
  simp [ended]

theorem uncut_of_prefix {front : List Char} (before : front <+: text) (solid : '\r' ∉ front) :
    Uncut text front.length := by
  intro last
  rw [← List.prefix_iff_eq_take.mp before] at last
  exact absurd (List.mem_of_getLast? last) solid

/-- One character more, which no line break starts with. -/
theorem uncut_succ {more : List Char} (next : text.drop n = c :: more) (solid : c ≠ '\r') :
    Uncut text (n + 1) := by
  intro last
  rw [List.take_add, next, List.take_succ_cons, List.take_zero, List.getLast?_concat] at last
  exact absurd (Option.some.inj last) solid

theorem drop_length_takeWhile (p : Char → Bool) (text : List Char) :
    text.drop (text.takeWhile p).length = text.dropWhile p := by
  have whole := List.takeWhile_append_dropWhile (p := p) (l := text)
  exact (congrArg (List.drop _) whole).symm.trans List.drop_left

/-- Characters of a class that has both or neither of a line break's two. -/
theorem uncut_takeWhile {p : Char → Bool} (both : p '\r' = true → p '\n' = true) :
    Uncut text (text.takeWhile p).length := by
  unfold Uncut
  rw [← List.prefix_iff_eq_take.mp (List.takeWhile_prefix p), drop_length_takeWhile]
  intro last next
  have stops := List.head?_dropWhile_not p text
  simp [next, both (List.mem_takeWhile_imp (List.mem_of_getLast? last))] at stops

theorem uncut_newlineLength (text : List Char) : Uncut text (newlineLength text) := by
  fun_cases newlineLength text with
  | case1 rest => exact nofun
  | case2 c rest single newline =>
      rintro last next
      cases last
      cases rest with
      | nil => cases next
      | cons d more => cases next; exact single more rfl rfl
  | case3 c rest single solid => exact uncut_zero _
  | case4 => exact uncut_zero _

theorem uncut_blankLength (text : List Char) : Uncut text (blankLength text) := by
  unfold blankLength
  split
  · exact uncut_zero _
  · split
    · rename_i space
      refine uncut_one ?_
      rintro rfl
      simp at space
    · exact uncut_newlineLength _

theorem uncut_escape (goesOn : startsLine text = false) : Uncut text (escape text).2 := by
  unfold escape
  split
  · exact uncut_zero _
  · rename_i c rest
    split
    · have digits : Uncut (c :: rest) (((c :: rest).take 6).takeWhile isHexDigit).length := by
        have before := (List.takeWhile_prefix isHexDigit).trans (List.take_prefix 6 (c :: rest))
        refine uncut_of_prefix before fun member => ?_
        exact absurd (List.mem_takeWhile_imp member) (by decide)
      exact digits.add (uncut_blankLength _)
    · refine uncut_one ?_
      rintro rfl
      cases goesOn

theorem uncut_name (text : List Char) : Uncut text (name text).2 := by
  fun_induction name text with
  | case1 => exact uncut_zero _
  | case2 rest line => exact uncut_zero _
  | case3 rest line escaped length read more moreLength recursive ih =>
      have first := uncut_escape ((Bool.not_eq_true _).mp line)
      rw [read] at first
      rw [recursive] at ih
      rw [Nat.add_comm moreLength]
      exact (first.add ih).cons (by decide)
  | case4 c rest other nameChar more moreLength recursive ih =>
      rw [recursive] at ih
      refine ih.cons ?_
      rintro rfl
      revert nameChar
      decide
  | case5 c rest other nameChar => exact uncut_zero _

theorem uncut_commentText (text : List Char) : Uncut text (commentText text).2 := by
  rcases commentText_cases text with closed | ⟨-, ended⟩
  · intro last
    rw [closed] at last
    simp at last
  · exact uncut_of_drop ended

theorem uncut_quoted {mark : Char} (other : mark ≠ '\r') (text : List Char) :
    Uncut text (quoted mark text).length := by
  fun_induction quoted mark text with
  | case1 => exact uncut_zero _
  | case2 rest => exact uncut_one other
  | case3 c rest noMark newline => exact uncut_zero _
  | case4 rest empty noMark noLine => exact uncut_one (by decide)
  | case5 rest some_ line noMark noLine ih =>
      rw [Run.skip, Nat.add_comm, Nat.add_right_comm]
      exact ((uncut_newlineLength rest).add ih).cons (by decide)
  | case6 rest some_ line escaped length read noMark noLine ih =>
      have first := uncut_escape ((Bool.not_eq_true _).mp line)
      rw [read] at first
      rw [Run.cons, Nat.add_comm, Nat.add_right_comm]
      exact (first.add ih).cons (by decide)
  | case7 c rest noMark noLine noEscape ih =>
      refine ih.cons ?_
      rintro rfl
      exact noLine (by decide)

/-! ### URLs -/

theorem ne_of_solid (solid : isBlank c ≠ true) : c ≠ '\r' := by
  rintro rfl
  exact solid (by decide)

theorem uncut_blanks (text : List Char) : Uncut text (text.takeWhile isBlank).length :=
  uncut_takeWhile fun _ => by decide

theorem uncut_url (text : List Char) : Uncut text (url text).length := by
  fun_induction url text with
  | case1 => exact uncut_zero _
  | case2 rest => exact uncut_one (by decide)
  | case3 c rest other blank gap none_ =>
      refine uncut_of_drop ?_
      rw [List.drop_succ_cons, drop_length_takeWhile, none_]
  | case4 c rest other blank gap next more some_ =>
      have left : (c :: rest).drop (gap + 1) = next :: more := by
        rw [List.drop_succ_cons, drop_length_takeWhile, some_]
      refine uncut_succ left (ne_of_solid ?_)
      have stops := List.head?_dropWhile_not isBlank rest
      simpa [some_] using stops
  | case5 c rest other solid bad => exact uncut_one (ne_of_solid solid)
  | case6 rest line other solid good => exact uncut_one (by decide)
  | case7 rest line escaped length read other solid good ih =>
      have first := uncut_escape ((Bool.not_eq_true _).mp line)
      rw [read] at first
      rw [Run.cons, Nat.add_comm, Nat.add_right_comm]
      exact (first.add ih).cons (by decide)
  | case8 c rest other solid good plain ih => exact ih.cons (ne_of_solid solid)

/-- What spoils a URL goes on to a closing bracket or to the end of the text. -/
theorem drop_urlRemains (text : List Char) :
    text.drop (urlRemains text) = [] ∨ ∃ more, text.drop (urlRemains text) = ')' :: more := by
  fun_induction urlRemains text with
  | case1 => exact .inl rfl
  | case2 rest ih => exact ih
  | case3 rest ih => exact ih
  | case4 rest _ _ => exact .inr ⟨rest, rfl⟩
  | case5 c rest bracket escape other ih => exact ih

theorem uncut_unquotedUrl {gap : Nat} (blanks : Uncut text gap) :
    Uncut text (unquotedUrl gap (text.drop gap)).2 := by
  unfold unquotedUrl
  dsimp only
  split
  · exact blanks.add (uncut_url _)
  · dsimp only
    rw [Nat.add_assoc gap]
    generalize (url (text.drop gap)).length = start
    have spoilt := drop_urlRemains ((text.drop gap).drop start)
    generalize urlRemains ((text.drop gap).drop start) = remains at spoilt ⊢
    rw [List.drop_drop, List.drop_drop] at spoilt
    rw [List.drop_drop, ← Nat.add_assoc gap]
    rcases spoilt with ended | ⟨more, closes⟩
    · rw [ended]
      exact uncut_of_drop ended
    · have one : (')' :: more).length.min 1 = 1 := Nat.min_eq_right (Nat.succ_pos _)
      rw [closes, one]
      exact uncut_succ closes (by decide)

theorem uncut_urlToken? {token : Token} (found : urlToken? text = some (token, n)) :
    Uncut text n := by
  rw [urlToken?_eq] at found
  split at found
  · cases found
    exact uncut_blanks _
  · rename_i c rest left
    split at found
    · cases found
    · simp only [Option.some.injEq] at found
      rw [← left, ← drop_length_takeWhile] at found
      have whole := uncut_unquotedUrl (uncut_blanks text)
      rwa [found] at whole

/-! ### Numbers -/

theorem uncut_sign (text : List Char) : Uncut text (sign text).2 := by
  unfold sign
  split
  · exact uncut_one (by decide)
  · exact uncut_one (by decide)
  · exact uncut_zero _

theorem uncut_digits (text : List Char) : Uncut text (digits text).length := by
  rw [digits, List.length_map]
  exact uncut_takeWhile (by decide)

theorem uncut_fraction (text : List Char) : Uncut text (fraction text).2 := by
  unfold fraction
  split
  · split
    · exact (uncut_digits _).cons (by decide)
    · exact uncut_zero _
  · exact uncut_zero _

theorem uncut_exponent (text : List Char) : Uncut text (exponent text).2 := by
  unfold exponent
  split
  · exact uncut_zero _
  · rename_i c rest
    dsimp only
    split
    · rename_i power
      rw [Nat.add_comm (digits _).length]
      refine ((uncut_sign rest).add (uncut_digits _)).cons ?_
      rintro rfl
      simp at power
    · exact uncut_zero _

theorem uncut_numeral (text : List Char) : Uncut text (numeral text).2 := by
  simp only [numeral, Nat.add_assoc]
  exact (uncut_sign _).add ((uncut_digits _).add ((uncut_fraction _).add (uncut_exponent _)))

theorem uncut_numeric (text : List Char) : Uncut text (numeric text).2 := by
  unfold numeric
  dsimp only
  split
  · exact uncut_succ ‹_› (by decide)
  · split
    · exact (uncut_numeral text).add (uncut_name _)
    · exact uncut_numeral text

/-! ### Tokens -/

theorem uncut_identLike (text : List Char) : Uncut text (identLike text).2 := by
  unfold identLike
  dsimp only
  split
  · rename_i rest opens
    have function : Uncut text ((name text).2 + 1) := uncut_succ opens (by decide)
    have left : text.drop ((name text).2 + 1) = rest := by
      rw [← List.drop_drop, opens, List.drop_succ_cons, List.drop_zero]
    split
    · split
      · rename_i token length found
        exact function.add (left ▸ uncut_urlToken? found)
      · exact function
    · exact function
  · exact uncut_name text

theorem uncut_mark {mark : List Char} (starts : startsWith mark text = true)
    (solid : '\r' ∉ mark) : Uncut text mark.length :=
  uncut_of_prefix (List.isPrefixOf_iff_prefix.mp starts) solid

/-- A length that is counted from the first character. -/
theorem Uncut.pred (solid : c ≠ '\r') (whole : Uncut (c :: rest) n) :
    Uncut (c :: rest) (n - 1 + 1) := by
  cases n with
  | zero => exact uncut_one solid
  | succ n => exact whole

end Scan

open Scan

theorem Token.uncut_ite {c : Char} {rest : List Char} {test : Prop} {_ : Decidable test}
    {one other : Token × Nat} (passed : test → Uncut (c :: rest) (one.2 + 1))
    (failed : ¬ test → Uncut (c :: rest) (other.2 + 1)) :
    Uncut (c :: rest) ((if test then one else other).2 + 1) := by
  split
  · exact passed ‹_›
  · exact failed ‹_›

/-- **No token ends inside a line break.** -/
theorem Token.uncut_read (c : Char) (rest : List Char) :
    Uncut (c :: rest) ((Token.read c rest).2 + 1) := by
  unfold Token.read
  refine uncut_ite (fun blank => ?_) fun solid => ?_
  · have whole := uncut_blanks (c :: rest)
    rwa [List.takeWhile_cons, if_pos blank] at whole
  have solid := ne_of_solid solid
  refine uncut_ite (fun quotes => (uncut_quoted solid rest).cons solid) fun _ => ?_
  refine uncut_ite (fun _ => ?_) fun _ => ?_
  · refine uncut_ite (fun _ => (uncut_name rest).cons solid) fun _ => ?_
    exact uncut_ite (fun _ => (uncut_name rest).cons solid) fun _ => uncut_one solid
  refine uncut_ite (fun _ => (uncut_name rest).cons solid) fun _ => ?_
  refine uncut_ite (fun comment => ?_) fun _ => ?_
  · simp only [startsWith, Bool.and_eq_true, List.isPrefixOf_iff_prefix] at comment
    obtain ⟨-, more, rfl⟩ := comment
    exact ((uncut_commentText more).cons (by decide)).cons solid
  refine uncut_ite (fun opens => ?_) fun _ => ?_
  · simp only [Bool.and_eq_true] at opens
    exact (uncut_mark opens.2 (by decide)).cons solid
  refine uncut_ite (fun _ => (uncut_numeric _).pred solid) fun _ => ?_
  refine uncut_ite (fun closes => ?_) fun _ => ?_
  · simp only [Bool.and_eq_true] at closes
    exact (uncut_mark closes.2 (by decide)).cons solid
  refine uncut_ite (fun _ => (uncut_identLike _).pred solid) fun _ => ?_
  split
  · exact (uncut_one (by decide)).cons solid
  · exact uncut_one solid

/-! ## Lexemes -/

/-- Each lexeme starts where the text before it ends, and the first after `front`. -/
def Lexeme.Standing : List Char → List Lexeme → Prop
  | _, [] => True
  | front, lexeme :: rest =>
      lexeme.start = locate front ∧ Standing (front ++ lexeme.text) rest

/-- **The lexemes of a text stand in it** where the text before them ends. -/
theorem standing_lexemesFrom {front text : List Char} (apart : Apart front text) :
    Lexeme.Standing front (lexemesFrom (locate front) text) := by
  generalize start : locate front = here
  fun_induction lexemesFrom here text generalizing front with
  | case1 => trivial
  | case2 here c rest token length read lexeme =>
      rename_i ih
      have uncut := Token.uncut_read c rest
      rw [read] at uncut
      have within : Apart front lexeme.text := apart.of_head rfl
      have after : Apart (front ++ lexeme.text) (rest.drop length) := by
        intro last
        rw [List.getLast?_append, Option.or_of_isSome (by simp [lexeme])] at last
        exact uncut last
      refine ⟨start.symm, ih after ?_⟩
      rw [← advance_locate within, start]
      rfl

theorem standing_lexemes (text : List Char) : Lexeme.Standing [] (lexemes text) :=
  standing_lexemesFrom (apart_nil text)

end ApplyRule
