/-
# ApplyRule.Proofs.Lexeme -- what a token says about the text it was read from

Most tokens can be written in many ways.  Two kinds cannot: a bracket, a colon, a
semicolon or a comma is one character (`Token.mark?`), and a comment is its text
between the comment marks, of which the last is missing only where the end of
the text cuts the comment off (`Lexeme.isCut`).

* `written_of_mem_lexemes`: every lexeme of a text is written that way;
* `blank_of_mem_lexemes`: white space is written in blanks;
* `cutLast_lexemes`: nothing follows a comment that is cut off.
-/
import ApplyRule.Token.Scan

namespace ApplyRule

set_option autoImplicit false

open Text Scan

/-- The one character that the token can be written as. -/
def Token.mark? : Token → Option Char
  | .opening .round => some '('
  | .opening .square => some '['
  | .opening .curly => some '{'
  | .closing .round => some ')'
  | .closing .square => some ']'
  | .closing .curly => some '}'
  | .colon => some ':'
  | .semicolon => some ';'
  | .comma => some ','
  | _ => none

/-- Whether the token can only be written in one way. -/
def Token.isFixed : Token → Bool
  | .comment _ => true
  | token => token.mark?.isSome

/-- Whether the token can be written in many ways, and not as white space. -/
def Token.isVaried : Token → Bool
  | .whitespace => false
  | token => !token.isFixed

theorem Token.isFixed_of_isVaried {token : Token} (varied : token.isVaried = true) :
    token.isFixed = false := by
  cases token with
  | whitespace => rfl
  | _ => simpa [isVaried] using varied

theorem Token.ne_whitespace_of_isVaried {token : Token} (varied : token.isVaried = true) :
    token ≠ .whitespace := by
  rintro rfl
  cases varied

/-! ## Reading one token -/

theorem isVaried_numeric (text : List Char) : (numeric text).1.isVaried = true := by
  unfold numeric
  dsimp only
  split
  · rfl
  · split <;> rfl

theorem isVaried_urlToken? {text : List Char} {token : Token} {length : Nat}
    (found : urlToken? text = some (token, length)) : token.isVaried = true := by
  unfold urlToken? at found
  dsimp only at found
  split at found
  · cases found; rfl
  · split at found
    · cases found
    · split at found <;> cases found <;> rfl

theorem isVaried_identLike (text : List Char) : (identLike text).1.isVaried = true := by
  unfold identLike
  dsimp only
  split
  · split
    · split
      · rename_i found
        exact isVaried_urlToken? found
      · rfl
    · rfl
  · rfl

theorem isVaried_matcher? {c : Char} {token : Token} (found : matcher? c = some token) :
    token.isVaried = true := by
  unfold matcher? at found
  split at found <;> cases found <;> rfl

theorem mark?_single {c m : Char} (marked : (single c).mark? = some m) : c = m := by
  unfold single at marked
  split at marked <;> cases marked <;> rfl

theorem single_ne_comment (c : Char) (text : String) : single c ≠ .comment text := by
  unfold single
  split <;> simp

/-- What can be read: a token with more than one way to write it, a comment, or
the token of a single character. -/
def Token.Possible (c : Char) (rest : List Char) (read : Token × Nat) : Prop :=
  read.1.isFixed = false ∨
    (c = '/' ∧ ∃ more, rest = '*' :: more ∧
      read = (.comment (String.ofList (commentText more).1), (commentText more).2 + 1)) ∨
    read = (single c, 0)

theorem Token.possible_ite {c : Char} {rest : List Char} {test : Prop} {_ : Decidable test}
    {one other : Token × Nat} (passed : test → Token.Possible c rest one)
    (failed : ¬ test → Token.Possible c rest other) :
    Token.Possible c rest (if test then one else other) :=
  iteInduction passed failed

theorem Token.possible_read (c : Char) (rest : List Char) :
    Token.Possible c rest (Token.read c rest) := by
  unfold Token.read
  refine possible_ite (fun _ => .inl rfl) fun _ => ?_
  refine possible_ite (fun _ => .inl ?_) fun _ => ?_
  · dsimp only
    split <;> rfl
  refine possible_ite (fun _ => .inl ?_) fun _ => ?_
  · split
    · rfl
    · split <;> rfl
  refine possible_ite (fun _ => .inl rfl) fun _ => ?_
  refine possible_ite (fun comment => .inr (.inl ?_)) fun _ => ?_
  · simp only [startsWith, Bool.and_eq_true, decide_eq_true_eq,
      List.isPrefixOf_iff_prefix] at comment
    obtain ⟨slash, more, star⟩ := comment
    subst star
    exact ⟨slash, more, rfl, rfl⟩
  refine possible_ite (fun _ => .inl rfl) fun _ => ?_
  refine possible_ite (fun _ => .inl ?_) fun _ => ?_
  · dsimp only
    exact isFixed_of_isVaried (isVaried_numeric _)
  refine possible_ite (fun _ => .inl rfl) fun _ => ?_
  refine possible_ite (fun _ => .inl ?_) fun _ => ?_
  · dsimp only
    exact isFixed_of_isVaried (isVaried_identLike _)
  split
  · exact .inl (isFixed_of_isVaried (isVaried_matcher? ‹matcher? c = some _›))
  · exact .inr (.inr rfl)

theorem mark?_of_isFixed {token : Token} (unfixed : token.isFixed = false) :
    token.mark? = none := by
  cases token with
  | comment text => rfl
  | _ => simpa [Token.isFixed] using unfixed

/-- A token that is one character is read from that character. -/
theorem Token.read_mark {c m : Char} {rest : List Char}
    (marked : (Token.read c rest).1.mark? = some m) : c = m ∧ (Token.read c rest).2 = 0 := by
  rcases Token.possible_read c rest with unfixed | ⟨-, more, -, read⟩ | read
  · rw [mark?_of_isFixed unfixed] at marked
    cases marked
  · rw [read] at marked
    cases marked
  · rw [read] at marked ⊢
    exact ⟨mark?_single marked, rfl⟩

/-- A comment's text stands before its end mark, or the text ends with it. -/
theorem commentText_cases (text : List Char) :
    text.take (commentText text).2 = (commentText text).1 ++ ['*', '/'] ∨
      text.take (commentText text).2 = (commentText text).1 ∧
        text.drop (commentText text).2 = [] := by
  fun_induction commentText text with
  | case1 => exact .inr ⟨rfl, rfl⟩
  | case2 rest => exact .inl rfl
  | case3 c rest _ more length read ih =>
      simp only [read] at ih
      simpa using ih

/-- A comment is read from its text between the marks, or it is cut off. -/
theorem Token.read_comment {c : Char} {rest : List Char} {text : String}
    (comment : (Token.read c rest).1 = .comment text) :
    c :: rest.take (Token.read c rest).2 = '/' :: '*' :: (text.toList ++ ['*', '/']) ∨
      c :: rest.take (Token.read c rest).2 = '/' :: '*' :: text.toList ∧
        rest.drop (Token.read c rest).2 = [] := by
  rcases Token.possible_read c rest with unfixed | ⟨slash, more, star, read⟩ | read
  · rw [comment] at unfixed
    cases unfixed
  · subst slash star
    rw [read] at comment ⊢
    cases comment
    simpa using commentText_cases more
  · rw [read] at comment
    exact (single_ne_comment c text comment).elim

/-! ## Lexemes -/

/-- Whether the lexeme is a comment that the end of the text cuts off. -/
def Lexeme.isCut (lexeme : Lexeme) : Bool :=
  match lexeme.token with
  | .comment text => lexeme.text = '/' :: '*' :: text.toList
  | _ => false

/-- The lexeme's text is as its token says, where that can be told. -/
structure Lexeme.Written (lexeme : Lexeme) : Prop where
  nonempty : lexeme.text ≠ []
  mark : ∀ m, lexeme.token.mark? = some m → lexeme.text = [m]
  comment : ∀ text, lexeme.token = .comment text → lexeme.isCut = false →
    lexeme.text = '/' :: '*' :: (text.toList ++ ['*', '/'])

theorem Token.written_read (c : Char) (rest : List Char) (here : Location) :
    Lexeme.Written
      ⟨(Token.read c rest).1, c :: rest.take (Token.read c rest).2, here⟩ where
  nonempty := List.cons_ne_nil _ _
  mark m marked := by
    obtain ⟨same, alone⟩ := Token.read_mark marked
    rw [alone, same, List.take_zero]
  comment text comment whole := by
    rcases Token.read_comment comment with closed | ⟨cut, -⟩
    · exact closed
    · simp_all [Lexeme.isCut]

/-- Every lexeme of a text is written as its token says. -/
theorem written_of_mem_lexemes {here : Location} {text : List Char} {lexeme : Lexeme}
    (found : lexeme ∈ lexemesFrom here text) : lexeme.Written := by
  fun_induction lexemesFrom here text with
  | case1 => cases found
  | case2 here c rest token length read own ih =>
      rcases List.mem_cons.1 found with rfl | later
      · have := Token.written_read c rest here
        simpa only [read] using this
      · exact ih later

/-! ### White space -/

theorem single_ne_whitespace (c : Char) : single c ≠ .whitespace := by
  unfold single
  split <;> exact Token.noConfusion

theorem Token.ne_ite {token : Token} {test : Prop} {_ : Decidable test}
    {one other : Token × Nat} (passed : one.1 ≠ token) (failed : other.1 ≠ token) :
    (if test then one else other).1 ≠ token := by
  split
  · exact passed
  · exact failed

/-- What does not start with a blank is not white space. -/
theorem Token.read_ne_whitespace {c : Char} {rest : List Char} (visible : isBlank c ≠ true) :
    (Token.read c rest).1 ≠ .whitespace := by
  unfold Token.read
  rw [if_neg visible]
  refine ne_ite ?_ (ne_ite ?_ (ne_ite nofun (ne_ite nofun (ne_ite nofun (ne_ite ?_
    (ne_ite nofun (ne_ite ?_ ?_)))))))
  · dsimp only
    split <;> exact nofun
  · split
    · exact nofun
    · split <;> exact nofun
  · dsimp only
    exact ne_whitespace_of_isVaried (isVaried_numeric _)
  · dsimp only
    exact ne_whitespace_of_isVaried (isVaried_identLike _)
  · split
    · exact ne_whitespace_of_isVaried (isVaried_matcher? ‹matcher? c = some _›)
    · exact single_ne_whitespace c

/-- White space is read from blanks and nothing else. -/
theorem Token.read_whitespace {c : Char} {rest : List Char}
    (white : (Token.read c rest).1 = .whitespace) :
    ∀ d ∈ c :: rest.take (Token.read c rest).2, isBlank d = true := by
  have blank : isBlank c = true :=
    Decidable.byContradiction fun visible => read_ne_whitespace visible white
  have read : Token.read c rest = (.whitespace, (rest.takeWhile isBlank).length) := by
    unfold Token.read
    rw [if_pos blank]
  intro d member
  rw [read, ← List.prefix_iff_eq_take.mp (List.takeWhile_prefix isBlank)] at member
  rcases List.mem_cons.mp member with rfl | later
  · exact blank
  · exact List.all_eq_true.mp List.all_takeWhile d later

theorem blank_of_mem_lexemes {here : Location} {text : List Char} {lexeme : Lexeme}
    (found : lexeme ∈ lexemesFrom here text) (white : lexeme.token = .whitespace) :
    ∀ c ∈ lexeme.text, isBlank c = true := by
  fun_induction lexemesFrom here text with
  | case1 => cases found
  | case2 here c rest token length read own ih =>
      rcases List.mem_cons.1 found with rfl | later
      · have blanks := @Token.read_whitespace c rest
        simp only [read] at blanks
        exact blanks white
      · exact ih later

/-! ### Comments that are cut off -/

/-- Nothing follows a comment that is cut off. -/
def CutLast : List Lexeme → Prop
  | [] => True
  | lexeme :: rest => (lexeme.isCut = true → rest = []) ∧ CutLast rest

theorem Token.drop_eq_nil_of_isCut {c : Char} {rest : List Char} {here : Location}
    (cut : Lexeme.isCut
      ⟨(Token.read c rest).1, c :: rest.take (Token.read c rest).2, here⟩ = true) :
    rest.drop (Token.read c rest).2 = [] := by
  unfold Lexeme.isCut at cut
  split at cut
  · rename_i text comment
    rcases Token.read_comment comment with closed | ⟨-, ended⟩
    · simp_all
    · exact ended
  · cases cut

theorem cutLast_lexemes (here : Location) (text : List Char) :
    CutLast (lexemesFrom here text) := by
  fun_induction lexemesFrom here text with
  | case1 => trivial
  | case2 here c rest token length read own ih =>
      refine ⟨fun cut => ?_, ih⟩
      have ended : rest.drop length = [] := by
        have := @Token.drop_eq_nil_of_isCut c rest here
        simp only [read] at this
        exact this cut
      rw [ended, lexemesFrom]

end ApplyRule
