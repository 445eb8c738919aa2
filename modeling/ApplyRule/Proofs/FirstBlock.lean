/-
# ApplyRule.Proofs.FirstBlock -- a text around its first block

A text is split around a block of a bracket's shape where a bracket or a function opens
one, outside all others, and what matches it closes it (`Split.Around`).  Before it there
are leaves and blocks of other shapes, and nothing in them is left open.  There is such a
split just where there is such a block (`split?_eq_some_iff`).

The closer is a divider, so no token before it depends on what follows it, and the lexemes
up to the opener and inside the block are grouped without it.  So the text is its parts, and
any text may stand after the closer in the place of what does (`split?_first`).
-/
import ApplyRule.Proofs.OuterTokens

namespace ApplyRule

set_option autoImplicit false

open Text Scan Component

/-! ## Writing a bracket -/

namespace Bracket

/-- The character that opens a bracket. -/
def opener : Bracket → Char
  | round => '('
  | square => '['
  | curly => '{'

/-- The character that closes a bracket. -/
def closer : Bracket → Char
  | round => ')'
  | square => ']'
  | curly => '}'

theorem mark?_opening (bracket : Bracket) :
    (Token.opening bracket).mark? = some bracket.opener := by
  cases bracket <;> rfl

theorem mark?_closing (bracket : Bracket) :
    (Token.closing bracket).mark? = some bracket.closer := by
  cases bracket <;> rfl

theorem isDivider_closer (bracket : Bracket) : isDivider bracket.closer = true := by
  cases bracket <;> rfl

theorem single_closer (bracket : Bracket) : single bracket.closer = .closing bracket := by
  cases bracket <;> rfl

end Bracket

theorem Token.eq_closing {token : Token} {bracket : Bracket}
    (closes : token.closes? = some bracket) : token = .closing bracket := by
  cases token <;> simp_all [Token.closes?]

/-- What closes a bracket in a text is written as the bracket's character. -/
theorem Lexeme.closer_of_closes {here : Location} {text : List Char} {lexeme : Lexeme}
    {bracket : Bracket} (member : lexeme ∈ lexemesFrom here text)
    (closes : lexeme.token.closes? = some bracket) :
    lexeme.token = .closing bracket ∧ lexeme.text = [bracket.closer] := by
  have isCloser := Token.eq_closing closes
  exact ⟨isCloser, (written_of_mem_lexemes member).mark _ (isCloser ▸ bracket.mark?_closing)⟩

theorem urlToken?_ne_function {text : List Char} {token : Token} {length : Nat} {called : String}
    (found : urlToken? text = some (token, length)) : token ≠ .function called := by
  rintro rfl
  unfold urlToken? at found
  dsimp only at found
  split at found
  · cases found
  · split at found
    · cases found
    · split at found <;> cases found

/-- A function is a name and the round bracket that directly follows it. -/
theorem identLike_function {text : List Char} {called : String} {length : Nat}
    (read : identLike text = (.function called, length)) :
    ∃ written, text.take length = written ++ ['('] ∧
      name text = (called.toList, written.length) := by
  have ends {more : List Char} (next : text.drop (name text).2 = '(' :: more) :
      ∃ written, text.take ((name text).2 + 1) = written ++ ['('] ∧
        name text = ((String.ofList (name text).1).toList, written.length) := by
    have some_ := congrArg List.length next
    rw [List.length_drop, List.length_cons] at some_
    refine ⟨text.take (name text).2, by rw [List.take_add, next]; rfl, ?_⟩
    rw [String.toList_ofList, List.length_take_of_le (by omega)]
  unfold identLike at read
  dsimp only at read
  split at read
  · rename_i next
    split at read
    · split at read
      · rename_i found
        cases read
        exact absurd rfl (urlToken?_ne_function found)
      · cases read
        exact ends next
    · cases read
      exact ends next
  · cases read

/-- If a function was read at the front of `c :: rest`, it is a name and the round bracket that
directly follows it. -/
def Token.NamedFunction (c : Char) (rest : List Char) (read : Token × Nat) : Prop :=
  ∀ called, read.1 = .function called → ∃ written, c :: rest.take read.2 = written ++ ['('] ∧
    name (c :: rest) = (called.toList, written.length)

theorem Token.namedFunction_ite {c : Char} {rest : List Char} {test : Prop} {_ : Decidable test}
    {one other : Token × Nat} (passed : Token.NamedFunction c rest one)
    (failed : Token.NamedFunction c rest other) :
    Token.NamedFunction c rest (if test then one else other) :=
  iteInduction (fun _ => passed) fun _ => failed

theorem Token.namedFunction_read (c : Char) (rest : List Char) :
    Token.NamedFunction c rest (Token.read c rest) := by
  unfold Token.read
  refine namedFunction_ite nofun (namedFunction_ite ?_ (namedFunction_ite ?_ (namedFunction_ite
    nofun (namedFunction_ite nofun (namedFunction_ite nofun (namedFunction_ite ?_
      (namedFunction_ite nofun (namedFunction_ite ?_ ?_))))))))
  · dsimp only
    split <;> nofun
  · split
    · nofun
    · split <;> nofun
  · unfold numeric
    dsimp only
    split
    · nofun
    · split <;> nofun
  · intro called isFunction
    generalize read : identLike (c :: rest) = found at isFunction ⊢
    obtain ⟨token, length⟩ := found
    cases isFunction
    obtain ⟨written, whole, named⟩ := identLike_function read
    cases length with
    | zero => simp at whole
    | succ more => exact ⟨written, whole, named⟩
  · split
    · rename_i found
      unfold matcher? at found
      split at found <;> cases found <;> nofun
    · unfold single
      split <;> nofun

/-- The lexeme is written as what opens a bracket, where `rest` follows: as the bracket's
character, or as a name and the round bracket that directly follows it. -/
inductive Lexeme.Opens (bracket : Bracket) (rest : List Char) (lexeme : Lexeme) : Prop
  | mark (isBracket : lexeme.token = .opening bracket) (written : lexeme.text = [bracket.opener])
  | function {called : String} {own : List Char} (isRound : bracket = .round)
      (isFunction : lexeme.token = .function called) (written : lexeme.text = own ++ ['('])
      (named : name (own ++ '(' :: rest) = (called.toList, own.length))

/-- What opens a bracket in a text is written so. -/
theorem Lexeme.opens_of_lexemesFrom {here : Location} {text : List Char} {lexeme : Lexeme}
    {following : List Lexeme} {bracket : Bracket}
    (read : lexemesFrom here text = lexeme :: following)
    (opens : lexeme.token.opens? = some bracket) :
    lexeme.Opens bracket (textOf following) := by
  cases text with
  | nil => rw [lexemesFrom] at read; cases read
  | cons c rest =>
      rw [lexemesFrom_cons] at read
      obtain ⟨own, later⟩ := List.cons.inj read
      have written := Token.written_read c rest here
      have function := Token.namedFunction_read c rest
      rw [own] at written
      have token : (Token.read c rest).1 = lexeme.token := by rw [← own]
      have text : c :: rest.take (Token.read c rest).2 = lexeme.text := by rw [← own]
      have follows : textOf following = rest.drop (Token.read c rest).2 := by
        rw [← later, textOf_lexemesFrom]
      cases kind : lexeme.token with
      | opening other =>
          rw [kind] at opens
          cases opens
          exact .mark kind (written.mark _ (kind ▸ bracket.mark?_opening))
      | function called =>
          rw [kind] at opens
          cases opens
          obtain ⟨own, whole, named⟩ := function called (token.trans kind)
          rw [text] at whole
          refine .function rfl kind whole ?_
          rw [← named, List.append_cons, ← whole, ← text, follows, List.cons_append,
            List.take_append_drop]
      | _ => rw [kind] at opens; cases opens

/-! ## A block that is closed -/

theorem split?_eq_group (there : Location) (bracket : Bracket) (text : List Char) :
    split? bracket text = Split.ofComponents? bracket (group (lexemesFrom there text)) := by
  rw [split?_eq, plain_eq_group there, Split.ofComponents?_unplaced]

section Cut

variable {bracket : Bracket} {source : List Char} {there : Location} {stack : List Bracket}
  {opener closer : Lexeme} {front body rest : List Component}

/-- A text of a body up to a closer is split around the block that this closes, whatever
follows, if nothing before the block is what a split is around. -/
theorem split?_of_levels
    (found : (levels stack (lexemesFrom there source)).1.components =
      front ++ .block opener body (some closer) :: rest)
    (passed : ∀ c ∈ front, c.Passed bracket) (opens : opener.token.opens? = some bracket) :
    closer.token = .closing bracket ∧ closer.text = [bracket.closer] ∧
      ∀ after, split? bracket
        (textOf front ++ opener.text ++ textOf body ++ bracket.closer :: after) =
          some ⟨textOf front, textOf body, after⟩ := by
  obtain ⟨own, held, later, other, read, opensToo, closes, textFront, textBody, -, grouped⟩ :=
    levels_upTo_block found
  cases opens.symm.trans opensToo
  have among : closer ∈ lexemesFrom there source := by rw [read]; simp
  obtain ⟨isCloser, written⟩ := Lexeme.closer_of_closes among closes
  refine ⟨isCloser, written, fun after => ?_⟩
  -- The lexemes before the closer are those of any text that has it in this place.
  have upTo : textOf front ++ opener.text ++ textOf body =
      Lexeme.textOf (own ++ opener :: held) := by
    simp [Lexeme.textOf, ← textFront, ← textBody]
  have whole : source = Lexeme.textOf (own ++ opener :: held) ++
      bracket.closer :: Lexeme.textOf later := by
    rw [← textOf_lexemesFrom there source, read]
    simp [Lexeme.textOf, written]
  have split : lexemesFrom there (Lexeme.textOf (own ++ opener :: held) ++
      bracket.closer :: Lexeme.textOf later) = (own ++ opener :: held) ++ closer :: later := by
    rw [← whole, read]
    simp
  obtain ⟨here, cut⟩ := lexemesFrom_cut bracket.isDivider_closer (.inr ⟨after, rfl⟩) split rfl
  rw [lexemesFrom_cons, Token.read_divider bracket.isDivider_closer, bracket.single_closer] at cut
  rw [upTo, split?_eq_group there, cut, List.append_assoc, List.cons_append, grouped _ _ rfl]
  refine Split.ofComponents?_eq_some.mpr ⟨_, _, _, _, _, rfl, passed, opens, ?_⟩
  rw [textOf_group, textOf_lexemesFrom]
  rfl

end Cut

/-! ## The first block -/

/-- A text is split around its first block of a shape: what opens the block is written so,
what closes it matches it, and before it stand closed components that open no block of the
shape. -/
structure Split.Around (bracket : Bracket) (text : List Char) (split : Split) (opener : Lexeme) :
    Prop where
  parts : ∃ front body closer rest,
    Component.read text = front ++ .block opener body (some closer) :: rest ∧
    (∀ c ∈ front, c.Closed ∧ c.token.opens? ≠ some bracket) ∧
    closer.token = .closing bracket ∧ split = ⟨textOf front, textOf body, textOf rest⟩
  opens : opener.Opens bracket (split.body ++ bracket.closer :: split.after)

theorem Lexeme.Opens.opens? {bracket : Bracket} {rest : List Char} {lexeme : Lexeme}
    (opens : lexeme.Opens bracket rest) : lexeme.token.opens? = some bracket := by
  cases opens with
  | mark isBracket _ => rw [isBracket]; rfl
  | function isRound isFunction _ _ => rw [isFunction, isRound]; rfl

/-- Of what is closed in a text, that is passed which does not open the bracket. -/
theorem Component.Closed.passed_iff {text : List Char} {bracket : Bracket} {c : Component}
    (closed : c.Closed) (member : c ∈ Component.read text) :
    c.Passed bracket ↔ c.token.opens? ≠ some bracket := by
  rcases (placed_read text).shape member with
    ⟨lexeme, rfl, leaf⟩ | ⟨opener, body, closer, rfl, -⟩
  · exact iff_of_true trivial fun opens => by cases leaf.symm.trans opens
  · cases closed
    exact and_iff_right rfl

section First

variable {bracket : Bracket} {text : List Char} {split : Split} {opener : Lexeme}

/-- What a split is around has components before it that are passed. -/
theorem Split.Around.exists_parts (around : split.Around bracket text opener) :
    ∃ front body closer rest,
      Component.read text = front ++ .block opener body (some closer) :: rest ∧
      (∀ c ∈ front, c.Passed bracket) ∧ opener.token.opens? = some bracket ∧
      split = ⟨textOf front, textOf body, textOf rest⟩ := by
  obtain ⟨⟨front, body, closer, rest, read, all, -, rfl⟩, opens⟩ := around
  refine ⟨front, body, closer, rest, read, fun c member => ?_, opens.opens?, rfl⟩
  have among : c ∈ Component.read text := read ▸ List.mem_append_left _ member
  exact ((all c member).1.passed_iff among).mpr (all c member).2

/-- **A text is split** just where it has a first block of the shape, and around it. -/
theorem split?_eq_some_iff :
    split? bracket text = some split ↔ ∃ opener, split.Around bracket text opener := by
  refine Split.ofComponents?_eq_some.trans ⟨?_, ?_⟩
  · rintro ⟨front, opener, body, closer, rest, read, passed, opens, rfl⟩
    obtain ⟨own, held, later, other, lexemes, opensToo, closes, -, textBody, last, -⟩ :=
      levels_upTo_block read
    cases opens.symm.trans opensToo
    have among : closer ∈ ApplyRule.lexemes text := by rw [lexemes]; simp
    obtain ⟨isCloser, written⟩ := Lexeme.closer_of_closes among closes
    refine ⟨opener, ⟨front, body, closer, rest, read, fun c member => ?_, isCloser, rfl⟩, ?_⟩
    · have among : c ∈ Component.read text := read ▸ List.mem_append_left _ member
      have closed := (read ▸ openEnded_read text).closed_before c member
      exact ⟨closed, (closed.passed_iff among).mp (passed c member)⟩
    · obtain ⟨there, again⟩ := lexemesFrom_suffix lexemes
      have shown := Lexeme.opens_of_lexemesFrom again opens
      have follows : Lexeme.textOf (held ++ closer :: later) =
          textOf body ++ bracket.closer :: textOf rest := by
        rw [last, ← group, textOf_group, ← textBody]
        simp [Lexeme.textOf, written]
      rwa [follows] at shown
  · rintro ⟨opener, around⟩
    obtain ⟨front, body, closer, rest, parts⟩ := around.exists_parts
    exact ⟨front, opener, body, closer, rest, parts⟩

/-- **A text is its parts, and what follows the closer does not matter.**  Where a text is
split, it is what is before the block, the block's opener, what is inside, the closer and what
is after; and with anything else after the closer it is split at the same places. -/
theorem split?_first (found : split? bracket text = some split) :
    ∃ opener, split.Around bracket text opener ∧
      text = split.before ++ opener.text ++ split.body ++ bracket.closer :: split.after ∧
      ∀ after, split? bracket
        (split.before ++ opener.text ++ split.body ++ bracket.closer :: after) =
          some { split with after } := by
  obtain ⟨opener, around⟩ := split?_eq_some_iff.mp found
  obtain ⟨front, body, closer, rest, read, passed, opens, rfl⟩ := around.exists_parts
  obtain ⟨-, written, fits⟩ := split?_of_levels read passed opens
  refine ⟨opener, around, ?_, fits⟩
  have whole := congrArg textOf read
  rw [textOf_read] at whole
  simpa [textOf, Component.text, written] using whole

/-- Before a function there is a block of another shape, and inside it closing brackets in a
string, a comment and another block: it is split around, whatever follows. -/
theorem split?_first_function :
    split? .round "a[)] var(\")\" /*)*/ {)} b) c)".toList =
      some ⟨"a[)] ".toList, "\")\" /*)*/ {)} b".toList, " c)".toList⟩ ∧
    ∀ after, split? .round ("a[)] var(\")\" /*)*/ {)} b)".toList ++ after) =
      some ⟨"a[)] ".toList, "\")\" /*)*/ {)} b".toList, after⟩ := by
  have found : split? .round "a[)] var(\")\" /*)*/ {)} b) c)".toList =
      some ⟨"a[)] ".toList, "\")\" /*)*/ {)} b".toList, " c)".toList⟩ := by
    decide +kernel
  obtain ⟨opener, -, whole, fits⟩ := split?_first found
  have known : "a[)] var(\")\" /*)*/ {)} b) c)".toList = "a[)] ".toList ++ "var(".toList ++
      "\")\" /*)*/ {)} b".toList ++ Bracket.round.closer :: " c)".toList := by
    decide
  have written : opener.text = "var(".toList :=
    List.append_cancel_left (List.append_cancel_right
      (List.append_cancel_right (whole.symm.trans known)))
  rw [written] at fits
  exact ⟨found, fits⟩

end First

end ApplyRule
