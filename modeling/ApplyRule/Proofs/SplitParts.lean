/-
# ApplyRule.Proofs.SplitParts -- the parts of a text that is split

A split has three parts, and the brackets of its block are in none of them.  Where a
function opens the block, its name is in none of them either: it stands between the text
before the block and the bracket (`eq_append_of_split?`).  So the parts and the two
brackets make up the text just where no function opens the block.

A text that starts with the bracket has nothing before its block (`Split.Around.at_front`).
-/
import ApplyRule.Proofs.FirstBlock

namespace ApplyRule

set_option autoImplicit false

open Text Scan Component

/-! ## What starts with a bracket -/

/-- An opening bracket is read alone, whatever follows. -/
theorem Token.read_opener (bracket : Bracket) (rest : List Char) :
    Token.read bracket.opener rest = (.opening bracket, 0) := by
  cases bracket <;> cases rest <;> rfl

/-- What starts with an opening bracket is that bracket. -/
theorem Lexeme.token_of_opener {here : Location} {text : List Char} {lexeme : Lexeme}
    {bracket : Bracket} (member : lexeme ∈ lexemesFrom here text)
    (first : lexeme.text.head? = some bracket.opener) : lexeme.token = .opening bracket := by
  fun_induction lexemesFrom here text with
  | case1 => cases member
  | case2 here c rest token length read own ih =>
      rcases List.mem_cons.mp member with rfl | later
      · cases Option.some.inj first
        cases (Token.read_opener bracket rest).symm.trans read
        rfl
      · exact ih later

theorem Component.Sound.token_of_opener {source : List Char} {component : Component}
    {bracket : Bracket} (sound : component.Sound (lexemes source))
    (first : component.text.head? = some bracket.opener) :
    component.token = .opening bracket := by
  cases sound with
  | leaf own => exact Lexeme.token_of_opener own first
  | @block opener body closer own closed inside =>
      refine Lexeme.token_of_opener own ?_
      cases written : opener.text with
      | nil => exact absurd written (written_of_mem_lexemes own).nonempty
      | cons c more => simpa [Component.text, head, written] using first

/-! ## The parts -/

section Parts

variable {bracket : Bracket} {text : List Char} {split : Split} {opener : Lexeme}

/-- The opener of a split's block stands in the text. -/
theorem Split.Around.mem_lexemes (around : split.Around bracket text opener) :
    opener ∈ lexemes text := by
  obtain ⟨front, body, closer, rest, read, -⟩ := around.parts
  have sound := sound_read text (.block opener body (some closer)) (read ▸ by simp)
  cases sound with
  | block own _ _ => exact own

/-- A text that is split is what is before the block, the block, and what is after it. -/
theorem Split.Around.eq_append (around : split.Around bracket text opener) :
    text = split.before ++ opener.text ++ (split.body ++ bracket.closer :: split.after) := by
  obtain ⟨front, body, closer, rest, read, -, isCloser, rfl⟩ := around.parts
  have sound := sound_read text (.block opener body (some closer)) (read ▸ by simp)
  have written : closer.text = [bracket.closer] := by
    cases sound with
    | block _ closed _ =>
        exact (written_of_mem_lexemes (closed closer rfl).1).mark _
          (isCloser ▸ bracket.mark?_closing)
  have whole := congrArg textOf read
  rw [textOf_read] at whole
  simpa [textOf, Component.text, written] using whole

/-- What opens a bracket is the bracket's character, with a function's name before it if
it is not the character alone. -/
theorem Split.Around.exists_called (around : split.Around bracket text opener) :
    ∃ called, opener.text = called ++ [bracket.opener] ∧
      (called = [] ↔ opener.token = .opening bracket) ∧
      (called ≠ [] → bracket = .round ∧ ∃ value, opener.token = .function value ∧
        name (called ++ '(' :: (split.body ++ bracket.closer :: split.after)) =
          (value.toList, called.length)) := by
  cases around.opens with
  | mark isBracket written => exact ⟨[], written, iff_of_true rfl isBracket, absurd rfl⟩
  | @function value called isRound isFunction written named =>
      subst isRound
      refine ⟨called, written, ⟨?_, fun isBracket => ?_⟩, fun _ => ⟨rfl, value, isFunction, named⟩⟩
      · rintro rfl
        exact Lexeme.token_of_opener around.mem_lexemes (by rw [written]; rfl)
      · rw [isFunction] at isBracket
        cases isBracket

/-- A text that starts with the bracket is split around what that bracket opens. -/
theorem Split.Around.at_front (around : split.Around bracket text opener)
    (first : text.head? = some bracket.opener) :
    text = bracket.opener :: (split.body ++ bracket.closer :: split.after) := by
  obtain ⟨front, body, closer, rest, read, passed, -, rfl⟩ := around.parts
  have whole := congrArg textOf read
  rw [textOf_read] at whole
  have alone {c : Component} (member : c ∈ Component.read text)
      (starts : c.text.head? = text.head?) : c.token = .opening bracket :=
    (sound_read text c member).token_of_opener (starts.trans first)
  have solid {c : Component} (member : c ∈ Component.read text) (more : List Char) :
      (c.text ++ more).head? = c.text.head? := by
    refine List.head?_append_of_ne_nil _ ?_
    exact text_ne_nil (fun _ => written_of_mem_lexemes) (sound_read text c member)
  cases front with
  | cons c front =>
      -- What stands first would open the bracket, and is passed.
      have member : c ∈ Component.read text := by simp [read]
      have opens := alone member (by rw [whole, List.cons_append, textOf, solid member])
      refine absurd ?_ (passed c List.mem_cons_self).2
      rw [opens]
      rfl
  | nil =>
      have member : Component.block opener body (some closer) ∈ Component.read text := by
        simp [read]
      have opens := alone member (by rw [whole, List.nil_append, textOf, solid member])
      have written := (written_of_mem_lexemes around.mem_lexemes).mark bracket.opener (by
        rw [show opener.token = .opening bracket from opens]
        exact bracket.mark?_opening)
      simpa [textOf, written] using around.eq_append

/-- **The parts of a text.**  The text before the block, the name of a function that opens
it, the bracket, what is inside, the bracket that closes it and the text after it make up
the text.  The name is no part of the text before the block; only where there is none, the
parts and the brackets alone make up the text. -/
theorem eq_append_of_split? (found : split? bracket text = some split) :
    ∃ opener called, split.Around bracket text opener ∧
      opener.text = called ++ [bracket.opener] ∧
      text = split.before ++ called ++
        bracket.opener :: (split.body ++ bracket.closer :: split.after) ∧
      (text = split.before ++ bracket.opener :: (split.body ++ bracket.closer :: split.after) ↔
        opener.token = .opening bracket) ∧
      (opener.token ≠ .opening bracket → called ≠ [] ∧ bracket = .round ∧
        ∃ value, opener.token = .function value ∧
          name (called ++ '(' :: (split.body ++ bracket.closer :: split.after)) =
            (value.toList, called.length)) := by
  obtain ⟨opener, around⟩ := split?_eq_some_iff.mp found
  obtain ⟨called, written, alone, function⟩ := around.exists_called
  have whole : text = split.before ++ called ++
      bracket.opener :: (split.body ++ bracket.closer :: split.after) :=
    around.eq_append.trans (by simp [written])
  refine ⟨opener, called, around, written, whole, ?_, fun other => ?_⟩
  · rw [← alone]
    refine ⟨fun parts => ?_, ?_⟩
    · have lengths := congrArg List.length (whole.symm.trans parts)
      simp only [List.length_append] at lengths
      exact List.eq_nil_of_length_eq_zero (by omega)
    · rintro rfl
      rwa [List.append_nil] at whole
  · have some_ : called ≠ [] := fun none_ => other (alone.mp none_)
    exact ⟨some_, function some_⟩

/-- The name of the function is in no part. -/
theorem eq_append_of_split?_function :
    split? .round "a var(b) c".toList = some ⟨"a ".toList, ['b'], " c".toList⟩ ∧
      ∃ (opener : Lexeme) (called : List Char), opener.text = called ++ ['('] ∧ called ≠ [] ∧
        "a var(b) c".toList = "a ".toList ++ called ++ "(b) c".toList := by
  have found : split? .round "a var(b) c".toList = some ⟨"a ".toList, ['b'], " c".toList⟩ := by
    decide +kernel
  obtain ⟨opener, called, -, written, whole, parts, function⟩ := eq_append_of_split? found
  refine ⟨found, opener, called, written, (function ?_).1, whole⟩
  exact fun isBracket => absurd (parts.mpr isBracket) (by decide)

/-- The parts and the brackets do not always make up the text. -/
theorem split?_not_append : ¬ ∀ (bracket : Bracket) (text : List Char) (split : Split),
    split? bracket text = some split →
      text = split.before ++ bracket.opener :: (split.body ++ bracket.closer :: split.after) := by
  intro all
  have found : split? .round "var(x)".toList = some ⟨[], ['x'], []⟩ := by decide +kernel
  exact absurd (all _ _ _ found) (by decide)

end Parts

end ApplyRule
