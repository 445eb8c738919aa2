/-
# ApplyRule.Proofs.ClosedBlock -- a closed block is the same in any context

A text that fits in a block (`FitsBlock`) is read in the same way in every block, on its
own, and whatever follows the block.

* Of its lexemes: the brackets, blanks and words around it are read alone
  (`plain_single`, `plain_blanks`, `plain_word`), and its own lexemes end where the
  bracket that closes the block begins.
* Of its components: of the brackets that are open around it only the innermost counts
  (`exists_inside`).
-/
import ApplyRule.Proofs.Unplaced
import ApplyRule.SetName

namespace ApplyRule

set_option autoImplicit false

open Text Scan

/-! ## The inside of a block -/

namespace Component

/-- A level with more components in front. -/
def Level.prepend (components : List Component) (level : Level) : Level :=
  { level with components := components ++ level.components }

/-- All levels but the outermost are closed. -/
theorem closer_of_mem_dropLast (brackets : List Bracket) (lexemes : List Lexeme) :
    ∀ level ∈ ((levels brackets lexemes).1 :: (levels brackets lexemes).2).dropLast,
      level.closer ≠ none := by
  induction lexemes generalizing brackets with
  | nil => simp [levels]
  | cons lexeme rest ih =>
      rw [levels]
      split
      · have all := ih brackets.tail
        generalize levels brackets.tail rest = answer at all ⊢
        obtain ⟨level, outer⟩ := answer
        rw [List.dropLast_cons_of_ne_nil (List.cons_ne_nil _ _)]
        simp only [List.mem_cons, forall_eq_or_imp]
        exact ⟨Option.some_ne_none _, all⟩
      · split
        · have all := ih brackets
          generalize levels brackets rest = answer at all ⊢
          obtain ⟨level, outer⟩ := answer
          cases outer with
          | nil => simp
          | cons next others => simpa [Level.cons] using all
        · rename_i bracket _
          have all := ih (bracket :: brackets)
          generalize levels (bracket :: brackets) rest = answer at all ⊢
          obtain ⟨inner, outer⟩ := answer
          cases outer with
          | nil => simp
          | cons next others =>
              cases others with
              | nil => simp
              | cons third more =>
                  simp only [List.dropLast_cons_cons, List.mem_cons, forall_eq_or_imp] at all
                  simpa [Level.cons] using all.2

variable {brackets stack outer : List Bracket} {bracket : Bracket} {lexeme closer : Lexeme}
  {lexemes more : List Lexeme} {components : List Component} {others : List Level}

theorem levels_closer (isCloser : closer.token.closes? = some bracket) :
    levels (bracket :: stack) (closer :: more) =
      (⟨[], some closer⟩, (levels stack more).1 :: (levels stack more).2) := by
  rw [levels, if_pos (by simpa [Token.closesFirst] using isCloser)]
  rfl

theorem levels_leaf (goesOn : ¬ lexeme.token.closesFirst brackets = true)
    (plain : lexeme.token.opens? = none) :
    levels brackets (lexeme :: more) =
      ((levels brackets more).1.cons (.leaf lexeme), (levels brackets more).2) := by
  rw [levels, if_neg goesOn, plain]

theorem levels_opener (goesOn : ¬ lexeme.token.closesFirst brackets = true)
    (opens : lexeme.token.opens? = some bracket) {inner : Level}
    (found : levels (bracket :: brackets) more = (inner, others)) :
    levels brackets (lexeme :: more) =
      ((others.head?.getD .empty).cons (.block lexeme inner.components inner.closer),
        others.tail) := by
  rw [levels, if_neg goesOn, opens]
  simp only [found]

/-- The lexemes make the components of any level with this innermost bracket, or with none:
they come first there, whatever follows. -/
def Inside (bracket : Bracket) (inside : List Lexeme) (components : List Component) : Prop :=
  ∀ (stack : List Bracket) (more : List Lexeme), (∀ own ∈ stack.head?, own = bracket) →
    levels stack (inside ++ more) =
      ((levels stack more).1.prepend components, (levels stack more).2)

section Inside

variable {inside later : List Lexeme} {following : List Component}

/-- What does not close a bracket closes no level in which it is the innermost. -/
theorem not_closesFirst (other : lexeme.token.closes? ≠ some bracket)
    (innermost : ∀ own ∈ stack.head?, own = bracket) :
    ¬ lexeme.token.closesFirst stack = true := by
  cases stack with
  | nil => exact Bool.false_ne_true
  | cons first others =>
      cases innermost first rfl
      simpa [Token.closesFirst] using other

theorem Inside.nil : Inside bracket [] [] :=
  fun _ _ _ => rfl

theorem Inside.leaf (other : lexeme.token.closes? ≠ some bracket)
    (plain : lexeme.token.opens? = none) (rest : Inside bracket later following) :
    Inside bracket (lexeme :: later) (.leaf lexeme :: following) := by
  intro stack more innermost
  rw [List.cons_append, levels_leaf (not_closesFirst other innermost) plain,
    rest stack more innermost]
  rfl

theorem Inside.block {inner : Bracket} (other : lexeme.token.closes? ≠ some bracket)
    (opens : lexeme.token.opens? = some inner) (isCloser : closer.token.closes? = some inner)
    (held : Inside inner inside components) (rest : Inside bracket later following) :
    Inside bracket (lexeme :: (inside ++ closer :: later))
      (.block lexeme components (some closer) :: following) := by
  intro stack more innermost
  have block := held (inner :: stack) (closer :: (later ++ more)) (by simp)
  rw [levels_closer isCloser] at block
  rw [List.cons_append, List.append_assoc, List.cons_append,
    levels_opener (not_closesFirst other innermost) opens block, rest stack more innermost]
  simp [Level.prepend, Level.cons]

end Inside

/-- What the lexemes of a block up to its closer make does not depend on where they stand. -/
theorem exists_inside
    (found : levels (bracket :: outer) lexemes = (⟨components, some closer⟩, others)) :
    ∃ inside after, lexemes = inside ++ closer :: after ∧
      closer.token.closes? = some bracket ∧
      others = (levels outer after).1 :: (levels outer after).2 ∧
      Inside bracket inside components := by
  induction length : lexemes.length using Nat.strong_induction_on
    generalizing bracket outer lexemes components closer others with
  | _ count ih =>
      cases lexemes with
      | nil => cases found
      | cons lexeme rest =>
          rw [List.length_cons] at length
          by_cases closes : lexeme.token.closes? = some bracket
          · rw [levels_closer closes] at found
            cases found
            exact ⟨[], rest, rfl, closes, rfl, .nil⟩
          have goesOn := not_closesFirst closes (by simp : ∀ own ∈ (bracket :: outer).head?, _)
          cases opens : lexeme.token.opens? with
          | none =>
              rw [levels_leaf goesOn opens] at found
              cases later : levels (bracket :: outer) rest with
              | mk level others' =>
                  rw [later] at found
                  obtain ⟨comps, last⟩ := level
                  cases found
                  obtain ⟨inside, after, rfl, isCloser, rest, context⟩ :=
                    ih rest.length (by omega) later rfl
                  exact ⟨lexeme :: inside, after, rfl, isCloser, rest, context.leaf closes opens⟩
          | some inner =>
              -- A block of its own, and then what follows it.
              cases later : levels (inner :: bracket :: outer) rest with
              | mk level others' =>
                  rw [levels_opener goesOn opens later] at found
                  have unclosed := closer_of_mem_dropLast (inner :: bracket :: outer) rest
                  rw [later] at unclosed
                  obtain ⟨comps, last⟩ := level
                  cases others' with
                  | nil => cases found
                  | cons next others' =>
                      obtain ⟨innerCloser, rfl⟩ : ∃ innerCloser, last = some innerCloser :=
                        Option.ne_none_iff_exists'.mp (unclosed ⟨comps, last⟩ (by simp))
                      obtain ⟨inside, after, rfl, isInner, rest, held⟩ :=
                        ih rest.length (by omega) later rfl
                      obtain ⟨comps', last'⟩ := next
                      cases found
                      have shorter : after.length < count := by
                        rw [← length, List.length_append, List.length_cons]
                        omega
                      obtain ⟨same, same'⟩ := List.cons.inj rest
                      obtain ⟨inside', after', rfl, isCloser, rest', context⟩ :=
                        ih after.length shorter (Prod.ext same.symm same'.symm) rfl
                      exact ⟨lexeme :: (inside ++ innerCloser :: inside'), after', by simp,
                        isCloser, rest', .block closes opens isInner held context⟩

end Component

/-! ## Marks, blanks and words -/

namespace Lexeme

/-- The lexeme of a character that is a token on its own. -/
def ofSingle (c : Char) : Lexeme :=
  ⟨single c, [c], .first⟩

theorem plain_nil : plain [] = [] := by
  rw [plain, lexemes, lexemesFrom]
  rfl

/-- The brackets, the colon and the semicolon are read alone, whatever follows. -/
theorem plain_single {c : Char} (mark : c ∈ ['{', '}', ':', ';']) (rest : List Char) :
    plain (c :: rest) = ofSingle c :: plain rest := by
  have read : Token.read c rest = (single c, 0) := by
    simp only [List.mem_cons, List.not_mem_nil, or_false] at mark
    rcases mark with rfl | rfl | rfl | rfl <;> cases rest <;> rfl
  rw [plain_cons, read]
  rfl

theorem read_blanks {c : Char} {more : List Char} (isFirst : isBlank c = true)
    (others : ∀ d ∈ more, isBlank d = true) : Token.read c more = (.whitespace, more.length) := by
  unfold Token.read
  rw [if_pos isFirst, List.takeWhile_eq_self_iff.mpr others]

/-- Blanks before anything else are read alone. -/
theorem plain_blanks {blanks : List Char} (blank : ∀ c ∈ blanks, isBlank c = true)
    {rest : List Char} (ends : ∀ c ∈ rest.head?, isBlank c = false) :
    plain (blanks ++ rest) = plain blanks ++ plain rest := by
  cases blanks with
  | nil => rw [plain_nil]; rfl
  | cons c more =>
      have isFirst := blank c List.mem_cons_self
      have others : ∀ d ∈ more, isBlank d = true := fun d member =>
        blank d (List.mem_cons_of_mem c member)
      have none_ : rest.takeWhile isBlank = [] := by
        cases rest with
        | nil => rfl
        | cons d tail => exact List.takeWhile_cons_of_neg (by simp [ends d rfl])
      have read : Token.read c (more ++ rest) = (.whitespace, more.length) := by
        unfold Token.read
        rw [if_pos isFirst, List.takeWhile_append_of_pos others, none_, List.append_nil]
      rw [List.cons_append, plain_cons, plain_cons, read, read_blanks isFirst others, List.take_left, List.drop_left,
        List.take_length, List.drop_length, plain_nil]
      rfl

theorem token_of_blank {blanks : List Char} (blank : ∀ c ∈ blanks, isBlank c = true)
    {lexeme : Lexeme} (member : lexeme ∈ plain blanks) : lexeme.token = .whitespace := by
  cases blanks with
  | nil =>
      rw [plain_nil] at member
      cases member
  | cons c more =>
      have others : ∀ d ∈ more, isBlank d = true := fun d among =>
        blank d (List.mem_cons_of_mem c among)
      rw [plain_cons, read_blanks (blank c List.mem_cons_self) others, List.drop_length,
        plain_nil, List.mem_singleton] at member
      rw [member]

end Lexeme

/-- A character that ends a word: a blank, a colon or a bracket that opens a block. -/
def Scan.endsWord (c : Char) : Bool :=
  isBlank c || c = ':' || c = '{'

theorem Scan.of_endsWord {c : Char} (ends : endsWord c = true) :
    isNameChar c = false ∧ c ≠ '\\' ∧ c ≠ '(' := by
  simp only [endsWord, isBlank, isNewline, Bool.or_eq_true, decide_eq_true_eq] at ends
  rcases ends with (((rfl | rfl) | (rfl | rfl) | rfl) | rfl) | rfl <;> decide

theorem SetName.toNat_of_isNameChar {c : Char} (isName : SetName.isNameChar c = true) :
    45 ≤ c.toNat ∧ c.toNat ≤ 122 := by
  rw [SetName.isNameChar, Char.isAlphanum] at isName
  delta Char.isAlpha Char.isUpper Char.isLower Char.isDigit at isName
  simp only [Bool.or_eq_true, Bool.and_eq_true, decide_eq_true_eq, UInt32.le_iff_toNat_le,
    ge_iff_le] at isName
  have : c.val.toNat = c.toNat := rfl
  rcases isName with ((((⟨low, high⟩ | ⟨low, high⟩) | ⟨low, high⟩) | rfl) | rfl)
  · simp at low high; omega
  · simp at low high; omega
  · simp at low high; omega
  · decide
  · decide

theorem SetName.of_isNameChar {c : Char} (isName : SetName.isNameChar c = true) :
    Scan.isNameChar c = true ∧ c ≠ '\\' ∧ cleaned c = c ∧ isSpace c = false := by
  obtain ⟨low, high⟩ := toNat_of_isNameChar isName
  refine ⟨?_, ?_, if_neg ?_, ?_⟩
  · simp only [SetName.isNameChar, Char.isAlphanum, Bool.or_eq_true, decide_eq_true_eq] at isName
    simp only [Scan.isNameChar, isNameStart, Bool.or_eq_true, decide_eq_true_eq]
    tauto
  · rintro rfl
    exact absurd isName (by decide)
  · rintro rfl
    exact absurd isName (by decide)
  · simp only [isSpace, Bool.or_eq_false_iff, Bool.and_eq_false_iff, decide_eq_false_iff_not]
    omega

/-- A word is read to its end. -/
theorem Scan.name_word {word rest : List Char} (all : ∀ c ∈ word, SetName.isNameChar c = true)
    (ends : ∀ c ∈ rest.head?, endsWord c = true) :
    name (word ++ rest) = (word, word.length) := by
  induction word with
  | nil =>
      cases rest with
      | nil => rw [List.nil_append, name]; rfl
      | cons c more =>
          obtain ⟨outside, other, -⟩ := of_endsWord (ends c rfl)
          rw [List.nil_append, name, if_neg other, if_neg (by simp [outside])]
          rfl
  | cons c more ih =>
      obtain ⟨isName, other, same, -⟩ := SetName.of_isNameChar (all c List.mem_cons_self)
      rw [List.cons_append, name, if_neg other, if_pos isName,
        ih fun d member => all d (List.mem_cons_of_mem c member), same]
      rfl

/-- The lexeme of a word. -/
def Lexeme.ofWord (word : List Char) : Lexeme :=
  ⟨.ident (String.ofList word), word, .first⟩

/-- A word before what ends it is read alone, unless it is read as a number or as the end
of a comment. -/
theorem Lexeme.plain_word {word rest : List Char} (all : ∀ c ∈ word, SetName.isNameChar c = true)
    (isIdent : startsIdent (word ++ rest) = true)
    (notNumeral : startsNumeral (word ++ rest) = false)
    (notClose : startsWith ['-', '-', '>'] (word ++ rest) = false)
    (ends : ∀ c ∈ rest.head?, endsWord c = true) :
    plain (word ++ rest) = ofWord word :: plain rest := by
  cases word with
  | nil =>
      cases rest with
      | nil => cases isIdent
      | cons c more =>
          have := ends c rfl
          simp only [endsWord, isBlank, isNewline, Bool.or_eq_true, decide_eq_true_eq] at this
          rcases this with (((rfl | rfl) | (rfl | rfl) | rfl) | rfl) | rfl <;> cases isIdent
  | cons c more =>
      have isName := all c List.mem_cons_self
      have read : Token.read c (more ++ rest) =
          (.ident (String.ofList (c :: more)), more.length) := by
        have plain : ∀ d, SetName.isNameChar d = false → c ≠ d := by
          rintro d other rfl
          rw [isName] at other
          cases other
        have blank : isBlank c = false := by
          by_contra blank
          have space := isSpace_of_isBlank c (by simpa using blank)
          rw [(SetName.of_isNameChar isName).2.2.2] at space
          cases space
        have close : (c = '-' && startsWith ['-', '>'] (more ++ rest)) = false := by
          rw [List.cons_append, startsWith, List.isPrefixOf_cons_cons] at notClose
          rw [← notClose, startsWith]
          congr 1
          exact decide_eq_decide.mpr eq_comm
        have whole : identLike (c :: (more ++ rest)) =
            (.ident (String.ofList (c :: more)), more.length + 1) := by
          have word := name_word all ends
          rw [List.cons_append] at word
          unfold identLike
          rw [word]
          simp only [List.length_cons, List.drop_succ_cons, List.drop_left]
          cases rest with
          | nil => rfl
          | cons d tail =>
              have other := (of_endsWord (ends d rfl)).2.2
              split
              · simp_all
              · rfl
        unfold Token.read
        rw [if_neg (by simp [blank]),
          if_neg (by simp [plain quotationMark (by decide), plain apostrophe (by decide)]),
          if_neg (plain '#' (by decide)), if_neg (by simp [plain '@' (by decide)]),
          if_neg (by simp [plain '/' (by decide)]), if_neg (by simp [plain '<' (by decide)]),
          if_neg (by simpa using notNumeral), if_neg (by simp [close]), if_pos (by simpa using isIdent),
          whole]
        rfl
      rw [List.cons_append, plain_cons, read, List.take_left, List.drop_left]
      rfl

/-! ## Texts in front of others -/

namespace Component

/-- The text in front of `more` is read as these components, in curly brackets or
outside all brackets. -/
def InFront (components : List Component) (text more : List Char) : Prop :=
  ∀ stack : List Bracket, (∀ own ∈ stack.head?, own = .curly) →
    levels stack (Lexeme.plain (text ++ more)) =
      ((levels stack (Lexeme.plain more)).1.prepend components,
        (levels stack (Lexeme.plain more)).2)

variable {first second components : List Component} {text other more : List Char}

theorem InFront.nil : InFront [] [] more :=
  fun _ _ => rfl

theorem InFront.append (front : InFront first text (other ++ more))
    (back : InFront second other more) : InFront (first ++ second) (text ++ other) more := by
  intro stack innermost
  rw [List.append_assoc, front stack innermost, back stack innermost]
  simp [Level.prepend]

theorem InFront.plain_append (front : InFront components text more) :
    plain (text ++ more) = components ++ plain more := by
  rw [plain_eq, plain_eq, group, front [] (by simp)]
  rfl

theorem InFront.plain_eq (front : InFront components text []) : plain text = components := by
  have whole := front.plain_append
  rwa [List.append_nil, Component.plain_eq [], Lexeme.plain_nil, group, levels, Level.empty,
    List.append_nil] at whole

/-- Lexemes that are no brackets are leaves. -/
theorem inFront_leaves {lexemes : List Lexeme}
    (read : Lexeme.plain (text ++ more) = lexemes ++ Lexeme.plain more)
    (leaves : ∀ lexeme ∈ lexemes, lexeme.token.opens? = none ∧ lexeme.token.closes? = none) :
    InFront (lexemes.map .leaf) text more := by
  intro stack _
  rw [read]
  clear read
  induction lexemes with
  | nil => rfl
  | cons lexeme rest ih =>
      obtain ⟨opens, closes⟩ := leaves lexeme List.mem_cons_self
      have goesOn : ¬ lexeme.token.closesFirst stack = true := by
        cases stack <;> simp [Token.closesFirst, closes]
      rw [List.cons_append, levels_leaf goesOn opens,
        ih fun other member => leaves other (List.mem_cons_of_mem lexeme member)]
      rfl

theorem textOf_leaves (lexemes : List Lexeme) :
    textOf (lexemes.map .leaf) = Lexeme.textOf lexemes := by
  induction lexemes with
  | nil => rfl
  | cons lexeme rest ih => rw [List.map_cons, textOf, ih]; rfl

/-- Blanks as components. -/
def blanks (text : List Char) : List Component :=
  (Lexeme.plain text).map .leaf

/-- A mark as a component. -/
def mark (c : Char) : Component :=
  .leaf (.ofSingle c)

/-- A word as a component. -/
def word (text : List Char) : Component :=
  .leaf (.ofWord text)

/-- Components in a block. -/
def enclosed (components : List Component) : Component :=
  .block (.ofSingle '{') components (some (.ofSingle '}'))

theorem inFront_blanks (blank : ∀ c ∈ text, Text.isBlank c = true)
    (ends : ∀ c ∈ more.head?, Text.isBlank c = false) : InFront (blanks text) text more := by
  refine inFront_leaves (Lexeme.plain_blanks blank ends) fun lexeme member => ?_
  rw [Lexeme.token_of_blank blank member]
  exact ⟨rfl, rfl⟩

theorem inFront_mark {c : Char} (isMark : c ∈ [':', ';']) : InFront [mark c] [c] more := by
  have among : c ∈ ['{', '}', ':', ';'] :=
    List.mem_cons_of_mem _ (List.mem_cons_of_mem _ isMark)
  have read : Lexeme.plain ([c] ++ more) = [.ofSingle c] ++ Lexeme.plain more :=
    Lexeme.plain_single among more
  refine inFront_leaves read ?_
  simp only [List.mem_cons, List.not_mem_nil, or_false] at isMark
  rcases isMark with rfl | rfl <;> simp [Lexeme.ofSingle, single, Token.opens?, Token.closes?]

theorem inFront_enclosed (inside : InFront components text ('}' :: more)) :
    InFront [enclosed components] ('{' :: (text ++ ['}'])) more := by
  intro stack innermost
  have block : levels (.curly :: stack) (Lexeme.plain (text ++ '}' :: more)) =
      (⟨components, some (.ofSingle '}')⟩,
        (levels stack (Lexeme.plain more)).1 :: (levels stack (Lexeme.plain more)).2) := by
    rw [inside (.curly :: stack) (by simp), Lexeme.plain_single (by decide), levels_closer rfl]
    simp [Level.prepend]
  have goesOn : ¬ (Lexeme.ofSingle '{').token.closesFirst stack = true := by
    cases stack <;> simp [Token.closesFirst, Lexeme.ofSingle, single, Token.closes?]
  rw [List.cons_append, List.append_assoc, List.singleton_append, Lexeme.plain_single (by decide),
    levels_opener goesOn rfl block]
  rfl

end Component

/-! ## Closed blocks -/

theorem Lexeme.textOf_unplaced (lexemes : List Lexeme) :
    textOf (lexemes.map unplaced) = textOf lexemes := by
  rw [textOf, textOf, List.flatMap_map]
  rfl

/-- The lexemes up to a bracket are those of the text up to there. -/
theorem Lexeme.plain_cut {z : Char} {text tail back : List Char} {front rest : List Lexeme}
    (closing : isClosing z = true) (cuts : Cuts z tail)
    (found : plain (text ++ z :: back) = front ++ rest) (whole : textOf front = text) :
    plain (text ++ tail) = front ++ plain tail := by
  obtain ⟨own, others, split, rfl, rfl⟩ := List.map_eq_append_iff.mp found
  rw [textOf_unplaced] at whole
  obtain ⟨there, cut⟩ := lexemesFrom_cut (isDivider_of_isClosing closing) cuts split whole
  rw [plain, lexemes, cut, List.map_append, unplaced_lexemesFrom]

/-- Where a block stands does not matter for the split around it. -/
theorem Split.ofComponents?_unplaced (bracket : Bracket) (components : List Component) :
    ofComponents? bracket (components.map Component.unplaced) =
      ofComponents? bracket components := by
  induction components with
  | nil => rfl
  | cons component rest ih =>
      have text := Component.text_unplaced component
      cases component with
      | leaf lexeme => simp only [List.map_cons, Component.unplaced, ofComponents?, ih]; rfl
      | block opener body closer =>
          cases closer with
          | none => rfl
          | some closer =>
              simp only [Component.unplaced, Component.unplacedAll_eq, Option.map_some] at text
              simp only [List.map_cons, Component.unplaced, ofComponents?, ih,
                Component.unplacedAll_eq, Option.map_some, Component.textOf_unplaced, text]
              rfl

theorem split?_eq (bracket : Bracket) (text : List Char) :
    split? bracket text = Split.ofComponents? bracket (Component.plain text) :=
  (Split.ofComponents?_unplaced bracket _).symm

/-- Whether a text can be written in a block: a bracket before it and one after it
enclose it. -/
def FitsBlock (text : List Char) : Prop :=
  split? .curly ('{' :: (text ++ ['}'])) = some ⟨[], text, []⟩

instance (text : List Char) : Decidable (FitsBlock text) :=
  inferInstanceAs (Decidable (_ = _))

/-- A text in a block is read as on its own, whatever follows the block. -/
theorem FitsBlock.inFront {text : List Char} (fits : FitsBlock text) (more : List Char) :
    Component.InFront (Component.plain text) text ('}' :: more) := by
  rw [FitsBlock, split?_eq, Component.plain_eq, Lexeme.plain_single (by decide)] at fits
  cases later : Component.levels [.curly] (Lexeme.plain (text ++ ['}'])) with
  | mk inner others =>
      obtain ⟨components, last⟩ := inner
      rw [Component.group, Component.levels_opener (by decide) rfl later] at fits
      cases last with
      | none => cases fits
      | some closer =>
          have whole : Component.textOf components = text := by
            simp only [Component.Level.cons, Split.ofComponents?] at fits
            have opens : (Lexeme.ofSingle '{').token.opens? = some .curly := rfl
            rw [if_pos opens, Option.some.injEq, Split.mk.injEq] at fits
            exact fits.2.1
          obtain ⟨inside, after, split, -, -, context⟩ := Component.exists_inside later
          have grouped : Component.group inside = components := by
            have alone := context [] [] (by simp)
            rw [List.append_nil] at alone
            rw [Component.group, alone]
            simp [Component.Level.prepend, Component.levels, Component.Level.empty]
          have written : Lexeme.textOf inside = text := by
            rw [← Component.textOf_group, grouped, whole]
          have own : Lexeme.plain text = inside := by
            have alone : Lexeme.plain (text ++ []) = inside ++ Lexeme.plain [] :=
              Lexeme.plain_cut rfl (.inl rfl) split written
            rwa [Lexeme.plain_nil, List.append_nil, List.append_nil] at alone
          intro stack innermost
          rw [Lexeme.plain_cut rfl (.inr ⟨more, rfl⟩) split written,
            context stack _ innermost, Component.plain_eq, own, grouped]

end ApplyRule
