/-
# ApplyRule.Proofs.FailingText -- what a parse error depends on

Which statement of a text fails first, and with which fault, is settled where that statement
ends: at its semicolon or closing bracket, or where its body ends.  The text up to there
can go on in any way, or, where it was the body that ended, with another end of the body
(`parse_fails`).  What stands behind the statement in the blocks around it decides only
whether the error is about the statement or about one of them.

* Of lexemes: those up to some component of a body make the components before it whatever
  follows (`Component.exists_fronts`), and so do those up to the end of a body
  (`Component.exists_end`).
* Of text: a semicolon or a closing bracket is read alike whatever follows
  (`lexemesFrom_divided`).
-/
import ApplyRule.Proofs.FailingStatement
import ApplyRule.Proofs.FirstBlock
import ApplyRule.Proofs.Outcome

namespace ApplyRule

set_option autoImplicit false

open Text Scan Component

/-! ## Lexemes up to a component -/

namespace Component

/-- The lexemes come first in a level with these brackets, as these components, whatever
follows. -/
def Fronts (stack : List Bracket) (own : List Lexeme) (whole : List Component) : Prop :=
  ∀ more, levels stack (own ++ more) =
    ((levels stack more).1.prepend whole, (levels stack more).2)

section Fronts

variable {stack : List Bracket} {lexemes own later : List Lexeme} {lexeme : Lexeme}
  {component : Component} {whole rest after : List Component}

/-- What a level starts with does not close it. -/
theorem goesOn_of_cons
    (found : (levels stack (lexeme :: later)).1.components = component :: rest) :
    ¬ lexeme.token.closesFirst stack = true := by
  intro closes
  rw [levels, if_pos closes] at found
  cases found

theorem Fronts.append {more : List Lexeme} (fronts : Fronts stack own whole)
    (others : Fronts stack more rest) : Fronts stack (own ++ more) (whole ++ rest) := by
  intro last
  rw [List.append_assoc, fronts, others]
  simp [Level.prepend]

theorem fronts_leaf (goesOn : ¬ lexeme.token.closesFirst stack = true)
    (plain : lexeme.token.opens? = none) : Fronts stack [lexeme] [.leaf lexeme] := by
  intro more
  rw [List.singleton_append, levels_leaf goesOn plain]
  rfl

theorem fronts_block {opener closer : Lexeme} {bracket : Bracket} {held : List Lexeme}
    {inner : List Component} (goesOn : ¬ opener.token.closesFirst stack = true)
    (opens : opener.token.opens? = some bracket) (closes : closer.token.closes? = some bracket)
    (inside : Inside bracket held inner) :
    Fronts stack (opener :: (held ++ [closer])) [.block opener inner (some closer)] := by
  intro more
  have block := inside (bracket :: stack) (closer :: more) (by simp)
  rw [levels_closer closes] at block
  rw [List.cons_append, List.append_assoc, List.singleton_append, levels_opener goesOn opens block]
  simp [Level.prepend, Level.cons]

/-- The first components of a level are made by its first lexemes, if others follow. -/
theorem exists_fronts (found : (levels stack lexemes).1.components = whole ++ after)
    (some_ : after ≠ []) :
    ∃ own later, lexemes = own ++ later ∧ after = (levels stack later).1.components ∧
      Fronts stack own whole := by
  induction whole generalizing lexemes with
  | nil => exact ⟨[], lexemes, rfl, found.symm, fun _ => rfl⟩
  | cons component whole ih =>
      rcases levels_cases found with
        ⟨lexeme, later, rfl, plain, rfl, rest⟩ |
        ⟨opener, later, bracket, ⟨inner, closer⟩, others, rfl, opens, inside, rfl, rest⟩
      · obtain ⟨own, last, rfl, behind, fronts⟩ := ih rest.symm
        exact ⟨lexeme :: own, last, rfl, behind,
          (fronts_leaf (goesOn_of_cons found) plain).append fronts⟩
      · cases closer with
        | none =>
            -- A block that is never closed is the last component.
            cases levels_unclosed inside
            exact absurd (List.append_eq_nil_iff.mp rest).2 some_
        | some closer =>
            obtain ⟨held, last, rfl, closes, rfl, context⟩ := exists_inside inside
            obtain ⟨own, last, rfl, behind, fronts⟩ := ih rest.symm
            refine ⟨opener :: (held ++ [closer]) ++ own, last, by simp, behind, ?_⟩
            exact (fronts_block (goesOn_of_cons found) opens closes context).append fronts

/-- The components of a body are made by the lexemes up to its end. -/
theorem exists_end (innermost : ∀ own ∈ stack.head?, own = .curly) (lexemes : List Lexeme) :
    ∃ own rest, lexemes = own ++ rest ∧
      (rest = [] ∨ ∃ closer more, rest = closer :: more ∧ closer.token = .closing .curly) ∧
      (levels stack own).1 = ⟨(levels stack lexemes).1.components, none⟩ ∧
      ∀ more, (more = [] ∨ more.head?.map Lexeme.token = rest.head?.map Lexeme.token) →
        (levels stack (own ++ more)).1.components = (levels stack lexemes).1.components := by
  cases level : levels stack lexemes with
  | mk first others =>
      obtain ⟨components, closer⟩ := first
      cases closer with
      | none =>
          refine ⟨lexemes, [], (List.append_nil _).symm, .inl rfl, by rw [level], ?_⟩
          intro more none_
          have none_ : more = [] := none_.elim id fun same => by simpa using same
          rw [none_, List.append_nil, level]
      | some closer =>
          cases stack with
          | nil =>
              have unclosed := (levels_outermost [] lexemes).2 _ rfl
              rw [level] at unclosed
              cases unclosed
          | cons bracket stack =>
              cases innermost bracket rfl
              obtain ⟨inside, after, rfl, closes, -, context⟩ := exists_inside level
              have isCloser := Token.eq_closing closes
              have alone := context (.curly :: stack) [] (by simp)
              rw [List.append_nil] at alone
              refine ⟨inside, closer :: after, rfl, .inr ⟨closer, after, rfl, isCloser⟩, ?_, ?_⟩
              · rw [alone]
                simp [Level.prepend, levels, Level.empty]
              · rintro more (rfl | same)
                · rw [List.append_nil, alone]
                  simp [Level.prepend, levels, Level.empty]
                · obtain ⟨other, first, alike⟩ := Option.map_eq_some_iff.mp same
                  obtain ⟨others, rfl⟩ := List.head?_eq_some_iff.mp first
                  rw [context (.curly :: stack) _ (by simp), levels_closer (alike ▸ closes)]
                  simp [Level.prepend]

end Fronts

end Component

/-! ## Lexemes up to the end of the statement that fails -/

namespace Body

/-- The lexemes `own` of a body end with its statement that fails first, `rest` follows, and
this fault is in these blocks whatever else follows. -/
structure Breaks (stack : List Bracket) (own rest : List Lexeme) (fault : ParseError)
    (ended : Bool) (blocks : List Location) : Prop where
  last : ended = true → ∃ front last, own = front ++ [last] ∧
    (last.token = .semicolon ∨ last.token = .closing .curly)
  next : ended = true ∨ rest = [] ∨
    ∃ closer more, rest = closer :: more ∧ closer.token = .closing .curly
  stray : fault.fault = .strayBrace → stack = [] ∧ blocks = []
  alone : (levels stack own).1.closer = none ∧
    Fails (levels stack own).1.components fault ended [] (blocks.map (⟨·, []⟩))
  fails : ∀ more, (ended = true ∨ more = [] ∨
      more.head?.map Lexeme.token = rest.head?.map Lexeme.token) →
    ∃ left around, around.map Enclosing.start = blocks ∧
      Fails (levels stack (own ++ more)).1.components fault ended left around

section Breaks

variable {stack : List Bracket} {lexemes own more rest : List Lexeme}
  {before statement components left : List Component} {fault : ParseError} {ended : Bool}
  {around : List Enclosing}

/-- A statement that ends where it fails ends with a lexeme that is read alike whatever
follows. -/
theorem exists_breaks_ended (innermost : ∀ own ∈ stack.head?, own = .curly)
    (sound : Sound true before) (wrong : Piece.Wrong statement fault true)
    (found : (levels stack lexemes).1.components = before ++ (statement ++ left)) :
    ∃ own rest, lexemes = own ++ rest ∧ Breaks stack own rest fault true [] := by
  obtain ⟨front, last, rfl, ends, stray⟩ := wrong.ends_leaf
  have split : before ++ (front ++ [.leaf last] ++ left) =
      (before ++ front) ++ .leaf last :: left := by simp
  obtain ⟨own, later, rfl, behind, fronts⟩ := exists_fronts (found.trans split) (by simp)
  rcases levels_cases behind.symm with
    ⟨lexeme, later, rfl, plain, same, -⟩ | ⟨_, _, _, _, _, _, _, _, other, _⟩
  · cases same
    have goesOn := goesOn_of_cons behind.symm
    have upTo := fronts.append (fronts_leaf goesOn plain)
    have alone := upTo []
    rw [List.append_nil] at alone
    refine ⟨own ++ [last], later, by simp, fun _ => ⟨own, last, rfl, ends⟩, .inl rfl, ?_, ?_, ?_⟩
    · intro brace
      cases stack with
      | nil => exact ⟨rfl, rfl⟩
      | cons bracket stack =>
          cases innermost bracket rfl
          simp [Token.closesFirst, stray brace, Token.closes?] at goesOn
    · have fails : Fails (before ++ (front ++ [.leaf last] ++ [])) fault true [] [] :=
        .here sound wrong (.inl rfl)
      rw [alone]
      exact ⟨rfl, by simpa [Level.prepend, levels, Level.empty] using fails⟩
    · intro more _
      have fails : Fails (before ++ (front ++ [.leaf last] ++ (levels stack more).1.components))
          fault true _ [] := .here sound wrong (.inl rfl)
      rw [upTo]
      exact ⟨_, [], rfl, by simpa [Level.prepend] using fails⟩
  · cases other

/-- A statement that the end of its body ends is ended by any other end of it. -/
theorem exists_breaks_end (innermost : ∀ own ∈ stack.head?, own = .curly)
    (sound : Sound true before) (wrong : Piece.Wrong statement fault false)
    (found : (levels stack lexemes).1.components = before ++ (statement ++ [])) :
    ∃ own rest, lexemes = own ++ rest ∧ Breaks stack own rest fault false [] := by
  obtain ⟨own, rest, rfl, next, alone, same⟩ := exists_end innermost lexemes
  rw [found] at alone same
  refine ⟨own, rest, rfl, nofun, .inr next, ?_, ?_, ?_⟩
  · intro brace
    rw [wrong.unknownWord] at brace
    cases brace
  · rw [alone]
    exact ⟨rfl, .here sound wrong (.inr rfl)⟩
  · intro more allowed
    rw [same more (allowed.resolve_left nofun)]
    exact ⟨[], [], rfl, .here sound wrong (.inr rfl)⟩

/-- What holds of the lexemes in a block holds with those before it in front. -/
theorem Breaks.enclose {head : List Component} {opener : Lexeme} {start : Location}
    {blocks : List Location} (breaks : Breaks (.curly :: stack) more rest fault ended blocks)
    (sound : Sound true before) (opens : Piece.Opens head opener start)
    (fronts : Fronts stack own (before ++ head))
    (goesOn : ¬ opener.token.closesFirst stack = true) :
    Breaks stack (own ++ opener :: more) rest fault ended (start :: blocks) := by
  have isOpener : opener.token.opens? = some .curly := by rw [opens.curly]; rfl
  refine ⟨?_, breaks.next, ?_, ?_, ?_⟩
  · intro isEnded
    obtain ⟨front, last, rfl, ends⟩ := breaks.last isEnded
    exact ⟨own ++ opener :: front, last, by simp, ends⟩
  · intro brace
    cases (breaks.stray brace).1
  · obtain ⟨unclosed, fails⟩ := breaks.alone
    cases level : levels (.curly :: stack) more with
    | mk first others =>
        obtain ⟨inner, closer⟩ := first
        rw [level] at unclosed fails
        cases unclosed
        cases levels_unclosed level
        have fails : Fails (before ++ (head ++ .block opener inner none :: [])) fault ended []
            (⟨start, []⟩ :: _) := .inside sound opens fails
        rw [fronts, levels_opener goesOn isOpener level]
        exact ⟨rfl, by simpa [Level.prepend, Level.cons, Level.empty] using fails⟩
  · intro last allowed
    obtain ⟨left, around, starts, fails⟩ := breaks.fails last allowed
    rw [List.append_assoc, List.cons_append, fronts, levels_opener goesOn isOpener rfl]
    simp only [Level.prepend, Level.cons, List.append_assoc]
    exact ⟨_, _, by simp [starts], .inside sound opens fails⟩

/-- **The lexemes up to its end** settle which statement fails first. -/
theorem Fails.exists_breaks (fails : Fails components fault ended left around)
    (innermost : ∀ own ∈ stack.head?, own = .curly)
    (found : (levels stack lexemes).1.components = components) :
    ∃ own rest, lexemes = own ++ rest ∧
      Breaks stack own rest fault ended (around.map Enclosing.start) := by
  induction fails generalizing stack lexemes with
  | @here before statement left fault ended sound wrong ends =>
      cases ended with
      | true => exact exists_breaks_ended innermost sound wrong found
      | false =>
          cases ends.resolve_left nofun
          exact exists_breaks_end innermost sound wrong found
  | inside sound opens _ ih =>
      rw [← List.append_assoc] at found
      obtain ⟨own, later, rfl, behind, fronts⟩ := exists_fronts found (List.cons_ne_nil _ _)
      obtain ⟨later, bracket, others, rfl, isOpener, within, -⟩ := levels_block behind.symm
      have isCurly : bracket = .curly := by
        rw [opens.curly] at isOpener
        exact (Option.some.inj isOpener).symm
      subst isCurly
      obtain ⟨more, rest, rfl, breaks⟩ := @ih (.curly :: stack) later (by simp) (by rw [within])
      exact ⟨_, rest, by simp,
        breaks.enclose sound opens fronts (goesOn_of_cons behind.symm)⟩

end Breaks

end Body

/-! ## Text up to the end of the statement that fails -/

/-- The first lexeme of a text stands where the text does, and the others follow it. -/
theorem exists_of_lexemesFrom_cons {here : Location} {text : List Char} {lexeme : Lexeme}
    {later : List Lexeme} (found : lexemesFrom here text = lexeme :: later) :
    lexeme.start = here ∧ ∃ behind, lexemesFrom (here.advance lexeme.text) behind = later := by
  cases text with
  | nil =>
      rw [lexemesFrom] at found
      cases found
  | cons c text =>
      rw [lexemesFrom_cons] at found
      obtain ⟨rfl, rfl⟩ := List.cons.inj found
      exact ⟨rfl, _, rfl⟩

/-- A lexeme starts where the lexemes before it end, whatever follows. -/
theorem start_eq_of_front {here : Location} {text other : List Char} {front rest more : List Lexeme}
    {first second : Lexeme} (found : lexemesFrom here text = front ++ first :: rest)
    (also : lexemesFrom here other = front ++ second :: more) : first.start = second.start := by
  induction front generalizing here text other with
  | nil =>
      obtain ⟨one, -⟩ := exists_of_lexemesFrom_cons found
      obtain ⟨two, -⟩ := exists_of_lexemesFrom_cons also
      rw [one, two]
  | cons lexeme front ih =>
      obtain ⟨-, behind, found⟩ := exists_of_lexemesFrom_cons found
      obtain ⟨-, behind', also⟩ := exists_of_lexemesFrom_cons also
      exact ih found also

/-- The lexemes up to one that is a divider do not depend on what follows it. -/
theorem lexemesFrom_divided {here : Location} {text : List Char} {front rest : List Lexeme}
    {last : Lexeme} (found : lexemesFrom here text = front ++ last :: rest)
    (divider : last.token.isDivider = true) (tail : List Char) :
    ∃ there, lexemesFrom here (Lexeme.textOf (front ++ [last]) ++ tail) =
      front ++ last :: lexemesFrom there tail := by
  obtain ⟨m, marked, isDivider⟩ := (Option.any_eq_true ..).mp divider
  have among : last ∈ lexemesFrom here text := by rw [found]; simp
  have written := (written_of_mem_lexemes among).mark m marked
  have whole := congrArg Lexeme.textOf found
  have texts more : Lexeme.textOf (front ++ last :: more) =
      Lexeme.textOf front ++ m :: Lexeme.textOf more := by
    simp [Lexeme.textOf, written]
  rw [textOf_lexemesFrom, texts] at whole
  subst whole
  obtain ⟨there, cut⟩ := lexemesFrom_cut isDivider (.inr ⟨tail, rfl⟩) found rfl
  rw [lexemesFrom_cons, Token.read_divider isDivider] at cut
  have same : last = ⟨single m, [m], there⟩ := by
    have token := Lexeme.token_of_divider among isDivider (by rw [written]; rfl)
    have start := start_eq_of_front found cut
    obtain ⟨_, _, _⟩ := last
    cases token
    cases written
    cases start
    rfl
  have upTo : Lexeme.textOf (front ++ [last]) ++ tail = Lexeme.textOf front ++ m :: tail := by
    rw [texts, List.append_assoc]
    rfl
  refine ⟨there.advance [m], ?_⟩
  rw [upTo, cut, same]
  rfl

/-- A text that starts with a curly closing bracket starts with its token. -/
theorem token_of_brace (here : Location) (text : List Char) :
    (lexemesFrom here ('}' :: text)).head?.map Lexeme.token = some (.closing .curly) := by
  rw [lexemesFrom_cons, Token.read_divider (by decide)]
  rfl

/-- A curly closing bracket is written in one way. -/
theorem textOf_brace {here : Location} {text : List Char} {own more : List Lexeme}
    {closer : Lexeme} (found : lexemesFrom here text = own ++ closer :: more)
    (closes : closer.token = .closing .curly) :
    Lexeme.textOf (closer :: more) = '}' :: Lexeme.textOf more := by
  have among : closer ∈ lexemesFrom here text := by rw [found]; simp
  have written := (written_of_mem_lexemes among).mark '}' (by rw [closes]; rfl)
  simp [Lexeme.textOf, written]

/-- The text up to the end of a statement that fails can be followed by other text. -/
theorem Body.Breaks.exists_lexemes {text tail : List Char} {own rest : List Lexeme}
    {fault : ParseError} {ended : Bool} {blocks : List Location}
    (breaks : Body.Breaks [] own rest fault ended blocks) (found : lexemes text = own ++ rest)
    (allowed : ended = true ∨ tail = [] ∨ tail.head? = (Lexeme.textOf rest).head?) :
    ∃ there, lexemes (Lexeme.textOf own ++ tail) = own ++ lexemesFrom there tail ∧
      (ended = true ∨ lexemesFrom there tail = [] ∨
        (lexemesFrom there tail).head?.map Lexeme.token = rest.head?.map Lexeme.token) := by
  cases ended with
  | true =>
      obtain ⟨front, last, rfl, ends⟩ := breaks.last rfl
      rw [List.append_assoc, List.singleton_append] at found
      have divider : last.token.isDivider = true := by
        rcases ends with ends | ends <;> rw [ends] <;> rfl
      obtain ⟨there, upTo⟩ := lexemesFrom_divided found divider tail
      exact ⟨there, by rw [lexemes, upTo]; simp, .inl rfl⟩
  | false =>
      have whole := congrArg Lexeme.textOf found
      rw [textOf_lexemes, Lexeme.textOf_append] at whole
      subst whole
      rcases breaks.next.resolve_left Bool.false_ne_true with rfl | ⟨closer, more, rfl, closes⟩
      · -- The text ends there, and so must the other.
        have none_ : tail = [] := (allowed.resolve_left Bool.false_ne_true).elim id fun same => by
          simpa [Lexeme.textOf] using same
        subst none_
        refine ⟨.first, ?_, .inr (.inl (by rw [lexemesFrom]))⟩
        simpa [lexemesFrom, Lexeme.textOf] using found
      · rw [textOf_brace found closes] at found allowed
        have cuts : Cuts '}' tail := by
          rcases allowed.resolve_left Bool.false_ne_true with none_ | same
          · exact .inl none_
          · exact .inr (List.head?_eq_some_iff.mp same)
        obtain ⟨there, upTo⟩ := lexemesFrom_cut (by decide) cuts found rfl
        refine ⟨there, upTo, .inr ?_⟩
        rcases cuts with rfl | ⟨others, rfl⟩
        · exact .inl (by rw [lexemesFrom])
        · exact .inr (by rw [token_of_brace, List.head?_cons, Option.map_some, closes])

/-! ## Parse errors -/

/-- What is answered for a text: its first statement that fails has this fault and stands in
these blocks, and the error is the fault just if all of them are at their end behind the
statement, blanks and comments apart. -/
def Answers (text : List Char) (fault : ParseError) (ended : Bool) (blocks : List Location)
    (error : ParseError) : Prop :=
  ∃ left around, around.map Body.Enclosing.start = blocks ∧
    Body.Fails (Component.read text) fault ended left around ∧
    error = Body.reported fault around ∧
    (error = fault ↔
      ∀ enclosing ∈ around, ∀ c ∈ enclosing.left, c.isBlank = true ∨ c.isComment = true)

theorem Body.Fails.answers {text : List Char} {fault : ParseError} {ended : Bool}
    {left : List Component} {around : List Body.Enclosing}
    (fails : Body.Fails (Component.read text) fault ended left around) :
    ∃ error, Document.parse (String.ofList text) = .error error ∧
      Answers text fault ended (around.map Body.Enclosing.start) error := by
  refine ⟨_, ?_, left, around, rfl, fails, rfl, fails.reported_eq_iff⟩
  rw [Document.parse, Body.parse, String.toList_ofList, fails.read]
  rfl

/-- **A parse error is about the first statement that fails.**  It is an unknown word where
the statement starts, or a closing bracket outside all blocks.  Whatever text follows that
statement, or the end of the body that ends it, the same statement fails with the same
fault in the same blocks; the error is that fault just if nothing is left in these blocks. -/
theorem parse_fails {css : String} {error : ParseError}
    (failed : Document.parse css = .error error) :
    ∃ upTo tail fault ended blocks, css.toList = upTo ++ tail ∧
      Body.Fails (Component.read upTo) fault ended [] (blocks.map (⟨·, []⟩)) ∧
      (fault.fault = .unknownWord ∨ fault.fault = .strayBrace ∧ blocks = []) ∧
      (ended = true ∨ tail = [] ∨ tail.head? = some '}') ∧
      Answers css.toList fault ended blocks error ∧
      ∀ other, (ended = true ∨ other = [] ∨ other.head? = tail.head?) →
        ∃ error, Document.parse (String.ofList (upTo ++ other)) = .error error ∧
          Answers (upTo ++ other) fault ended blocks error := by
  obtain ⟨failure, read⟩ : ∃ failure,
      Body.read false (Component.read css.toList) = .error failure := by
    cases read : Body.read false (Component.read css.toList) with
    | error failure => exact ⟨failure, rfl⟩
    | ok body =>
        rw [Document.parse, Body.parse, read] at failed
        cases failed
  obtain ⟨fault, ended, left, around, fails⟩ := Body.exists_fails read
  obtain ⟨own, rest, split, breaks⟩ := @Body.Fails.exists_breaks [] _ _ _ _ _ _ fails (by simp) rfl
  have goesOn other (allowed : ended = true ∨ other = [] ∨
      other.head? = (Lexeme.textOf rest).head?) : ∃ left behind,
      behind.map Body.Enclosing.start = around.map Body.Enclosing.start ∧
        Body.Fails (Component.read (Lexeme.textOf own ++ other)) fault ended left behind := by
    obtain ⟨there, upTo, same⟩ := breaks.exists_lexemes split allowed
    rw [Component.read, upTo]
    exact breaks.fails _ same
  refine ⟨Lexeme.textOf own, Lexeme.textOf rest, fault, ended, around.map Body.Enclosing.start,
    ?_, ?_, ?_, ?_, ?_, ?_⟩
  · rw [← Lexeme.textOf_append, ← split, textOf_lexemes]
  · obtain ⟨there, upTo, -⟩ := breaks.exists_lexemes split (.inr (.inl rfl))
    rw [List.append_nil, lexemesFrom, List.append_nil] at upTo
    rw [Component.read, upTo]
    exact breaks.alone.2
  · exact fails.unknownWord_or_strayBrace.imp id fun brace => ⟨brace, (breaks.stray brace).2⟩
  · refine breaks.next.imp id (Or.imp ?_ ?_)
    · rintro rfl
      rfl
    · rintro ⟨closer, more, rfl, closes⟩
      rw [textOf_brace split closes]
      rfl
  · obtain ⟨other, parsed, answers⟩ := fails.answers
    rw [String.ofList_toList] at parsed
    cases parsed.symm.trans failed
    exact answers
  · intro other allowed
    obtain ⟨left, behind, same, fails⟩ := goesOn other allowed
    obtain ⟨error, parsed, answers⟩ := fails.answers
    exact ⟨error, parsed, same ▸ answers⟩

/-- The pole of `parse_fails`: a declaration is left behind the statement that fails, and the
error is about the block around them. -/
theorem parse_fails_unfinished :
    Document.parse ".a\x7bb;c:d\x7d" = .error ⟨.unfinishedBlock (.ident "c"), ⟨1, 1⟩⟩ ∧
      ∃ fault ended left around,
        Body.Fails (Component.read ".a\x7bb;c:d\x7d".toList) fault ended left around ∧
        fault.fault = .unknownWord ∧
        ∃ enclosing ∈ around, ∃ c ∈ enclosing.left, c.isBlank = false ∧ c.isComment = false := by
  have failed : Document.parse ".a\x7bb;c:d\x7d" =
      .error ⟨.unfinishedBlock (.ident "c"), ⟨1, 1⟩⟩ :=
    eq_error_of_computed _ _ (by decide +kernel)
  obtain ⟨-, -, fault, ended, blocks, -, -, kind, -, answers, -⟩ := parse_fails failed
  obtain ⟨left, around, starts, fails, same, atEnd⟩ := answers
  have other : ⟨.unfinishedBlock (.ident "c"), ⟨1, 1⟩⟩ ≠ fault := by
    rintro rfl
    rcases kind with kind | ⟨kind, -⟩ <;> cases kind
  refine ⟨failed, fault, ended, left, around, fails, ?_, ?_⟩
  · refine kind.resolve_right fun stray => other ?_
    rw [stray.2, List.map_eq_nil_iff] at starts
    subst starts
    exact same
  · by_contra nothing
    refine other (atEnd.mpr fun enclosing member c inside => ?_)
    by_contra solid
    exact nothing ⟨enclosing, member, c, inside, by simpa using solid⟩

/-- A parse error is not always about the statement that fails. -/
theorem parse_fails_not_always :
    ¬ ∀ css error, Document.parse css = .error error →
      error.fault = .unknownWord ∨ error.fault = .strayBrace := by
  intro named
  have failed : Document.parse ".a\x7bb;c:d\x7d" =
      .error ⟨.unfinishedBlock (.ident "c"), ⟨1, 1⟩⟩ :=
    eq_error_of_computed _ _ (by decide +kernel)
  rcases named _ _ failed with kind | kind <;> cases kind

end ApplyRule
