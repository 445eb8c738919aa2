/-
# ApplyRule.Proofs.SetStatement -- statements that begin with the name of a set

The written name of a set is read as one word (`inFront_name`).  What follows it decides
what is read:

* before a block it is a selector, and the statement is a rule (`Piece.read_rule`);
* before a colon it is a property, and the statement is a declaration that lasts to the
  next semicolon or to the end, over any blocks (`Piece.statement_declared`,
  `Piece.statement_declared_open`).
-/
import ApplyRule.Proofs.ClosedBlock

namespace ApplyRule

set_option autoImplicit false

open Text Scan Component

/-! ## Names -/

theorem toList_writtenName (name : String) :
    (writtenName name).toList = '-' :: '-' :: name.toList := by
  rw [writtenName, String.toList_append]
  rfl

/-- A name that can be read is made of the characters of names. -/
theorem isNameChar_of_setName? {name : String} (named : setName? (writtenName name) = some name) :
    name.toList ≠ [] ∧ ∀ c ∈ (writtenName name).toList, SetName.isNameChar c = true := by
  rw [setName?, toList_writtenName] at named
  obtain ⟨own, read, same⟩ := Option.map_eq_some_iff.mp named
  rw [SetName.read?] at read
  split at read
  · cases read
  · rename_i filled
    split at read
    · cases read
      have whole : name.toList.takeWhile SetName.isNameChar = name.toList := by
        rw [← String.toList_ofList (l := name.toList.takeWhile _), same]
      rw [whole] at filled
      rw [toList_writtenName]
      refine ⟨by simpa using filled, ?_⟩
      simp only [List.mem_cons, forall_eq_or_imp]
      exact ⟨by decide, by decide, List.takeWhile_eq_self_iff.mp whole⟩
    · cases read

/-- The written name of a set as a component. -/
def Component.ofName (name : String) : Component :=
  word (writtenName name).toList

/-- The name of a set is read as a word. -/
theorem inFront_name {name : String} (named : setName? (writtenName name) = some name)
    {more : List Char} (ends : ∀ c ∈ more.head?, endsWord c = true) :
    InFront [ofName name] (writtenName name).toList more := by
  obtain ⟨filled, all⟩ := isNameChar_of_setName? named
  have read : Lexeme.plain ((writtenName name).toList ++ more) =
      [.ofWord (writtenName name).toList] ++ Lexeme.plain more := by
    refine Lexeme.plain_word all ?_ ?_ ?_ ends
    · rw [toList_writtenName]
      rfl
    · rw [toList_writtenName]
      rfl
    · rw [toList_writtenName] at all ⊢
      cases chars : name.toList with
      | nil => exact absurd chars filled
      | cons c rest =>
          have isName := all c (by simp [chars])
          have other : '>' ≠ c := by
            rintro rfl
            exact absurd isName (by decide)
          simp [startsWith, List.isPrefixOf, other]
  exact inFront_leaves read (by simp [Lexeme.ofWord, Token.opens?, Token.closes?])

/-! ## The ends of lists -/

section Ends

variable {α : Type} {p : α → Bool} {first second : List α}

theorem dropEnd_eq_nil_of_all (all : ∀ a ∈ second, p a = true) : dropEnd p second = [] := by
  induction second with
  | nil => rfl
  | cons a rest ih =>
      rw [dropEnd, ih fun b member => all b (List.mem_cons_of_mem a member)]
      simp [all a List.mem_cons_self]

theorem dropEnd_append (all : ∀ a ∈ second, p a = true) :
    dropEnd p (first ++ second) = dropEnd p first := by
  induction first with
  | nil => exact dropEnd_eq_nil_of_all all
  | cons a rest ih => rw [List.cons_append, dropEnd, dropEnd, ih]

theorem dropEnd_concat {a : α} (stays : p a = false) :
    dropEnd p (first ++ [a]) = first ++ [a] := by
  induction first with
  | nil => simp [dropEnd, stays]
  | cons b rest ih =>
      rw [List.cons_append, dropEnd, ih]
      cases rest <;> rfl

theorem dropEnd_eq_self (none_ : ∀ a ∈ first, p a = false) : dropEnd p first = first := by
  rcases List.eq_nil_or_concat first with rfl | ⟨front, last, rfl⟩
  · rfl
  · rw [List.concat_eq_append] at none_ ⊢
    exact dropEnd_concat (none_ last (by simp))

end Ends

/-! ## Components that end nothing -/

section Pieces

variable {name : String} {gap inner after : List Char} {components core : List Component}

theorem isBlank_of_mem_blanks {text : List Char} (blank : ∀ c ∈ text, isBlank c = true)
    {component : Component} (member : component ∈ blanks text) : component.isBlank = true := by
  obtain ⟨lexeme, among, rfl⟩ := List.mem_map.mp member
  exact decide_eq_true (Lexeme.token_of_blank blank among)

/-- Blanks end neither a property nor a statement nor a value. -/
theorem goesOn_of_mem_blanks {text : List Char} (blank : ∀ c ∈ text, isBlank c = true)
    {component : Component} (member : component ∈ blanks text) :
    component.isLeaf .colon = false ∧ component.endsStatement = false ∧
      component.endsValue = false := by
  obtain ⟨lexeme, among, rfl⟩ := List.mem_map.mp member
  simp [isLeaf, endsStatement, endsValue, isCurlyBlock, Lexeme.token_of_blank blank among]

@[simp] theorem textOf_blanks (text : List Char) : textOf (blanks text) = text := by
  rw [blanks, textOf_leaves, Lexeme.plain, Lexeme.textOf_unplaced, textOf_lexemes]

@[simp] theorem text_ofName (name : String) :
    (Component.ofName name).text = (writtenName name).toList := rfl

@[simp] theorem endsStatement_ofName (name : String) :
    (Component.ofName name).endsStatement = false := rfl

@[simp] theorem endsValue_ofName (name : String) : (Component.ofName name).endsValue = false := rfl

@[simp] theorem isLeaf_colon_ofName (name : String) :
    (Component.ofName name).isLeaf .colon = false := rfl

@[simp] theorem isBlank_ofName (name : String) : (Component.ofName name).isBlank = false := rfl

@[simp] theorem startsCustom_ofName (name : String) (rest : List Component) :
    startsCustom (.ofName name :: rest) = true := by
  simp [ofName, word, Lexeme.ofWord, startsCustom, toList_writtenName]

@[simp] theorem endsStatement_enclosed (components : List Component) :
    (enclosed components).endsStatement = true := rfl

/-! ## Rules -/

theorem Piece.read_ofName (name : String) (rest : List Component) :
    Piece.read (.ofName name) rest = Piece.statement .first (.ofName name :: rest) := rfl

variable (blank : ∀ c ∈ gap, isBlank c = true)
include blank

theorem goesOn_name : ∀ c ∈ Component.ofName name :: blanks gap,
    c.isLeaf .colon = false ∧ c.endsStatement = false ∧ c.endsValue = false := by
  intro c member
  rcases List.mem_cons.mp member with rfl | among
  · exact ⟨rfl, rfl, rfl⟩
  · exact goesOn_of_mem_blanks blank among

/-- What stands before a block is a selector if it is no custom property. -/
theorem Piece.statement_block {head : List Component} (solid : dropEnd Component.isBlank head = head)
    (goesOn : ∀ c ∈ head, c.endsStatement = false)
    (plain : startsCustom head = false ∨ head.any (isLeaf .colon) = false)
    (rest : List Component) :
    Piece.statement .first (head ++ (blanks gap ++ enclosed components :: rest)) =
      (.block (.rule (String.ofList (textOf head))) { between := String.ofList gap } components,
        rest) := by
  have all : ∀ c ∈ head ++ blanks gap, (!c.endsStatement) = true := by
    intro c member
    rcases List.mem_append.mp member with among | among
    · simp [goesOn c among]
    · simp [goesOn_of_mem_blanks blank among]
  have taken : (head ++ (blanks gap ++ enclosed components :: rest)).takeWhile
      (fun c => !c.endsStatement) = head ++ blanks gap := by
    rw [← List.append_assoc, List.takeWhile_append_of_pos all]
    simp
  have dropped : (head ++ (blanks gap ++ enclosed components :: rest)).dropWhile
      (fun c => !c.endsStatement) = enclosed components :: rest := by
    rw [← List.append_assoc, List.dropWhile_append_of_pos all]
    simp
  have ends : ending (head ++ (blanks gap ++ enclosed components :: rest)) = endsStatement := by
    have none_ : (blanks gap).any (isLeaf .colon) = false := by
      rw [List.any_eq_false]
      intro c member
      simp [goesOn_of_mem_blanks blank member]
    rw [ending, taken, List.any_append, none_, Bool.or_false]
    rcases plain with plain | plain
    · cases head with
      | nil =>
          rw [List.any_nil, Bool.and_false]
          rfl
      | cons first others =>
          have same : startsCustom (first :: others ++ (blanks gap ++ enclosed components :: rest)) =
              startsCustom (first :: others) := rfl
          rw [same, plain]
          rfl
    · rw [plain, Bool.and_false]
      rfl
  have kept : dropEnd Component.isBlank (head ++ blanks gap) = head := by
    rw [dropEnd_append fun _ => isBlank_of_mem_blanks blank, solid]
  unfold Piece.statement
  dsimp only
  rw [ends, taken, dropped]
  simp [enclosed, takeEnd, kept]

/-- A name before a block begins a rule. -/
theorem Piece.read_rule (rest : List Component) :
    Piece.read (.ofName name) (blanks gap ++ enclosed components :: rest) =
      (.block (.rule (writtenName name)) { between := String.ofList gap } components, rest) := by
  have whole : Piece.statement .first ([.ofName name] ++ (blanks gap ++ enclosed components :: rest)) =
      _ := statement_block blank rfl (by simp) (.inr (by simp)) rest
  rw [read_ofName, ← List.singleton_append, whole]
  simp [textOf]

/-! ## Declarations -/

/-- Components that can be a value: no blank is at their ends, and none of them ends a
value. -/
structure Component.IsValue (core : List Component) : Prop where
  filled : core ≠ []
  first : ∀ c ∈ core.head?, c.isBlank = false
  last : ∀ c ∈ core.getLast?, c.isBlank = false
  goesOn : ∀ c ∈ core, c.endsValue = false

/-- The components of a declaration of a set, up to what ends it. -/
def Component.declared (name : String) (gap inner : List Char) (core : List Component)
    (after : List Char) : List Component :=
  .ofName name :: (blanks gap ++ mark ':' :: (blanks inner ++ (core ++ blanks after)))

omit blank in
theorem Trimmed.read_value (value : IsValue core) (within : ∀ c ∈ inner, isBlank c = true)
    (behind : ∀ c ∈ after, isBlank c = true) :
    Trimmed.read (blanks inner ++ (core ++ blanks after)) =
      ⟨blanks inner, core, blanks after⟩ := by
  have before : ∀ c ∈ blanks inner, c.isBlank = true := fun _ => isBlank_of_mem_blanks within
  have kept : dropEnd Component.isBlank (core ++ blanks after) = core := by
    rw [dropEnd_append fun _ => isBlank_of_mem_blanks behind]
    rcases List.eq_nil_or_concat core with rfl | ⟨front, last, rfl⟩
    · rfl
    · rw [List.concat_eq_append]
      exact dropEnd_concat (value.last last (by simp))
  obtain ⟨filled, first, -, -⟩ := value
  cases core with
  | nil => exact absurd rfl filled
  | cons component rest =>
      have solid := first component rfl
      have dropped : (blanks inner ++ (component :: rest ++ blanks after)).dropWhile
          Component.isBlank = component :: rest ++ blanks after := by
        rw [List.dropWhile_append_of_pos before]
        simp [solid]
      have taken : (blanks inner ++ (component :: rest ++ blanks after)).takeWhile
          Component.isBlank = blanks inner := by
        rw [List.takeWhile_append_of_pos before]
        simp [solid]
      unfold Trimmed.read
      rw [dropped, taken]
      simp only [List.cons_append] at kept ⊢
      rw [takeEnd, kept]
      simp

variable (named : setName? (writtenName name) = some name) (value : IsValue core)
  (within : ∀ c ∈ inner, isBlank c = true) (behind : ∀ c ∈ after, isBlank c = true)

include named value within behind

theorem Parts.read?_declared : ∃ between, Parts.read? (declared name gap inner core after) =
    some ⟨(writtenName name).toList, between, textOf core, blanks after⟩ := by
  have goesOn : ∀ c ∈ Component.ofName name :: blanks gap, (!c.isLeaf .colon) = true :=
    fun c member => by simp [goesOn_name blank c member]
  have colon : (mark ':').isLeaf .colon = true := rfl
  have dropped : (declared name gap inner core after).dropWhile (fun c => !c.isLeaf .colon) =
      mark ':' :: (blanks inner ++ (core ++ blanks after)) := by
    rw [declared, ← List.cons_append, List.dropWhile_append_of_pos goesOn]
    simp [colon]
  have taken : (declared name gap inner core after).takeWhile (fun c => !c.isLeaf .colon) =
      .ofName name :: blanks gap := by
    rw [declared, ← List.cons_append, List.takeWhile_append_of_pos goesOn]
    simp [colon]
  have property : trimEnd ((writtenName name).toList ++ gap) = (writtenName name).toList := by
    rw [trimEnd, dropEnd_append fun c member => isSpace_of_isBlank c (blank c member)]
    exact dropEnd_eq_self fun c member =>
      (SetName.of_isNameChar ((isNameChar_of_setName? named).2 c member)).2.2.2
  refine ⟨takeEnd isSpace ((writtenName name).toList ++ gap) ++ (mark ':').text ++ inner, ?_⟩
  unfold Parts.read?
  rw [dropped, taken]
  simp only [Trimmed.read_value value within behind, textOf, text_ofName, textOf_blanks, property]

omit named in
theorem goesOn_declared : ∀ c ∈ declared name gap inner core after, (!c.endsValue) = true := by
  intro c member
  rw [declared, ← List.cons_append] at member
  rcases List.mem_append.mp member with among | member
  · simp [goesOn_name blank c among]
  simp only [List.mem_cons, List.mem_append] at member
  rcases member with rfl | among | among | among
  · rfl
  · simp [goesOn_of_mem_blanks within among]
  · simp [value.goesOn c among]
  · simp [goesOn_of_mem_blanks behind among]

omit named value within behind in
theorem ending_declared (ends : List Component) :
    ending (declared name gap inner core after ++ ends) = endsValue := by
  have goesOn : ∀ c ∈ Component.ofName name :: blanks gap, (!c.endsStatement) = true :=
    fun c member => by simp [goesOn_name blank c member]
  have colon : (mark ':').endsStatement = false := rfl
  have isColon : (mark ':').isLeaf .colon = true := rfl
  have found : ((declared name gap inner core after ++ ends).takeWhile
      fun c => !c.endsStatement).any (isLeaf .colon) = true := by
    rw [declared, ← List.cons_append, List.append_assoc, List.takeWhile_append_of_pos goesOn]
    simp [colon, isColon]
  rw [ending, found, declared, List.cons_append, startsCustom_ofName]
  rfl

/-- A declaration of a set lasts to the semicolon. -/
theorem Piece.statement_declared (rest : List Component) : ∃ raws,
    Piece.statement .first (declared name gap inner core after ++ mark ';' :: rest) =
      (.simple (.declaration (writtenName name) (String.ofList (textOf core))) raws (some true),
        rest) := by
  obtain ⟨between, parts⟩ := Parts.read?_declared blank named value within behind
  have goesOn : ∀ c ∈ declared name gap inner core after, (!c.endsValue) = true :=
    goesOn_declared blank value within behind
  have isStop : (Lexeme.ofSingle ';').token = .semicolon := rfl
  have ends : (mark ';').endsValue = true := rfl
  have taken : (declared name gap inner core after ++ mark ';' :: rest).takeWhile
      (fun c => !c.endsValue) = declared name gap inner core after := by
    rw [List.takeWhile_append_of_pos goesOn]
    simp [ends]
  have dropped : (declared name gap inner core after ++ mark ';' :: rest).dropWhile
      (fun c => !c.endsValue) = mark ';' :: rest := by
    rw [List.dropWhile_append_of_pos goesOn]
    simp [ends]
  refine ⟨{ between := String.ofList between, after := String.ofList after }, ?_⟩
  unfold Piece.statement
  dsimp only
  rw [ending_declared blank, taken, dropped]
  simp only [mark, if_pos isStop, parts, Parts.kind, String.ofList_toList, textOf_blanks]

/-- Without a semicolon it lasts to the end. -/
theorem Piece.statement_declared_open : ∃ raws,
    Piece.statement .first (declared name gap inner core after) =
      (.simple (.declaration (writtenName name) (String.ofList (textOf core))) raws (some false),
        blanks after) := by
  obtain ⟨between, parts⟩ := Parts.read?_declared blank named value within behind
  have goesOn : ∀ c ∈ declared name gap inner core after, (!c.endsValue) = true :=
    goesOn_declared blank value within behind
  have ends : ending (declared name gap inner core after ++ []) = endsValue :=
    ending_declared blank []
  rw [List.append_nil] at ends
  refine ⟨{ between := String.ofList between }, ?_⟩
  unfold Piece.statement
  dsimp only
  rw [ends, List.takeWhile_eq_self_iff.mpr goesOn, List.dropWhile_eq_nil_iff.mpr goesOn]
  simp only [parts, Parts.kind, String.ofList_toList]

end Pieces

end ApplyRule
