/-
# ApplyRule.Proofs.Classification -- which statement is which

Whether a statement is a declaration or a rule, and where its parts end, is decided from
the components of the text.  The parts can be told apart by their own text too
(`classified_of_parse`): of a parsed document, read on its own,

* a property has no outer colon, and a value no outer semicolon and no outer closing
  curly bracket;
* a value has an outer block in curly brackets only if the statement starts with the name
  of a custom property;
* a selector and the parameters of an at-rule have no outer semicolon and no outer curly
  bracket, and a selector that starts with such a name has no outer colon.
-/
import ApplyRule.Proofs.OuterTokens
import ApplyRule.Proofs.Outcome

namespace ApplyRule

set_option autoImplicit false

open Text Component

/-- Whether the token is an identifier that starts like the name of a custom property. -/
def Token.isCustom : Token → Bool
  | .ident name => ['-', '-'].isPrefixOf name.toList
  | _ => false

/-- The text has neither a semicolon nor a curly bracket outside its brackets. -/
def Unbroken (text : String) : Prop :=
  .semicolon ∉ outer text ∧ .opening .curly ∉ outer text ∧ .closing .curly ∉ outer text

/-- The texts of an item have only the outer tokens that statements of its kind can have.
The lexemes are those of the whole text. -/
def Item.Classified (lexemes : List Lexeme) (item : Item) : Prop :=
  match item.kind with
  | .declaration property value =>
      .colon ∉ outer property ∧ .semicolon ∉ outer value ∧ .closing .curly ∉ outer value ∧
        (.opening .curly ∈ outer value → ∃ lexeme ∈ lexemes,
          item.source = some lexeme.start ∧ lexeme.token.isCustom = true)
  | .rule selector =>
      Unbroken selector ∧
        ((outer selector).head?.any Token.isCustom = true → .colon ∉ outer selector)
  | .atRule _ params _ => Unbroken params
  | .comment _ => True
  | .root => True

/-! ## Components and their tokens -/

section Tokens

variable {source : List Lexeme} {part : List Component} {component : Component} {token : Token}
  (placed : Placed source part) (member : component ∈ part)

include placed member

theorem Component.Placed.endsValue
    (same : component.token = .semicolon ∨ component.token = .closing .curly) :
    component.endsValue = true := by
  rcases same with semicolon | closing
  · simp [Component.endsValue, placed.isLeaf member semicolon rfl]
  · simp [Component.endsValue, placed.isLeaf member closing rfl]

omit placed member in
theorem Component.Placed.startsCustom {rest : List Component}
    (placed : Placed source (component :: rest)) (custom : component.token.isCustom = true) :
    Component.startsCustom (component :: rest) = true := by
  rcases placed.shape List.mem_cons_self with ⟨lexeme, rfl, -⟩ | ⟨opener, body, closer, rfl, opens⟩
  · obtain ⟨token, text, start⟩ := lexeme
    cases token with
    | ident name => exact custom
    | _ => cases custom
  · cases own : opener.token with
    | ident name => exact absurd (by rw [own]; rfl) opens
    | _ =>
        simp only [Component.token, head, own] at custom
        cases custom

end Tokens

/-- A statement that starts with the name of a custom property. -/
theorem exists_of_startsCustom {component : Component} {rest : List Component}
    {source : List Lexeme} (sound : component.Sound source)
    (custom : startsCustom (component :: rest) = true) :
    ∃ lexeme ∈ source, component.start = lexeme.start ∧ lexeme.token.isCustom = true := by
  cases sound with
  | @leaf lexeme own =>
      refine ⟨lexeme, own, rfl, ?_⟩
      obtain ⟨token, text, start⟩ := lexeme
      cases token with
      | ident name => exact custom
      | _ => cases custom
  | block => cases custom

/-! ## Statements -/

section Statements

variable {source : List Char} {components part whole after rest : List Component}

/-- What stands around the components without the blanks at their ends. -/
theorem Trimmed.place (place : Within (components ++ after) (Component.read source)) :
    Within ((read components).core ++ ((read components).trail ++ after))
      (Component.read source) := by
  refine place.suffix ⟨(read components).lead, ?_⟩
  rw [← List.append_assoc, ← List.append_assoc, List.append_assoc (read components).lead,
    append_read]

/-- An outer divider of trimmed components is one of the components. -/
theorem Trimmed.mem_of_mem_outer (place : Within (components ++ after) (Component.read source))
    {token : Token} (divider : token.isDivider = true)
    (member : token ∈ outer (String.ofList (textOf (read components).core))) :
    ∃ c ∈ components, c.token = token := by
  obtain ⟨⟨c, among, same⟩, -⟩ :=
    (Trimmed.place place).mem_of_mem_outer (List.prefix_refl _) divider member
  refine ⟨c, ?_, same⟩
  rw [← append_read components]
  exact List.mem_append_right _ (List.mem_append_left _ among)

/-- A text is unbroken if its outer dividers are among components that go on to what ends a
statement. -/
theorem unbroken_of_components {text : String} (place : Within part (Component.read source))
    (inside : whole ⊆ part) (within : ∀ c ∈ whole, c.endsStatement = false)
    (dividers : ∀ token : Token, token.isDivider = true → token ∈ outer text →
      ∃ c ∈ whole, c.token = token) : Unbroken text := by
  have placed := place.placed (placed_read source)
  have absent {token : Token} (divider : token.isDivider = true)
      (ends : ∀ c ∈ part, c.token = token → c.endsStatement = true) : token ∉ outer text := by
    intro member
    obtain ⟨c, among, same⟩ := dividers token divider member
    have goesOn := within c among
    rw [ends c (inside among) same] at goesOn
    cases goesOn
  refine ⟨absent rfl fun c member same => ?_, absent rfl fun c member same => ?_,
    absent rfl fun c member same => ?_⟩
  · rw [endsStatement, placed.endsValue member (.inl same), Bool.true_or]
  · rw [endsStatement, placed.isCurlyBlock member same, Bool.or_true]
  · rw [endsStatement, placed.endsValue member (.inr same), Bool.true_or]

/-- The parameters of an at-rule go on to what ends a statement. -/
theorem unbroken_params (place : Within (whole ++ after) (Component.read source))
    (within : ∀ c ∈ whole, c.endsStatement = false) :
    Unbroken (String.ofList (textOf (Trimmed.read whole).core)) :=
  unbroken_of_components place (List.subset_append_left whole after) within
    fun _ divider member => Trimmed.mem_of_mem_outer place divider member

/-- The property of a declaration goes on to the colon, and its value to what ends the
statement. -/
theorem classified_declaration (place : Within (whole ++ after) (Component.read source))
    (within : ∀ c ∈ whole, ending (whole ++ after) c = false) {parts : Parts}
    (found : Parts.read? whole = some parts) :
    .colon ∉ outer (String.ofList parts.property) ∧
      .semicolon ∉ outer (String.ofList parts.value) ∧
      .closing .curly ∉ outer (String.ofList parts.value) ∧
      (.opening .curly ∈ outer (String.ofList parts.value) →
        startsCustom (whole ++ after) = true) := by
  have placed := place.placed (placed_read source)
  unfold Parts.read? at found
  split at found
  · cases found
  · rename_i colon tail split_
    cases found
    obtain ⟨parted, -⟩ := eq_takeWhile_append split_
    have beforeColon : ∀ c ∈ whole.takeWhile fun c => !c.isLeaf .colon, c.isLeaf .colon = false :=
      takeWhile_not
    generalize whole.takeWhile (fun c => !c.isLeaf .colon) = head at parted beforeColon ⊢
    subst parted
    have placeHead : Within (head ++ (colon :: tail ++ after)) (Component.read source) := by
      rwa [← List.append_assoc]
    have placeTail : Within (tail ++ after) (Component.read source) :=
      place.suffix ⟨head ++ [colon], by simp⟩
    have inTail {c : Component} (among : c ∈ tail) : c ∈ head ++ colon :: tail := by simp [among]
    have goesOn {c : Component} (among : c ∈ tail) : c.endsValue = false := by
      have goesOn := within c (inTail among)
      unfold ending at goesOn
      split at goesOn
      · exact goesOn
      · exact (Bool.or_eq_false_iff.mp goesOn).1
    have ends {token : Token} (either : token = .semicolon ∨ token = .closing .curly) :
        token ∉ outer (String.ofList (textOf (Trimmed.read tail).core)) := by
      intro member
      have divider : token.isDivider = true := by rcases either with rfl | rfl <;> rfl
      obtain ⟨c, among, same⟩ := Trimmed.mem_of_mem_outer placeTail divider member
      have isEnd := placed.endsValue (List.mem_append_left after (inTail among)) (same ▸ either)
      rw [goesOn among] at isEnd
      cases isEnd
    refine ⟨fun member => ?_, ends (.inl rfl), ends (.inr rfl), fun member => ?_⟩
    · obtain ⟨⟨c, among, same⟩, -⟩ := placeHead.mem_of_mem_outer
        ⟨takeEnd isSpace (textOf head), dropEnd_append_takeEnd isSpace (textOf head)⟩ rfl member
      have isColon := placed.isLeaf (by simp [among]) same rfl
      rw [beforeColon c among] at isColon
      cases isColon
    · obtain ⟨c, among, same⟩ := Trimmed.mem_of_mem_outer placeTail rfl member
      have curly := placed.isCurlyBlock (List.mem_append_left after (inTail among)) same
      by_contra other
      have goesOn := within c (inTail among)
      rw [ending, (Bool.not_eq_true _).mp other, Bool.false_and, if_neg Bool.false_ne_true,
        endsStatement, curly, Bool.or_true] at goesOn
      cases goesOn

/-- Where a block ends a statement, blocks are no part of it: if it starts with the name of
a custom property, no colon stands before the block. -/
theorem ending_of_block {opener : Lexeme} {body : List Component} {closer : Option Lexeme}
    (ends : ending components (.block opener body closer) = true) :
    ending components = endsStatement ∧ (startsCustom components = true →
      ∀ c ∈ components.takeWhile fun c => !c.endsStatement, c.isLeaf .colon = false) := by
  unfold ending at ends ⊢
  split at ends
  · cases ends
  · rename_i plain
    refine ⟨if_neg plain, fun custom c member => ?_⟩
    by_contra colon
    refine plain ?_
    rw [custom, Bool.true_and, List.any_eq_true]
    exact ⟨c, member, (Bool.not_eq_false _).mp colon⟩

/-- A selector goes on to the block that ends the statement. -/
theorem classified_rule {opener : Lexeme} {body : List Component} {closer : Option Lexeme}
    (place : Within (whole ++ .block opener body closer :: rest) (Component.read source))
    (within : ∀ c ∈ whole, ending (whole ++ .block opener body closer :: rest) c = false)
    (ends : ending (whole ++ .block opener body closer :: rest) (.block opener body closer) =
      true) :
    Unbroken (String.ofList (textOf (dropEnd Component.isBlank whole))) ∧
      ((outer (String.ofList (textOf (dropEnd Component.isBlank whole)))).head?.any
          Token.isCustom = true →
        .colon ∉ outer (String.ofList (textOf (dropEnd Component.isBlank whole)))) := by
  obtain ⟨plain, noColon⟩ := ending_of_block ends
  rw [plain] at within
  have placed := place.placed (placed_read source)
  have front : textOf (dropEnd Component.isBlank whole) <+: textOf whole := by
    refine ⟨textOf (takeEnd Component.isBlank whole), ?_⟩
    rw [← textOf_append, dropEnd_append_takeEnd]
  refine ⟨unbroken_of_components place (List.subset_append_left whole _) within
    fun _ divider member => (place.mem_of_mem_outer front divider member).1, ?_⟩
  intro custom member
  obtain ⟨⟨c, among, isColon⟩, first⟩ := place.mem_of_mem_outer front rfl member
  -- The statement starts with the token that the selector starts with.
  rw [first] at custom
  cases whole with
  | nil => cases among
  | cons component others =>
      have starts := placed.startsCustom custom
      have leaf := placed.isLeaf (List.mem_append_left _ among) isColon rfl
      have early : c ∈ (component :: others ++ .block opener body closer :: rest).takeWhile
          fun c => !c.endsStatement := by
        rw [List.takeWhile_append_of_pos (by simpa using within)]
        exact List.mem_append_left _ among
      rw [noColon starts c early] at leaf
      cases leaf

end Statements

/-! ## Items -/

theorem Item.Origin.classified {source : List Char} {item : Item}
    (origin : Item.Origin (Within · (Component.read source)) item) :
    item.Classified (lexemes source) := by
  cases origin with
  | @simple lead rest next component kind raws ended place fillers cut =>
      have sound := place.sound (sound_read source) component (by simp)
      replace place := place.suffix (List.suffix_append lead _)
      have afterKeyword := place.suffix (List.suffix_cons component rest)
      cases cut with
      | comment token => trivial
      | openAtRule token within =>
          have alone : Within (rest ++ []) (Component.read source) := by rwa [List.append_nil]
          exact unbroken_params alone within
      | atRule token split within ends => exact unbroken_params (split ▸ afterKeyword) within
      | openDeclaration within found =>
          have alone : Within (component :: rest ++ []) (Component.read source) := by
            rwa [List.append_nil]
          obtain ⟨property, ends, closes, custom⟩ := classified_declaration alone
            (by rwa [List.append_nil]) found
          rw [List.append_nil] at custom
          refine ⟨property, ends, closes, fun member => ?_⟩
          obtain ⟨lexeme, own, start, name⟩ := exists_of_startsCustom sound (custom member)
          exact ⟨lexeme, own, congrArg some start, name⟩
      | declaration split within found ends =>
          obtain ⟨property, ends, closes, custom⟩ := classified_declaration (split ▸ place)
            (split ▸ within) found
          rw [← split] at custom
          refine ⟨property, ends, closes, fun member => ?_⟩
          obtain ⟨lexeme, own, start, name⟩ := exists_of_startsCustom sound (custom member)
          exact ⟨lexeme, own, congrArg some start, name⟩
  | @block lead rest next inner component kind raws body place fillers cut inside =>
      replace place := place.suffix (List.suffix_append lead _)
      have afterKeyword := place.suffix (List.suffix_cons component rest)
      cases cut with
      | blockAtRule token split within opens => exact unbroken_params (split ▸ afterKeyword) within
      | rule split within opens ends =>
          rw [split] at place within ends
          exact classified_rule place within ends

/-! ## Documents -/

/-- **Statements are told apart by their texts**: in a parsed document, the texts of each
item have only the outer tokens that statements of its kind can have. -/
theorem classified_of_parse {css : String} {document : Document} {id : NodeId} {item : Item}
    {children : Forest Node} (parsed : Document.parse css = .ok document)
    (found : document.find? id = some (item, children)) :
    item.Classified (lexemes css.toList) := by
  rcases Document.origin_of_parse parsed found with ⟨-, body, -, rfl⟩ | ⟨-, origin⟩
  · trivial
  · exact origin.classified

/-- A custom property with a block in its value. -/
theorem classified_of_parse_custom :
    ∃ document item children, Document.parse "--a:b(;)\x7bc:d;\x7d;" = .ok document ∧
      document.find? ⟨2⟩ = some (item, children) ∧
      item.kind = .declaration "--a" "b(;)\x7bc:d;\x7d" ∧
      .opening .curly ∈ outer "b(;)\x7bc:d;\x7d" ∧
      item.Classified (lexemes "--a:b(;)\x7bc:d;\x7d;".toList) := by
  obtain ⟨document, parsed, computed⟩ := exists_ok_of_any
    (Document.parse "--a:b(;)\x7bc:d;\x7d;")
    (fun document => (document.find? ⟨2⟩).any fun node =>
      node.1.kind = .declaration "--a" "b(;)\x7bc:d;\x7d")
    (by decide +kernel)
  obtain ⟨⟨item, children⟩, found, kind⟩ := (Option.any_eq_true ..).mp computed
  exact ⟨document, item, children, parsed, found, of_decide_eq_true kind, by decide +kernel,
    classified_of_parse parsed found⟩

end ApplyRule
