/-
# ApplyRule.Proofs.OuterTokens -- the outer tokens of a part of a text

The outer tokens of a text are those that stand outside all of its brackets.  A part of
a text that is read on its own may have other tokens than it has in its text: cut off
early, a string or a URL can take in what were several tokens.  A divider never comes to
light that way, because the tokens of a text and of a longer text are the same up to the
last divider (`lexemesFrom_append`).  So an outer token that is a divider is one of the
components that the text of the part was written in (`mem_of_mem_outer`).
-/
import ApplyRule.Proofs.Regrouping

namespace ApplyRule

set_option autoImplicit false

open Text Scan Component

/-- The tokens of a text outside all of its brackets.  A block counts as the token that
opens it. -/
def outer (text : String) : List Token :=
  (Component.read text.toList).map Component.token

/-- Whether the token is a divider. -/
def Token.isDivider (token : Token) : Bool :=
  token.mark?.any Scan.isDivider

theorem length_lt_of_mem_drop {α : Type} {a : α} {list : List α} {n : Nat}
    (member : a ∈ list.drop n) : n < list.length := by
  have some_ := List.length_pos_of_mem member
  rw [List.length_drop] at some_
  omega

/-! ## A text and a longer text -/

/-- A divider is read alone, whatever follows. -/
theorem Token.read_divider {c : Char} (divider : Scan.isDivider c = true) (rest : List Char) :
    Token.read c rest = (single c, 0) := by
  refine of_divider (p := fun c => Token.read c rest = (single c, 0)) divider ?_
  refine ⟨?_, ?_, ?_, ?_, ?_, ?_⟩ <;> cases rest <;> rfl

/-- What starts with a divider is that divider. -/
theorem Lexeme.token_of_divider {here : Location} {text : List Char} {lexeme : Lexeme} {m : Char}
    (member : lexeme ∈ lexemesFrom here text) (divider : Scan.isDivider m = true)
    (first : lexeme.text.head? = some m) : lexeme.token = single m := by
  fun_induction lexemesFrom here text with
  | case1 => cases member
  | case2 here c rest token length read own ih =>
      rcases List.mem_cons.mp member with rfl | later
      · cases Option.some.inj first
        cases (Token.read_divider divider rest).symm.trans read
        rfl
      · exact ih later

/-- A token that has a divider after it is read in the same way in a longer text. -/
theorem Token.read_append {c z : Char} {rest : List Char} (divider : Scan.isDivider z = true)
    (later : z ∈ rest.drop (Token.read c rest).2) (more : List Char) :
    Token.read c (rest ++ more) = Token.read c rest := by
  obtain ⟨gap, back, split⟩ := List.append_of_mem later
  have length := length_lt_of_mem_drop later
  have whole : rest = (rest.take (Token.read c rest).2 ++ gap) ++ z :: back := by
    rw [List.append_assoc, ← split, List.take_append_drop]
  have within : (Token.read c rest).2 ≤ (rest.take (Token.read c rest).2 ++ gap).length := by
    rw [List.length_append, List.length_take]
    omega
  generalize rest.take (Token.read c rest).2 ++ gap = text at whole within
  subst whole
  have short := Token.read_cut divider (.inr ⟨back, rfl⟩) within
  have long := Token.read_cut divider (.inr ⟨back ++ more, rfl⟩) within
  rw [short, List.append_assoc, List.cons_append, long]

/-- **A text and a longer text** are read in the same way up to some token, and the text
has no dividers from there on. -/
theorem lexemesFrom_append (here : Location) (text more : List Char) :
    ∃ same ends others, lexemesFrom here text = same ++ ends ∧
      lexemesFrom here (text ++ more) = same ++ others ∧
      ∀ lexeme ∈ ends, lexeme.token.isDivider = false := by
  fun_induction lexemesFrom here text with
  | case1 here => exact ⟨[], [], lexemesFrom here more, rfl, rfl, by simp⟩
  | case2 here c rest token length read own ih =>
      have goesOn (alike : Token.read c (rest ++ more) = (token, length))
          (within : length ≤ rest.length) : ∃ same ends others,
          own :: lexemesFrom own.stop (rest.drop length) = same ++ ends ∧
            lexemesFrom here (c :: rest ++ more) = same ++ others ∧
            ∀ lexeme ∈ ends, lexeme.token.isDivider = false := by
        obtain ⟨same, ends, others, short, long, plain⟩ := ih
        refine ⟨own :: same, ends, others, by rw [short, List.cons_append], ?_, plain⟩
        rw [List.cons_append, lexemesFrom_cons, alike, List.take_append_of_le_length within,
          List.drop_append_of_le_length within, List.cons_append, ← long]
        rfl
      by_cases divider : Scan.isDivider c = true
      · have alone := Token.read_divider divider
        cases (alone rest).symm.trans read
        exact goesOn (alone _) (Nat.zero_le _)
      · by_cases later : ∃ z ∈ rest.drop length, Scan.isDivider z = true
        · obtain ⟨z, member, isDivider⟩ := later
          refine goesOn ?_ (length_lt_of_mem_drop member).le
          rw [Token.read_append isDivider (by rwa [read]), read]
        · refine ⟨[], own :: lexemesFrom own.stop (rest.drop length), _, rfl, rfl, ?_⟩
          intro lexeme member
          by_contra divides
          obtain ⟨m, marked, isDivider⟩ :=
            (Option.any_eq_true ..).mp ((Bool.not_eq_false _).mp divides)
          rcases List.mem_cons.mp member with rfl | among
          · have first : (Token.read c rest).1.mark? = some m := by rw [read]; exact marked
            exact divider ((Token.read_mark first).1 ▸ isDivider)
          · refine later ⟨m, ?_, isDivider⟩
            rw [← textOf_lexemesFrom own.stop (rest.drop length), Lexeme.textOf, List.mem_flatMap]
            exact ⟨lexeme, among, by simp [(written_of_mem_lexemes among).mark m marked]⟩

/-- Some lexemes of a text on are the lexemes of what they were read from. -/
theorem lexemesFrom_suffix {here : Location} {text : List Char} {front tail : List Lexeme}
    (found : lexemesFrom here text = front ++ tail) :
    ∃ there, lexemesFrom there (Lexeme.textOf tail) = tail := by
  induction front generalizing here text with
  | nil => exact ⟨here, by rw [← List.nil_append tail, ← found, textOf_lexemesFrom]⟩
  | cons lexeme front ih =>
      cases text with
      | nil => rw [lexemesFrom] at found; cases found
      | cons c rest =>
          rw [lexemesFrom_cons, List.cons_append] at found
          exact ih (List.cons.inj found).2

theorem Lexeme.textOf_append (first second : List Lexeme) :
    textOf (first ++ second) = textOf first ++ textOf second :=
  List.flatMap_append

/-- Of two fronts of the same lexemes, the one with no more text is the front of the other. -/
theorem Lexeme.isPrefix_of_length_textOf_le {same others own later : List Lexeme}
    (both : same ++ others = own ++ later) (solid : ∀ lexeme ∈ own ++ later, lexeme.text ≠ [])
    (shorter : (textOf same).length ≤ (textOf own).length) : same <+: own := by
  rcases List.prefix_or_prefix_of_prefix (both ▸ List.prefix_append same others)
    (List.prefix_append own later) with inside | ⟨extra, rfl⟩
  · exact inside
  · cases extra with
    | nil => exact ⟨[], by simp⟩
    | cons lexeme more =>
        have among : lexeme ∈ own ++ later := both ▸ by simp
        have some_ := List.length_pos_iff.mpr (solid lexeme among)
        simp only [textOf, List.flatMap_append, List.flatMap_cons, List.length_append] at shorter
        omega

/-! ## A part of a body -/

namespace Component

variable {source : List Char} {whole after : List Component} {text : List Char}

/-- Where a text stands does not matter for its components but for their locations. -/
theorem plain_eq_group (there : Location) (text : List Char) :
    plain text = (group (lexemesFrom there text)).map unplaced := by
  rw [plain_eq, ← unplaced_lexemesFrom there, group, levels_unplaced]
  rfl

/-- The outer tokens do not depend on where the text stands. -/
theorem outer_eq (there : Location) (text : List Char) :
    outer (String.ofList text) = (outside [] (lexemesFrom there text)).map Lexeme.token := by
  have blind : token ∘ unplaced = token := by
    funext component
    cases component <;> rfl
  have tokens := congrArg (List.map token) (plain_eq_group there text)
  rw [plain, List.map_map, List.map_map, blind] at tokens
  rw [outer, String.toList_ofList, tokens, ← heads_group, List.map_map]
  rfl

/-- What stands in a body is a leaf or a block, by its token. -/
theorem Placed.shape {source : List Lexeme} {part : List Component} (placed : Placed source part)
    {component : Component} (member : component ∈ part) :
    (∃ lexeme, component = .leaf lexeme ∧ lexeme.token.opens? = none) ∨
      ∃ opener body closer, component = .block opener body closer ∧
        opener.token.opens? ≠ none := by
  obtain ⟨before, rest, rfl⟩ := List.append_of_mem member
  obtain ⟨front, stack, tail, -, found⟩ := placed.suffix (List.suffix_append before _)
  rcases levels_cases found.symm with
    ⟨lexeme, _, _, leaf, rfl, -⟩ | ⟨opener, _, _, _, _, _, opens, _, rfl, -⟩
  · exact .inl ⟨lexeme, rfl, leaf⟩
  · exact .inr ⟨opener, _, _, rfl, by simp [opens]⟩

section Tokens

variable {source : List Lexeme} {part : List Component} {component : Component} {token : Token}
  (placed : Placed source part) (member : component ∈ part)

include placed member

theorem Placed.isLeaf (same : component.token = token) (leaf : token.opens? = none) :
    component.isLeaf token = true := by
  subst same
  rcases placed.shape member with ⟨lexeme, rfl, -⟩ | ⟨opener, body, closer, rfl, opens⟩
  · exact decide_eq_true rfl
  · exact absurd leaf opens

theorem Placed.isCurlyBlock (same : component.token = .opening .curly) :
    component.isCurlyBlock = true := by
  rcases placed.shape member with ⟨lexeme, rfl, leaf⟩ | ⟨opener, body, closer, rfl, -⟩
  · have opens : lexeme.token.opens? = some .curly := by
      rw [show lexeme.token = .opening .curly from same]
      rfl
    rw [leaf] at opens
    cases opens
  · exact decide_eq_true same

end Tokens

/-- The lexemes that components of a body are grouped from are read from their text. -/
theorem Within.exists_lexemes (place : Within (whole ++ after) (read source)) :
    ∃ there own more later, group own = whole ∧
      lexemesFrom there (textOf whole ++ more) = own ++ later := by
  obtain ⟨front, stack, tail, split, found⟩ := place.placed (placed_read source)
  obtain ⟨own, later, rfl, grouped, -⟩ := Component.exists_lexemes found.symm
  obtain ⟨there, read⟩ := lexemesFrom_suffix split
  refine ⟨there, own, Lexeme.textOf later, later, grouped, ?_⟩
  rw [← grouped, textOf_group, ← Lexeme.textOf_append, read]

/-- The front of a text of a body is read on its own as in the body, up to some token,
and it has no dividers from there on. -/
theorem Within.exists_same (place : Within (whole ++ after) (read source))
    (front : text <+: textOf whole) :
    ∃ there same ends rest more later, lexemesFrom there text = same ++ ends ∧
      lexemesFrom there (textOf whole ++ more) = same ++ (rest ++ later) ∧
      group (same ++ rest) = whole ∧ ∀ lexeme ∈ ends, lexeme.token.isDivider = false := by
  obtain ⟨there, own, more, later, grouped, read⟩ := place.exists_lexemes
  obtain ⟨left, split⟩ := front
  obtain ⟨same, ends, others, short, long, plain⟩ := lexemesFrom_append there text (left ++ more)
  rw [← List.append_assoc, split] at long
  have both := long.symm.trans read
  have inside : same <+: own := by
    refine Lexeme.isPrefix_of_length_textOf_le both (fun lexeme among => ?_) ?_
    · exact (written_of_mem_lexemes (read ▸ among)).nonempty
    · have kept := congrArg Lexeme.textOf short
      rw [textOf_lexemesFrom, Lexeme.textOf_append] at kept
      have longer := congrArg List.length (split.trans (congrArg textOf grouped).symm)
      rw [textOf_group, kept, List.length_append, List.length_append] at longer
      omega
  obtain ⟨rest, rfl⟩ := inside
  rw [List.append_assoc] at read
  exact ⟨there, same, ends, rest, more, later, short, read, grouped, plain⟩

/-- The text of components, all of it, is read on its own as in the body up to its last
divider. -/
theorem Within.exists_same_whole (place : Within (whole ++ after) (read source)) :
    ∃ there same ends rest, lexemesFrom there (textOf whole) = same ++ ends ∧
      group (same ++ rest) = whole ∧ (∀ lexeme ∈ ends, lexeme.token.isDivider = false) ∧
      ∀ lexeme ∈ rest, lexeme.token.isDivider = false := by
  obtain ⟨there, same, ends, rest, more, later, short, long, grouped, plain⟩ :=
    place.exists_same (List.prefix_refl _)
  refine ⟨there, same, ends, rest, short, grouped, plain, fun lexeme member => ?_⟩
  by_contra divides
  obtain ⟨m, marked, divider⟩ := (Option.any_eq_true ..).mp ((Bool.not_eq_false _).mp divides)
  obtain ⟨before, behind, rfl⟩ := List.append_of_mem member
  have written : lexeme.text = [m] := by
    have among : lexeme ∈ lexemesFrom there (textOf whole ++ more) := by rw [long]; simp
    exact (written_of_mem_lexemes among).mark m marked
  have text : textOf whole =
      Lexeme.textOf (same ++ before) ++ m :: Lexeme.textOf behind := by
    rw [← grouped, textOf_group]
    simp [Lexeme.textOf, written]
  -- Up to the divider both are read alike, so that it is among the lexemes that are none.
  have upTo : lexemesFrom there (Lexeme.textOf (same ++ before) ++
      m :: (Lexeme.textOf behind ++ more)) = (same ++ before) ++ lexeme :: (behind ++ later) := by
    rw [text, List.append_assoc, List.cons_append] at long
    rw [long]
    simp
  obtain ⟨here, cut⟩ := lexemesFrom_cut divider (.inr ⟨Lexeme.textOf behind, rfl⟩) upTo rfl
  rw [← text, short, List.append_assoc, List.append_cancel_left_eq, lexemesFrom_cons,
    Token.read_divider divider] at cut
  have absent := plain _ (cut ▸ List.mem_append_right before List.mem_cons_self)
  have single_ := of_divider (p := fun m => (single m).isDivider = true) divider (by decide)
  rw [single_] at absent
  cases absent

/-- **An outer divider** of the front of a text of a body is one of the components of the
body, and the text begins with the token that the body begins with. -/
theorem Within.mem_of_mem_outer (place : Within (whole ++ after) (read source))
    (front : text <+: textOf whole) {token : Token} (divider : token.isDivider = true)
    (member : token ∈ outer (String.ofList text)) :
    (∃ c ∈ whole, c.token = token) ∧
      (outer (String.ofList text)).head? = whole.head?.map Component.token := by
  obtain ⟨there, same, ends, rest, -, -, read, -, rfl, plain⟩ := place.exists_same front
  have tokens : (group (same ++ rest)).map Component.token =
      (outside [] (same ++ rest)).map Lexeme.token := by
    rw [← heads_group, List.map_map]
    rfl
  obtain ⟨open_, long⟩ := outside_append [] same rest
  obtain ⟨stack, short⟩ := outside_append [] same ends
  rw [outer_eq there, read, short, List.map_append] at member ⊢
  have early : token ∈ (outside [] same).map Lexeme.token := by
    rcases List.mem_append.mp member with early | late
    · exact early
    · obtain ⟨lexeme, among, rfl⟩ := List.mem_map.mp late
      rw [plain lexeme (outside_subset _ _ among)] at divider
      cases divider
  refine ⟨?_, ?_⟩
  · have among : token ∈ (group (same ++ rest)).map Component.token := by
      rw [tokens, long, List.map_append]
      exact List.mem_append_left _ early
    obtain ⟨c, inside, eq⟩ := List.mem_map.mp among
    exact ⟨c, inside, eq⟩
  · rw [← List.head?_map, tokens, long, List.map_append]
    cases outer : (outside [] same).map Lexeme.token with
    | nil => rw [outer] at early; cases early
    | cons first more => rfl

end Component

end ApplyRule
