/-
# ApplyRule.Proofs.BodyEnd -- where a block ends

The body of a set is read twice: in the text, where the block is a part of the value of a
declaration, and on its own, when the value is split around the block.  Both find the
same end.

* A block that is closed in the text is closed at the same bracket on its own
  (`split?_closed`): the brackets around it do not matter to its lexemes, nor does what
  follows the bracket that closes it.
* A block that is still open where the text ends is not closed on its own
  (`split?_unclosed`), and nothing follows it (`Within.ends_open`).
* Where all blocks of a part of the text are closed, they are closed on its own too
  (`Within.shut`), and where the text ends inside a block of the part, the part ends inside
  the same block on its own (`Within.endsOpen`): from the last divider on, nothing opens or
  closes a block.
-/
import ApplyRule.Proofs.FirstBlock

namespace ApplyRule

set_option autoImplicit false

open Text Scan Component

/-! ## Values in their text -/

/-- The value of a declaration is the text of components. -/
theorem Parts.exists_value {whole : List Component} {parts : Parts}
    (found : Parts.read? whole = some parts) :
    ∃ before core, whole = before ++ (core ++ parts.trail) ∧ before ≠ [] ∧
      textOf before = parts.property ++ parts.between ∧ textOf core = parts.value := by
  unfold Parts.read? at found
  split at found
  · cases found
  · rename_i colon tail split_
    cases found
    obtain ⟨whole_, -⟩ := eq_takeWhile_append split_
    have trimmed := Trimmed.append_read tail
    generalize whole.takeWhile (fun c => !c.isLeaf .colon) = head at whole_ ⊢
    refine ⟨head ++ colon :: (Trimmed.read tail).lead, (Trimmed.read tail).core, ?_, by simp, ?_,
      rfl⟩
    · rw [List.append_assoc, List.cons_append, trimmed, whole_]
    · have spaces := dropEnd_append_takeEnd isSpace (textOf head)
      rw [textOf_append, textOf, ← List.append_assoc, ← List.append_assoc, ← List.append_assoc,
        trimEnd, spaces]

/-- The parts of a declaration that was written. -/
theorem Item.Origin.exists_parts {place : List Component → Prop} {item : Item}
    {property value : String} (origin : Item.Origin place item)
    (kind : item.kind = .declaration property value) :
    ∃ lead whole after parts, place (lead ++ (whole ++ after)) ∧ Parts.read? whole = some parts ∧
      parts.kind = item.kind ∧ item.raws.between = String.ofList parts.between ∧
      item.source = whole.head?.map Component.start := by
  cases origin with
  | @simple lead rest next component _ raws ended stands fillers cut =>
      cases cut with
      | comment => cases kind
      | openAtRule => cases kind
      | atRule => cases kind
      | @openDeclaration _ parts within found =>
          exact ⟨lead, component :: rest, [], parts, by rwa [List.append_nil], found, rfl, rfl, rfl⟩
      | @declaration _ whole _ semicolon parts split within found ends =>
          refine ⟨lead, whole, .leaf semicolon :: next, parts, split ▸ stands, found, rfl, rfl, ?_⟩
          cases whole with
          | nil => cases found
          | cons first others => rw [(List.cons.inj split).1]; rfl
  | block stands fillers cut inside => cases cut <;> cases kind

/-- The value of a declaration that was written, where it stands in its body. -/
theorem Item.Origin.exists_value {place : List Component → Prop} {item : Item}
    {property value : String} (origin : Item.Origin place item)
    (kind : item.kind = .declaration property value) :
    ∃ lead before core after, place (lead ++ (before ++ (core ++ after))) ∧
      item.source = before.head?.map Component.start ∧
      textOf before = property.toList ++ item.raws.between.toList ∧ textOf core = value.toList := by
  obtain ⟨lead, whole, after, parts, stands, found, own, between, start⟩ := origin.exists_parts kind
  obtain ⟨before, core, rfl, some_, front, held⟩ := Parts.exists_value found
  rw [kind] at own
  cases own
  refine ⟨lead, before, core, parts.trail ++ after, ?_, ?_, ?_, ?_⟩
  · simpa [List.append_assoc] using stands
  · cases before with
    | nil => exact absurd rfl some_
    | cons first others => exact start
  · rw [front, between, String.toList_ofList, String.toList_ofList]
  · rw [held, String.toList_ofList]

/-! ## One block, read twice -/

/-- A component whose text starts with a divider starts with the divider's token. -/
theorem Component.Sound.token_eq {source : List Char} {component : Component} {m : Char}
    (sound : component.Sound (lexemes source)) (divider : Scan.isDivider m = true)
    (first : component.text.head? = some m) : component.token = single m := by
  cases sound with
  | leaf own => exact Lexeme.token_of_divider own divider first
  | @block opener body closer own closed inside =>
      refine Lexeme.token_of_divider own divider ?_
      cases written : opener.text with
      | nil => exact absurd written (written_of_mem_lexemes own).nonempty
      | cons c more => simpa [Component.text, head, written] using first

section Block

variable {source : List Char} {opener : Lexeme} {body rest after : List Component}

/-- A block that is closed in the text is closed on its own, at the same bracket. -/
theorem split?_closed {closer : Lexeme}
    (place : Within (.block opener body (some closer) :: (rest ++ after)) (Component.read source))
    (curly : opener.token = .opening .curly) :
    textOf (.block opener body (some closer) :: rest) =
        '{' :: (textOf body ++ '}' :: textOf rest) ∧
      split? .curly (textOf (.block opener body (some closer) :: rest)) =
        some ⟨[], textOf body, textOf rest⟩ := by
  obtain ⟨front, stack, tail, split, found⟩ := place.placed (placed_read source)
  obtain ⟨there, read⟩ := lexemesFrom_suffix split
  rw [← read] at found
  have opens : opener.token.opens? = some .curly := by rw [curly]; rfl
  obtain ⟨-, written, fits⟩ := split?_of_levels (found.symm.trans (List.nil_append _).symm)
    (List.forall_mem_nil _) opens
  have bracket : opener.text = ['{'] := by
    have sound := place.sound (sound_read source) _ List.mem_cons_self
    cases sound with
    | block own _ _ => exact (written_of_mem_lexemes own).mark '{' (by rw [curly]; rfl)
  have text : textOf (.block opener body (some closer) :: rest) =
      '{' :: (textOf body ++ '}' :: textOf rest) := by
    simp [textOf, Component.text, bracket, written, Bracket.closer]
  refine ⟨text, ?_⟩
  have cut := fits (textOf rest)
  rw [bracket] at cut
  rwa [text]

/-- A block that is still open where the text ends is not closed on its own. -/
theorem split?_unclosed
    (place : Within (.block opener body none :: after) (Component.read source)) :
    split? .curly (textOf [.block opener body none]) = none := by
  obtain ⟨front, stack, tail, split, found⟩ := place.placed (placed_read source)
  obtain ⟨later, bracket, others, rfl, opens, inside, -⟩ := levels_block found.symm
  obtain ⟨there, read⟩ := lexemesFrom_suffix split
  have alone := group_unclosed opens inside
  rw [← alone, textOf_group, split?_eq_group there, read, alone]
  rfl

end Block

/-! ## Open blocks -/

/-- Nothing follows a block that is still open where the text ends. -/
theorem Component.Within.ends_open {source : List Char} {opener : Lexeme}
    {first body after : List Component}
    (place : Within (first ++ .block opener body none :: after) (Component.read source)) :
    after = [] ∧ textOf (first ++ [.block opener body none]) <:+ source := by
  obtain ⟨front, stack, tail, split, found⟩ := place.placed (placed_read source)
  obtain ⟨own, later, rfl, grouped, found, -⟩ := Component.exists_lexemes found.symm
  obtain ⟨later, bracket, others, rfl, opens, inside, last⟩ := levels_block found.symm
  cases levels_unclosed inside
  refine ⟨last, ?_⟩
  rw [textOf_append, ← grouped, ← group_unclosed opens inside, textOf_group, textOf_group,
    ← Lexeme.textOf_append, ← textOf_lexemes source, split, Lexeme.textOf_append front]
  exact List.suffix_append ..

namespace Component

/-- Whether the component is a block in curly brackets that is never closed. -/
def isOpen : Component → Bool
  | .block opener _ none => opener.token = .opening .curly
  | _ => false

@[simp] theorem isOpen_unplaced (component : Component) :
    component.unplaced.isOpen = component.isOpen := by
  cases component with
  | leaf lexeme => rfl
  | block opener body closer => cases closer <;> rfl

theorem exists_of_isOpen {component : Component} (open_ : component.isOpen = true) :
    ∃ opener body, component = .block opener body none ∧ opener.token = .opening .curly := by
  cases component with
  | leaf lexeme => cases open_
  | block opener body closer =>
      cases closer with
      | none => exact ⟨opener, body, rfl, of_decide_eq_true open_⟩
      | some last => cases open_

/-- Every block in curly brackets is closed. -/
def Shut (components : List Component) : Prop :=
  ∀ c ∈ components, c.isOpen = false

/-- A divider stands before whatever has none. -/
theorem exists_of_divider {first ends front back : List Lexeme} {lexeme : Lexeme}
    (split : first ++ ends = front ++ lexeme :: back) (divider : lexeme.token.isDivider = true)
    (plain : ∀ lexeme ∈ ends, lexeme.token.isDivider = false) :
    ∃ between, first = front ++ lexeme :: between ∧ back = between ++ ends := by
  have outside (gap : List Lexeme) (eq : ends = gap ++ lexeme :: back) : False := by
    have absent := plain lexeme (eq ▸ List.mem_append_right gap List.mem_cons_self)
    rw [divider] at absent
    cases absent
  rcases List.append_eq_append_iff.mp split with ⟨gap, -, eq⟩ | ⟨between, rfl, eq⟩
  · exact (outside gap eq).elim
  · cases between with
    | nil => exact (outside [] eq.symm).elim
    | cons own between =>
        obtain ⟨rfl, rfl⟩ := List.cons.inj eq
        exact ⟨between, rfl, rfl⟩

/-- The components end with a block in curly brackets that is never closed and is written as
`held`. -/
def EndsOpen (components : List Component) (held : List Char) : Prop :=
  ∃ first opener body, components = first ++ [.block opener body none] ∧
    opener.token = .opening .curly ∧ textOf [.block opener body none] = held

section EndsOpen

variable {components : List Component} {held : List Char}

theorem EndsOpen.unique {other : List Char} (first : EndsOpen components held)
    (second : EndsOpen components other) : held = other := by
  obtain ⟨_, _, _, rfl, -, rfl⟩ := first
  obtain ⟨_, _, _, split, -, rfl⟩ := second
  rw [(List.append_inj' split rfl).2]

theorem EndsOpen.not_shut (ends : EndsOpen components held) : ¬ Shut components := by
  obtain ⟨first, opener, body, rfl, curly, -⟩ := ends
  intro shut
  have closed := shut (.block opener body none) (by simp)
  rw [isOpen, decide_eq_false_iff_not] at closed
  exact closed curly

theorem EndsOpen.prepend (front : List Component) (ends : EndsOpen components held) :
    EndsOpen (front ++ components) held := by
  obtain ⟨first, opener, body, rfl, curly, written⟩ := ends
  exact ⟨front ++ first, opener, body, (List.append_assoc ..).symm, curly, written⟩

end EndsOpen

section Group

variable {text : List Char} (there : Location)

theorem shut_of_group (shut : Shut (group (lexemesFrom there text))) :
    Shut (Component.read text) := by
  intro c member
  have among : c.unplaced ∈ (group (lexemesFrom there text)).map unplaced :=
    plain_eq_group there text ▸ List.mem_map_of_mem member
  obtain ⟨other, inside, same⟩ := List.mem_map.mp among
  rw [← isOpen_unplaced, ← same, isOpen_unplaced]
  exact shut other inside

theorem endsOpen_of_group {held : List Char}
    (ends : EndsOpen (group (lexemesFrom there text)) held) :
    EndsOpen (Component.read text) held := by
  obtain ⟨first, opener, body, split, curly, written⟩ := ends
  have same := plain_eq_group there text
  rw [plain, split, List.map_append] at same
  obtain ⟨front, back, eq, -, last⟩ := List.map_eq_append_iff.mp same
  obtain ⟨component, rfl, alike⟩ := List.map_eq_singleton_iff.mp last
  have isOpen : component.isOpen = true := by
    rw [← isOpen_unplaced, alike, isOpen_unplaced]
    exact decide_eq_true curly
  obtain ⟨opener', body', rfl, curly'⟩ := exists_of_isOpen isOpen
  refine ⟨front, opener', body', eq, curly', ?_⟩
  rw [← written, ← textOf_unplaced, ← textOf_unplaced [.block opener body none]]
  exact congrArg textOf last

end Group

section Ends

variable {stack : List Bracket} {between same ends rest : List Lexeme}
  (plainEnds : ∀ lexeme ∈ ends, lexeme.token.isDivider = false)

include plainEnds

/-- What has no dividers does not close a block in curly brackets. -/
theorem exists_levels_unclosed {body : List Component} {others : List Level}
    (open_ : levels (.curly :: stack) (between ++ rest) = (⟨body, none⟩, others)) :
    ∃ body others, levels [.curly] (between ++ ends) = (⟨body, none⟩, others) := by
  cases again : levels [.curly] (between ++ ends) with
  | mk level others =>
      obtain ⟨components, closer⟩ := level
      cases closer with
      | none => exact ⟨components, others, rfl⟩
      | some last =>
          obtain ⟨inner, following, eq, closes, -, front⟩ := exists_inside again
          have divider : last.token.isDivider = true := by
            rw [Token.eq_closing closes]
            rfl
          obtain ⟨gap, rfl, rfl⟩ := exists_of_divider eq divider plainEnds
          have closed := front (.curly :: stack) (last :: (gap ++ rest)) (by simp)
          rw [levels_closer closes, ← List.cons_append, ← List.append_assoc, open_] at closed
          cases closed

variable (plainRest : ∀ lexeme ∈ rest, lexeme.token.isDivider = false)

include plainRest

/-- A block in curly brackets that is never closed is not closed by other ends without
dividers either. -/
theorem exists_group_unclosed {first after body : List Component} {opener : Lexeme}
    (split : group (same ++ rest) = first ++ .block opener body none :: after)
    (curly : opener.token = .opening .curly) :
    ∃ body, group (same ++ ends) = first ++ [.block opener body none] := by
  obtain ⟨own, later, lexemes, -, found, context⟩ := exists_lexemes split
  obtain ⟨later, bracket, others, rfl, opens, inside, -⟩ := levels_block found.symm
  have opensCurly : opener.token.opens? = some .curly := by rw [curly]; rfl
  cases opensCurly.symm.trans opens
  obtain ⟨between, rfl, rfl⟩ := exists_of_divider lexemes (by rw [curly]; rfl) plainRest
  obtain ⟨body, others, open_⟩ := exists_levels_unclosed plainEnds inside
  refine ⟨body, ?_⟩
  rw [List.append_assoc, context (List.cons_ne_nil _ _), List.cons_append,
    group_unclosed opensCurly open_]

theorem Shut.replace_ends (shut : Shut (group (same ++ rest))) : Shut (group (same ++ ends)) := by
  intro c member
  by_contra open_
  obtain ⟨opener, body, rfl, curly⟩ := exists_of_isOpen ((Bool.not_eq_false _).mp open_)
  obtain ⟨front, after, split⟩ := List.append_of_mem member
  obtain ⟨body, open_⟩ := exists_group_unclosed plainRest plainEnds split curly
  exact EndsOpen.not_shut ⟨front, opener, body, open_, curly, rfl⟩ shut

theorem EndsOpen.replace_ends {held : List Char} (open_ : EndsOpen (group (same ++ rest)) held)
    (texts : Lexeme.textOf ends = Lexeme.textOf rest) : EndsOpen (group (same ++ ends)) held := by
  obtain ⟨first, opener, body, split, curly, rfl⟩ := open_
  obtain ⟨body', split'⟩ := exists_group_unclosed plainEnds plainRest split curly
  refine ⟨first, opener, body', split', curly, ?_⟩
  have long := congrArg textOf split'
  have short := congrArg textOf split
  rw [textOf_group, Lexeme.textOf_append, textOf_append] at long short
  rw [texts, short] at long
  exact (List.append_cancel_left long).symm

end Ends

section Within

variable {source : List Char} {whole after : List Component}
  (place : Within (whole ++ after) (Component.read source))

include place

/-- Where every block in curly brackets is closed in the text, all are closed in a part of
the text that is read on its own. -/
theorem Within.shut (shut : Shut whole) : Shut (Component.read (textOf whole)) := by
  obtain ⟨there, same, ends, rest, read, rfl, plainEnds, plainRest⟩ := place.exists_same_whole
  refine shut_of_group there ?_
  rw [read]
  exact shut.replace_ends plainEnds plainRest

/-- Where the text ends inside a block in curly brackets, so does a part of the text that is
read on its own, and the blocks are written alike. -/
theorem Within.endsOpen {held : List Char} (open_ : EndsOpen whole held) :
    EndsOpen (Component.read (textOf whole)) held := by
  obtain ⟨there, same, ends, rest, read, rfl, plainEnds, plainRest⟩ := place.exists_same_whole
  refine endsOpen_of_group there ?_
  rw [read]
  refine open_.replace_ends plainEnds plainRest ?_
  have texts := congrArg Lexeme.textOf read
  rw [textOf_lexemesFrom, textOf_group, Lexeme.textOf_append, Lexeme.textOf_append] at texts
  exact (List.append_cancel_left texts).symm

/-- If not all blocks in curly brackets are closed, the text ends inside the last of them. -/
theorem Within.exists_endsOpen (open_ : ¬ Shut whole) :
    after = [] ∧ textOf whole <:+ source ∧ ∃ held, EndsOpen whole held := by
  simp only [Shut, not_forall, Bool.not_eq_false] at open_
  obtain ⟨c, member, isOpen⟩ := open_
  obtain ⟨opener, body, rfl, curly⟩ := exists_of_isOpen isOpen
  obtain ⟨first, rest, rfl⟩ := List.append_of_mem member
  rw [List.append_assoc, List.cons_append] at place
  obtain ⟨last, suffix⟩ := place.ends_open
  obtain ⟨rfl, rfl⟩ := List.append_eq_nil_iff.mp last
  exact ⟨rfl, suffix, _, first, opener, body, rfl, curly, rfl⟩

/-- If a part of the text ends inside a block on its own, the text ends inside that block. -/
theorem Within.endsOpen_of_read {held : List Char}
    (open_ : EndsOpen (Component.read (textOf whole)) held) :
    after = [] ∧ textOf whole <:+ source ∧ EndsOpen whole held := by
  obtain ⟨last, suffix, other, ends⟩ :=
    place.exists_endsOpen fun shut => open_.not_shut (place.shut shut)
  cases (place.endsOpen ends).unique open_
  exact ⟨last, suffix, ends⟩

end Within

end Component

end ApplyRule
