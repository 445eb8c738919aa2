/-
# ApplyRule.Proofs.Regrouping -- a part of a body, grouped on its own

Components are grouped with all the brackets around them open.  Those brackets do not
matter: components that stand next to each other in a body are what their own lexemes
are grouped into, with no bracket open (`exists_lexemes`).

* Of the open brackets, a level depends on those inside it and on its own only
  (`levels_take`), so that the inside of a block depends on its bracket alone.
* The first component of a level takes its own lexemes and leaves the others to the rest
  of the level (`levels_cons`).
* `Component.Placed` is a part of a body together with the lexemes it begins with; every
  end of a body is placed (`Within.placed`).

Of the lexemes outside all brackets, what comes later changes none (`outside_append`).
-/
import ApplyRule.Proofs.ClosedBlock
import ApplyRule.Proofs.Origin

namespace ApplyRule

set_option autoImplicit false

open Text

namespace Component

/-! ## Brackets that do not matter -/

/-- The levels of inner brackets do not depend on the brackets outside them. -/
theorem levels_take (inner outer : List Bracket) (lexemes : List Lexeme) :
    ((levels (inner ++ outer) lexemes).1 :: (levels (inner ++ outer) lexemes).2).take
        inner.length =
      ((levels inner lexemes).1 :: (levels inner lexemes).2).take inner.length := by
  induction lexemes generalizing inner with
  | nil => rfl
  | cons lexeme rest ih =>
      cases inner with
      | nil => rfl
      | cons bracket inner =>
          by_cases closes : lexeme.token.closesFirst (bracket :: inner) = true
          · have isCloser : lexeme.token.closes? = some bracket := by
              simpa [Token.closesFirst] using closes
            rw [List.cons_append, levels_closer isCloser, levels_closer isCloser]
            exact congrArg (_ :: ·) (ih inner)
          · have goesOn : ¬ lexeme.token.closesFirst (bracket :: inner ++ outer) = true := closes
            cases opens : lexeme.token.opens? with
            | none =>
                rw [levels_leaf goesOn opens, levels_leaf closes opens]
                obtain ⟨first, others⟩ := List.cons.inj (ih (bracket :: inner))
                exact List.cons_eq_cons.mpr ⟨congrArg (Level.cons _) first, others⟩
            | some own =>
                rw [levels_opener goesOn opens rfl, levels_opener closes opens rfl]
                obtain ⟨first, others⟩ := List.cons.inj (ih (own :: bracket :: inner))
                simp only [List.cons_append] at first others ⊢
                generalize levels (own :: bracket :: (inner ++ outer)) rest = long at *
                generalize levels (own :: bracket :: inner) rest = short at *
                obtain ⟨level, more⟩ := long
                obtain ⟨level', more'⟩ := short
                cases first
                cases more <;> cases more' <;> simp_all

/-- What a block holds does not depend on the brackets around it. -/
theorem levels_alone (bracket : Bracket) (stack : List Bracket) (lexemes : List Lexeme) :
    (levels (bracket :: stack) lexemes).1 = (levels [bracket] lexemes).1 :=
  (List.cons.inj (levels_take [bracket] stack lexemes)).1

theorem not_closesFirst_nil (token : Token) : ¬ token.closesFirst [] = true :=
  Bool.false_ne_true

/-- A level that nothing closes is the outermost. -/
theorem levels_unclosed {brackets : List Bracket} {lexemes : List Lexeme}
    {components : List Component} {others : List Level}
    (found : levels brackets lexemes = (⟨components, none⟩, others)) : others = [] := by
  have closed := closer_of_mem_dropLast brackets lexemes
  rw [found] at closed
  cases others with
  | nil => rfl
  | cons next more => exact absurd rfl (closed ⟨components, none⟩ List.mem_cons_self)

/-! ## The first component of a level -/

section First

variable {stack : List Bracket} {lexemes : List Lexeme} {component : Component}
  {rest whole after : List Component}

/-- What a level starts with: a leaf, or a block with what is grouped inside it. -/
theorem levels_cases (found : (levels stack lexemes).1.components = component :: rest) :
    (∃ lexeme later, lexemes = lexeme :: later ∧ lexeme.token.opens? = none ∧
      component = .leaf lexeme ∧ rest = (levels stack later).1.components) ∨
    ∃ opener later bracket inner others, lexemes = opener :: later ∧
      opener.token.opens? = some bracket ∧
      levels (bracket :: stack) later = (inner, others) ∧
      component = .block opener inner.components inner.closer ∧
      rest = (others.head?.getD .empty).components := by
  cases lexemes with
  | nil => cases found
  | cons lexeme later =>
      by_cases closes : lexeme.token.closesFirst stack = true
      · rw [levels, if_pos closes] at found
        cases found
      · cases opens : lexeme.token.opens? with
        | none =>
            rw [levels_leaf closes opens] at found
            cases found
            exact .inl ⟨lexeme, later, rfl, opens, rfl, rfl⟩
        | some bracket =>
            rw [levels_opener closes opens rfl] at found
            cases found
            exact .inr ⟨lexeme, later, bracket, _, _, rfl, opens, rfl, rfl, rfl⟩

/-- A level that starts with a block. -/
theorem levels_block {opener : Lexeme} {body : List Component} {closer : Option Lexeme}
    (found : (levels stack lexemes).1.components = .block opener body closer :: rest) :
    ∃ later bracket others, lexemes = opener :: later ∧ opener.token.opens? = some bracket ∧
      levels (bracket :: stack) later = (⟨body, closer⟩, others) ∧
      rest = (others.head?.getD .empty).components := by
  rcases levels_cases found with
    ⟨_, _, _, _, other, -⟩ | ⟨opener, later, bracket, inner, others, rfl, opens, inside, same, last⟩
  · cases other
  · cases same
    exact ⟨later, bracket, others, rfl, opens, inside, last⟩

theorem group_leaf {lexeme : Lexeme} (leaf : lexeme.token.opens? = none) (more : List Lexeme) :
    group (lexeme :: more) = .leaf lexeme :: group more := by
  rw [group, levels_leaf (not_closesFirst_nil _) leaf]
  rfl

section Block

variable {opener : Lexeme} {later : List Lexeme} {bracket : Bracket} {body : List Component}
  {others : List Level} (opens : opener.token.opens? = some bracket)

include opens

/-- A block that is never closed takes all lexemes. -/
theorem group_unclosed
    (inside : levels (bracket :: stack) later = (⟨body, none⟩, others)) :
    group (opener :: later) = [.block opener body none] := by
  have alone := levels_alone bracket stack later
  rw [inside] at alone
  have same : levels [bracket] later = (⟨body, none⟩, (levels [bracket] later).2) :=
    Prod.ext alone.symm rfl
  rw [group, levels_opener (not_closesFirst_nil _) opens same, levels_unclosed same]
  rfl

/-- A block takes the lexemes up to its closer, whatever closes it and whatever follows. -/
theorem group_closed {closer : Lexeme}
    (inside : levels (bracket :: stack) later = (⟨body, some closer⟩, others)) :
    ∃ held after, later = held ++ closer :: after ∧ closer.token.closes? = some bracket ∧
      others = (levels stack after).1 :: (levels stack after).2 ∧
      ∀ (last : Lexeme) (more : List Lexeme), last.token.closes? = some bracket →
        group (opener :: (held ++ last :: more)) =
          .block opener body (some last) :: group more := by
  obtain ⟨held, after, rfl, isCloser, rfl, context⟩ := exists_inside inside
  refine ⟨held, after, rfl, isCloser, rfl, fun last more closes => ?_⟩
  have block := context [bracket] (last :: more) (by simp)
  rw [levels_closer closes] at block
  rw [group, levels_opener (not_closesFirst_nil _) opens block]
  simp [Level.prepend, Level.cons, group]

end Block

/-- The first component of a level is what its own lexemes are grouped into.  Others may
follow them, unless the component is a block that is never closed. -/
theorem levels_cons (found : (levels stack lexemes).1.components = component :: rest) :
    ∃ own later, lexemes = own ++ later ∧ group own = [component] ∧
      rest = (levels stack later).1.components ∧
      (later = [] ∨ ∀ more, group (own ++ more) = component :: group more) := by
  rcases levels_cases found with
    ⟨lexeme, later, rfl, leaf, rfl, rfl⟩ | ⟨opener, later, bracket, inner, others, rfl, opens,
      inside, rfl, rfl⟩
  · exact ⟨[lexeme], later, rfl, group_leaf leaf [], rfl, .inr (group_leaf leaf)⟩
  · obtain ⟨body, closer⟩ := inner
    cases closer with
    | none =>
        cases levels_unclosed inside
        exact ⟨opener :: later, [], (List.append_nil _).symm, group_unclosed opens inside, rfl,
          .inl rfl⟩
    | some closer =>
        obtain ⟨held, after, rfl, isCloser, rfl, front⟩ := group_closed opens inside
        refine ⟨opener :: (held ++ [closer]), after, by simp, front closer [] isCloser, rfl,
          .inr fun more => ?_⟩
        rw [← front closer more isCloser]
        simp

/-- Components that stand next to each other in a level are what their own lexemes are
grouped into, and where others follow in the level, whatever lexemes follow. -/
theorem exists_lexemes (found : (levels stack lexemes).1.components = whole ++ after) :
    ∃ own later, lexemes = own ++ later ∧ group own = whole ∧
      after = (levels stack later).1.components ∧
      (after ≠ [] → ∀ more, group (own ++ more) = whole ++ group more) := by
  induction whole generalizing lexemes with
  | nil => exact ⟨[], lexemes, rfl, rfl, found.symm, fun _ _ => rfl⟩
  | cons component whole ih =>
      obtain ⟨first, later, rfl, alone, rest, front⟩ := levels_cons found
      obtain ⟨own, last, rfl, grouped, rfl, context⟩ := ih rest.symm
      refine ⟨first ++ own, last, (List.append_assoc ..).symm, ?_, rfl, fun some_ more => ?_⟩
      · rcases front with none_ | front
        · obtain ⟨rfl, rfl⟩ := List.append_eq_nil_iff.mp none_
          rw [List.append_nil, alone, ← grouped]
          rfl
        · rw [front, grouped]
      · rcases front with none_ | front
        · obtain ⟨-, rfl⟩ := List.append_eq_nil_iff.mp none_
          exact absurd rfl some_
        · rw [List.append_assoc, front, context some_, List.cons_append]

/-- The first part of a level, up to a block that is closed: the lexemes that it is grouped
from do so with any closer of that bracket and whatever follows. -/
theorem levels_upTo_block {opener closer : Lexeme} {front body : List Component}
    (found : (levels stack lexemes).1.components =
      front ++ .block opener body (some closer) :: rest) :
    ∃ own held later bracket, lexemes = own ++ opener :: (held ++ closer :: later) ∧
      opener.token.opens? = some bracket ∧ closer.token.closes? = some bracket ∧
      Lexeme.textOf own = textOf front ∧ Lexeme.textOf held = textOf body ∧
      rest = (levels stack later).1.components ∧
      ∀ (last : Lexeme) (more : List Lexeme), last.token.closes? = some bracket →
        group (own ++ opener :: (held ++ last :: more)) =
          front ++ .block opener body (some last) :: group more := by
  obtain ⟨own, _, rfl, grouped, found, context⟩ := exists_lexemes found
  obtain ⟨_, bracket, others, rfl, opens, inside, last⟩ := levels_block found.symm
  obtain ⟨held, later, rfl, isCloser, rfl, block⟩ := group_closed opens inside
  refine ⟨own, held, later, bracket, rfl, opens, isCloser, ?_, ?_, last, fun last more closes => ?_⟩
  · rw [← grouped, textOf_group]
  · have alone := congrArg textOf (block closer [] isCloser)
    rw [textOf_group] at alone
    simpa [Lexeme.textOf, textOf, Component.text, group, levels, Level.empty] using alone
  · rw [context (List.cons_ne_nil _ _), block last more closes]

end First

/-! ## Parts of a body -/

/-- The components begin with some of the lexemes and end with the body they stand in. -/
def Placed (source : List Lexeme) (part : List Component) : Prop :=
  ∃ front stack tail, source = front ++ tail ∧ part = (levels stack tail).1.components

section Placed

variable {source : List Lexeme} {part rest : List Component} {component : Component}

theorem Placed.tail (placed : Placed source (component :: rest)) : Placed source rest := by
  obtain ⟨front, stack, tail, rfl, found⟩ := placed
  obtain ⟨own, later, rfl, -, rfl, -⟩ := levels_cons found.symm
  exact ⟨front ++ own, stack, later, (List.append_assoc ..).symm, rfl⟩

theorem Placed.suffix {all : List Component} (placed : Placed source all) (suffix : part <:+ all) :
    Placed source part := by
  obtain ⟨before, rfl⟩ := suffix
  induction before with
  | nil => exact placed
  | cons component before ih => exact ih placed.tail

theorem Placed.inside {body : List Component} {opener : Lexeme} {closer : Option Lexeme}
    (placed : Placed source (.block opener body closer :: rest)) : Placed source body := by
  obtain ⟨front, stack, tail, rfl, found⟩ := placed
  obtain ⟨later, bracket, others, rfl, -, inside, -⟩ := levels_block found.symm
  exact ⟨front ++ [opener], bracket :: stack, later, by simp, by rw [inside]⟩

/-- Every end of a body is placed. -/
theorem Within.placed {all : List Component} (place : Within part all)
    (placed : Placed source all) : Placed source part := by
  induction place with
  | last suffix => exact placed.suffix suffix
  | inside member _ ih =>
      obtain ⟨before, after, rfl⟩ := List.append_of_mem member
      exact ih (placed.suffix (List.suffix_append before _)).inside

theorem placed_read (text : List Char) : Placed (lexemes text) (read text) :=
  ⟨[], [], lexemes text, rfl, rfl⟩

end Placed

/-! ## Lexemes outside all brackets -/

/-- The lexemes outside all brackets, where `brackets` are open at the front.  A bracket
that opens a block is outside it, and one that closes it is not. -/
def outside (brackets : List Bracket) : List Lexeme → List Lexeme
  | [] => []
  | lexeme :: rest =>
      if lexeme.token.closesFirst brackets then outside brackets.tail rest
      else
        (if brackets.isEmpty then [lexeme] else []) ++
          outside (lexeme.token.opens?.toList ++ brackets) rest

/-- What comes later does not change which lexemes are outside all brackets. -/
theorem outside_append (brackets : List Bracket) (first second : List Lexeme) :
    ∃ open_, outside brackets (first ++ second) =
      outside brackets first ++ outside open_ second := by
  induction first generalizing brackets with
  | nil => exact ⟨brackets, rfl⟩
  | cons lexeme rest ih =>
      rw [List.cons_append, outside, outside]
      split
      · exact ih brackets.tail
      · obtain ⟨open_, eq⟩ := ih (lexeme.token.opens?.toList ++ brackets)
        exact ⟨open_, by rw [eq, List.append_assoc]⟩

theorem outside_subset (brackets : List Bracket) (lexemes : List Lexeme) :
    outside brackets lexemes ⊆ lexemes := by
  induction lexemes generalizing brackets with
  | nil => exact List.Subset.refl _
  | cons lexeme rest ih =>
      rw [outside]
      split
      · exact List.subset_cons_of_subset lexeme (ih brackets.tail)
      · refine List.append_subset.mpr ⟨?_, List.subset_cons_of_subset lexeme (ih _)⟩
        split
        · simp
        · exact List.nil_subset _

/-- The lexemes outside all brackets are those at the front of the outermost level's
components. -/
theorem heads_levels (brackets : List Bracket) (lexemes : List Lexeme) :
    ((((levels brackets lexemes).1 :: (levels brackets lexemes).2)[brackets.length]?).getD
      .empty).components.map head = outside brackets lexemes := by
  induction lexemes generalizing brackets with
  | nil => cases brackets <;> rfl
  | cons lexeme rest ih =>
      by_cases closes : lexeme.token.closesFirst brackets = true
      · rw [outside, if_pos closes]
        cases brackets with
        | nil => cases closes
        | cons bracket brackets =>
            rw [levels_closer (by simpa [Token.closesFirst] using closes)]
            exact ih brackets
      · rw [outside, if_neg closes]
        cases opens : lexeme.token.opens? with
        | none =>
            rw [levels_leaf closes opens]
            have same := ih brackets
            cases brackets with
            | nil => simpa [Level.cons, head] using same
            | cons bracket brackets => simpa using same
        | some own =>
            rw [levels_opener closes opens rfl]
            have same := ih (own :: brackets)
            generalize levels (own :: brackets) rest = answer at same ⊢
            obtain ⟨inner, outer⟩ := answer
            cases brackets with
            | nil => cases outer <;> simpa [Level.cons, head] using same
            | cons bracket brackets => cases outer <;> simpa using same

theorem heads_group (lexemes : List Lexeme) : (group lexemes).map head = outside [] lexemes :=
  heads_levels [] lexemes

end Component

end ApplyRule
