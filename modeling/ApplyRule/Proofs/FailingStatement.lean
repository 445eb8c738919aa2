/-
# ApplyRule.Proofs.FailingStatement -- which statement a parse error is about

The components of a body are sound, in their blocks too (`Body.Sound`), or they have a
statement that fails first, in the body or in a block at any depth (`Body.Fails`,
`Body.settled`).  A sound body can be read (`Body.Sound.read`) and one with a statement that
fails cannot (`Body.Fails.read`).

The error is the fault of that statement if nothing is left behind it in the blocks around
it, blanks and comments apart.  If there is, the error is about the outermost block that has
something left, and the statement is not told (`Body.reported`).
-/
import ApplyRule.Proofs.FailingPiece

namespace ApplyRule

set_option autoImplicit false

open Text Component

namespace Body

/-! ## The first statement that fails -/

/-- Components in which no statement fails, nor one in their blocks, and whether others can
follow them: if not, the end of the body ends their last statement. -/
inductive Sound : Bool → List Component → Prop where
  | nil : Sound true []
  | filler {open_ : Bool} {component : Component} {rest : List Component}
      (filler : component.isFiller = true) (later : Sound open_ rest) :
      Sound open_ (component :: rest)
  | piece {open_ : Bool} {own rest : List Component} (complete : Piece.Complete own)
      (later : Sound open_ rest) : Sound open_ (own ++ rest)
  | block {open_ inside : Bool} {head inner rest : List Component} {opener : Lexeme}
      {closer : Option Lexeme} {start : Location} (opens : Piece.Opens head opener start)
      (within : Sound inside inner) (later : Sound open_ rest) :
      Sound open_ (head ++ .block opener inner closer :: rest)
  | last {own : List Component} (last : Piece.Last own) : Sound false own

/-- A block around a statement that fails: where the rule or at-rule that has it starts, and
what is left in it behind the statement, or behind the block in it that has the statement. -/
structure Enclosing where
  start : Location
  left : List Component

/-- The first statement that fails among the components of a body, by its fault and by
whether it has all that ends it; what is left of the body behind it; and the blocks around
it, from the outermost inwards. -/
inductive Fails : List Component → ParseError → Bool → List Component → List Enclosing → Prop where
  | here {before statement left : List Component} {fault : ParseError} {ended : Bool}
      (sound : Sound true before) (wrong : Piece.Wrong statement fault ended)
      (ends : ended = true ∨ left = []) : Fails (before ++ (statement ++ left)) fault ended left []
  | inside {before head inner left after : List Component} {opener : Lexeme}
      {closer : Option Lexeme} {start : Location} {fault : ParseError} {ended : Bool}
      {around : List Enclosing} (sound : Sound true before) (opens : Piece.Opens head opener start)
      (within : Fails inner fault ended left around) :
      Fails (before ++ (head ++ .block opener inner closer :: after)) fault ended after
        (⟨start, left⟩ :: around)

variable {components before left : List Component} {fault : ParseError} {ended : Bool}
  {around : List Enclosing}

theorem Sound.append {open_ : Bool} (sound : Sound true before) (later : Sound open_ components) :
    Sound open_ (before ++ components) := by
  generalize flag : true = first at sound
  induction sound with
  | nil => exact later
  | filler filler _ ih => exact .filler filler (ih flag)
  | piece complete _ ih =>
      rw [List.append_assoc]
      exact .piece complete (ih flag)
  | block opens within _ _ ih =>
      rw [List.append_assoc, List.cons_append]
      exact .block opens within (ih flag)
  | last => cases flag

theorem Fails.later (sound : Sound true before) (fails : Fails components fault ended left around) :
    Fails (before ++ components) fault ended left around := by
  cases fails with
  | here others wrong ends =>
      rw [← List.append_assoc]
      exact .here (sound.append others) wrong ends
  | inside others opens within =>
      rw [← List.append_assoc]
      exact .inside (sound.append others) opens within

/-- Components that are sound, or have a statement that fails first. -/
def Settled (components : List Component) : Prop :=
  (∃ open_, Sound open_ components) ∨
    ∃ fault ended left around, Fails components fault ended left around

theorem Settled.later (sound : Sound true before) (settled : Settled components) :
    Settled (before ++ components) := by
  rcases settled with ⟨open_, later⟩ | ⟨fault, ended, left, around, fails⟩
  · exact .inl ⟨open_, sound.append later⟩
  · exact .inr ⟨fault, ended, left, around, fails.later sound⟩

/-- **Each body is sound or has a statement that fails first.** -/
theorem settled (components : List Component) : Settled components := by
  induction size : sizeOf components using Nat.strong_induction_on generalizing components with
  | _ bound ih =>
      subst size
      cases components with
      | nil => exact .inl ⟨true, .nil⟩
      | cons first rest =>
          by_cases filler : first.isFiller = true
          · exact (ih _ (by simp only [List.cons.sizeOf_spec]; omega) rest rfl).later
              (.filler filler .nil)
          have front := Piece.front_of_solid rest (by simpa using filler)
          generalize first :: rest = components at front ih
          cases front with
          | @complete own next complete =>
              have smaller : sizeOf next < sizeOf (own ++ next) := by
                obtain ⟨c, more, -, -, -, rfl, -⟩ := complete.read
                have suffix := sizeOf_le_of_sublist (List.sublist_append_right more next)
                simp only [List.cons_append, List.cons.sizeOf_spec]
                omega
              have one := Sound.piece complete .nil
              rw [List.append_nil] at one
              exact (ih _ smaller next rfl).later one
          | last last => exact .inl ⟨false, .last last⟩
          | @block head inner next opener closer start opens =>
              have whole := List.sublist_append_right head (.block opener inner closer :: next)
              rcases ih _ (sizeOf_body_lt whole) inner rfl with
                ⟨inside, within⟩ | ⟨fault, ended, left, around, fails⟩
              · have smaller := sizeOf_le_of_sublist whole
                simp only [List.cons.sizeOf_spec] at smaller
                rw [List.append_cons]
                exact (ih _ (by omega) next rfl).later (.block opens within .nil)
              · exact .inr ⟨_, _, _, _, .inside .nil opens fails⟩
          | wrong wrong ends => exact .inr ⟨_, _, _, _, .here .nil wrong ends⟩

/-! ## What is reported of it -/

/-- The fault of a block that is not at its end where a statement in it fails. -/
def Enclosing.fault? (enclosing : Enclosing) : Option ParseError :=
  (enclosing.left.find? fun c => !(c.isBlank || c.isComment)).map fun next =>
    ⟨.unfinishedBlock next.token, enclosing.start⟩

/-- What is reported of a fault inside blocks: the outermost of them that is not at its end,
or the fault itself. -/
def reported (fault : ParseError) (around : List Enclosing) : ParseError :=
  (around.findSome? Enclosing.fault?).getD fault

theorem leave_reported (start : Location) (after : List Component) :
    Failure.leave start after ⟨reported fault around, left⟩ =
      ⟨reported fault (⟨start, left⟩ :: around), after⟩ := by
  unfold Failure.leave reported
  rw [List.findSome?_cons]
  cases found : left.find? fun c => !(c.isBlank || c.isComment) <;>
    simp only [Enclosing.fault?, found] <;> rfl

theorem Fails.unknownWord_or_strayBrace (fails : Fails components fault ended left around) :
    fault.fault = .unknownWord ∨ fault.fault = .strayBrace := by
  induction fails with
  | here _ wrong _ => cases wrong <;> simp
  | inside _ _ _ ih => exact ih

/-- **The fault itself is reported** just if every block around it is at its end. -/
theorem Fails.reported_eq_iff (fails : Fails components fault ended left around) :
    reported fault around = fault ↔
      ∀ enclosing ∈ around, ∀ c ∈ enclosing.left, c.isBlank = true ∨ c.isComment = true := by
  have atEnd (enclosing : Enclosing) : enclosing.fault? = none ↔
      ∀ c ∈ enclosing.left, c.isBlank = true ∨ c.isComment = true := by
    simp [Enclosing.fault?, imp_iff_not_or]
  simp only [← atEnd, ← List.findSome?_eq_none_iff]
  unfold reported
  cases found : around.findSome? Enclosing.fault? with
  | none => simp
  | some error =>
      -- The fault of a block is of another kind.
      obtain ⟨enclosing, -, own⟩ := List.exists_of_findSome?_eq_some found
      obtain ⟨next, -, rfl⟩ := Option.map_eq_some_iff.mp own
      refine iff_of_false (fun same => ?_) nofun
      rcases fails.unknownWord_or_strayBrace with kind | kind <;> rw [← same] at kind <;> cases kind

/-! ## Reading a body with such a statement -/

/-- Fillers in front do not change how a body fails. -/
theorem read_error_congr {semicolon : Bool} {others : List Component} {failure : Failure}
    (same : components.dropWhile isFiller = others.dropWhile isFiller)
    (failed : Body.read semicolon components = .error failure) :
    Body.read semicolon others = .error failure := by
  cases filled : components.dropWhile isFiller with
  | nil =>
      rw [read_done filled] at failed
      cases failed
  | cons first rest =>
      have filled' := same.symm.trans filled
      cases found : (Piece.read first rest).1 with
      | fault error => rw [read_fault filled' found, ← failed, read_fault filled found]
      | simple kind raws ended =>
          rw [read_simple filled found] at failed
          rw [read_simple filled' found]
          cases later : Body.read (ended.getD semicolon) (Piece.read first rest).2 with
          | error failure => rwa [later] at failed
          | ok more => rw [later] at failed; cases failed
      | block kind raws inner =>
          rw [read_block filled found] at failed
          rw [read_block filled' found]
          cases inside : Body.read false inner with
          | error failure => rwa [inside] at failed
          | ok body =>
              rw [inside] at failed
              cases later : Body.read false (ownSemicolon kind (Piece.read first rest).2).2 with
              | error failure => rw [later] at failed; exact failed
              | ok more => simp [later, Except.mapError, Except.bind, Except.map] at failed

theorem dropWhile_filler {first : Component} {rest : List Component}
    (solid : first.isFiller = false) : (first :: rest).dropWhile isFiller = first :: rest :=
  List.dropWhile_cons_of_neg (by simp [solid])

theorem dropWhile_ownSemicolon (kind : Kind) (components : List Component) :
    (ownSemicolon kind components).2.dropWhile isFiller = components.dropWhile isFiller := by
  obtain ⟨skipped, whole, fillers, -⟩ := ownSemicolon_append kind components
  calc (ownSemicolon kind components).2.dropWhile isFiller
      = (skipped ++ (ownSemicolon kind components).2).dropWhile isFiller :=
        (List.dropWhile_append_of_pos fillers).symm
    _ = components.dropWhile isFiller := by rw [← whole]

/-- A body without a statement that fails can be read. -/
theorem Sound.read {open_ : Bool} (sound : Sound open_ components) (semicolon : Bool)
    (failure : Failure) : Body.read semicolon components ≠ .error failure := by
  induction sound generalizing semicolon failure with
  | nil =>
      rw [read_done rfl]
      simp
  | filler filler _ ih =>
      refine fun failed => ih semicolon failure (read_error_congr ?_ failed)
      rw [List.dropWhile_cons_of_pos filler]
  | @piece _ _ rest complete _ ih =>
      obtain ⟨first, more, kind, raws, ended, rfl, solid, alike⟩ := complete.read
      rw [List.cons_append,
        read_simple (dropWhile_filler solid) (congrArg Prod.fst (alike rest)), alike]
      cases later : Body.read (ended.getD semicolon) rest with
      | error failure => exact absurd later (ih _ failure)
      | ok more => simp [Except.map]
  | @block _ _ head inner rest opener closer start opens _ _ ihInner ih =>
      obtain ⟨kind, raws, alike⟩ := opens.read
      obtain ⟨first, more, whole, solid, -, found⟩ := alike inner closer rest
      rw [whole, read_block (dropWhile_filler solid) (congrArg Prod.fst found), found]
      cases inside : Body.read false inner with
      | error failure => exact absurd inside (ihInner false failure)
      | ok body =>
          cases later : Body.read false (ownSemicolon kind rest).2 with
          | ok more => simp [Except.mapError, Except.bind, Except.map]
          | error failure =>
              have same := dropWhile_ownSemicolon kind rest
              exact absurd (read_error_congr same later) (ih false failure)
  | last last =>
      obtain ⟨first, more, kind, raws, ended, next, rfl, solid, found, blank⟩ := last.read
      -- The blanks that are left can be read.
      have fillers : next.dropWhile isFiller = [] :=
        List.dropWhile_eq_nil_iff.mpr fun c member => by simp [isFiller, blank c member]
      rw [read_simple (dropWhile_filler solid) (congrArg Prod.fst found), found, read_done fillers]
      simp [Except.map]

/-- What fails behind a sound beginning fails the body. -/
theorem read_behind {failure : Failure} (sound : Sound true before)
    (failed : ∀ semicolon, Body.read semicolon components = .error failure) (semicolon : Bool) :
    Body.read semicolon (before ++ components) = .error failure := by
  generalize flag : true = first at sound
  induction sound generalizing semicolon with
  | nil => exact failed semicolon
  | filler filler _ ih =>
      refine read_error_congr ?_ (ih semicolon flag)
      rw [List.cons_append, List.dropWhile_cons_of_pos filler]
  | @piece _ _ rest complete _ ih =>
      obtain ⟨first, more, kind, raws, ended, rfl, solid, alike⟩ := complete.read
      have found := alike (rest ++ components)
      rw [List.append_assoc, List.cons_append,
        read_simple (dropWhile_filler solid) (congrArg Prod.fst found), found, ih _ flag]
      rfl
  | @block _ _ head inner rest opener closer start opens within _ _ ih =>
      obtain ⟨kind, raws, alike⟩ := opens.read
      obtain ⟨first, more, whole, solid, -, found⟩ := alike inner closer (rest ++ components)
      have later : Body.read false (ownSemicolon kind (rest ++ components)).2 = .error failure :=
        read_error_congr (dropWhile_ownSemicolon kind _).symm (ih false flag)
      rw [List.append_assoc, List.cons_append, whole,
        read_block (dropWhile_filler solid) (congrArg Prod.fst found), found]
      cases inside : Body.read false inner with
      | error failure => exact absurd inside (within.read false failure)
      | ok body => simp only [Except.mapError, Except.bind, later, Except.map]
  | last => cases flag

/-- A body with a statement that fails cannot be read, and says so. -/
theorem Fails.read (fails : Fails components fault ended left around) (semicolon : Bool) :
    Body.read semicolon components = .error ⟨reported fault around, left⟩ := by
  induction fails generalizing semicolon with
  | here sound wrong ends =>
      refine read_behind sound (fun semicolon => ?_) semicolon
      obtain ⟨first, more, rfl, solid, read⟩ := wrong.read
      have found := read _ ends
      rw [List.cons_append, read_fault (dropWhile_filler solid) (congrArg Prod.fst found), found]
      rfl
  | @inside _ _ inner _ after opener closer start _ _ _ sound opens _ ih =>
      refine read_behind sound (fun semicolon => ?_) semicolon
      obtain ⟨kind, raws, alike⟩ := opens.read
      obtain ⟨first, more, whole, solid, rfl, found⟩ := alike inner closer after
      rw [whole, read_block (dropWhile_filler solid) (congrArg Prod.fst found), found, ih]
      simp only [Except.mapError, Except.bind, leave_reported]

/-- **A body that cannot be read** has a statement that fails first. -/
theorem exists_fails {semicolon : Bool} {failure : Failure}
    (failed : Body.read semicolon components = .error failure) :
    ∃ fault ended left around, Fails components fault ended left around := by
  refine (settled components).resolve_left ?_
  rintro ⟨open_, sound⟩
  exact sound.read semicolon failure failed

end Body

end ApplyRule
