/-
# ApplyRule.Proofs.Reading -- how a body is read

`Piece.Cut` says how each kind of piece is cut out of the components, and
`Body.Reading` is what `Body.read` does where it succeeds: fillers, then a piece,
then the rest of the body.  A statement about all bodies that can be read is an
induction on it (`reading_of_read`), with a case for each kind of piece.
-/
import Mathlib.Data.List.TakeWhile
import ApplyRule.Stylesheet.Body

namespace ApplyRule

set_option autoImplicit false

open Text Component

/-! ## Parts of a statement -/

theorem mem_takeEnd {α : Type} {p : α → Bool} {list : List α} {a : α}
    (member : a ∈ takeEnd p list) : p a = true := by
  induction list with
  | nil => simp [takeEnd] at member
  | cons first rest ih =>
      simp only [takeEnd, dropEnd] at ih member
      split at member
      · rename_i none_
        rw [none_] at ih
        split at member
        · rename_i blank
          rcases List.mem_cons.1 member with rfl | later
          · exact blank
          · exact ih later
        · exact ih member
      · rename_i kept _
        exact ih member

theorem dropEnd_eq_nil {α : Type} {p : α → Bool} {list : List α} (none_ : dropEnd p list = []) :
    ∀ a ∈ list, p a = true := by
  intro a member
  have whole := dropEnd_append_takeEnd p list
  rw [none_, List.nil_append] at whole
  exact mem_takeEnd (whole ▸ member)

namespace Trimmed

/-- What is trimmed off and what is kept make up the components. -/
theorem append_read (components : List Component) :
    (read components).lead ++ ((read components).core ++ (read components).trail) = components := by
  unfold read
  split
  · rfl
  · rw [dropEnd_append_takeEnd, List.takeWhile_append_dropWhile]

theorem isBlank_of_mem_trail {components : List Component} {c : Component}
    (member : c ∈ (read components).trail) : c.isBlank = true := by
  unfold read at member
  split at member
  · rename_i blank
    exact List.dropWhile_eq_nil_iff.1 blank c member
  · exact mem_takeEnd member

theorem trail_suffix (components : List Component) : (read components).trail <:+ components :=
  ⟨(read components).lead ++ (read components).core, by rw [List.append_assoc, append_read]⟩

/-- If there are only blanks, they stand at the end. -/
theorem lead_eq_nil {components : List Component} (none_ : (read components).core = []) :
    (read components).lead = [] := by
  unfold read at none_ ⊢
  split
  · rfl
  · rename_i some_
    split at none_
    · contradiction
    · rename_i first _
      cases inner : components.dropWhile Component.isBlank with
      | nil => contradiction
      | cons c rest =>
          rw [inner] at none_
          have blank := dropEnd_eq_nil none_ c (List.mem_cons_self ..)
          have solid := List.head?_dropWhile_not Component.isBlank components
          simp [inner, blank] at solid

end Trimmed

namespace Parts

/-- The parts of a declaration make up its text. -/
theorem append_read? {components : List Component} {parts : Parts}
    (found : read? components = some parts) :
    parts.property ++ (parts.between ++ (parts.value ++ textOf parts.trail)) =
      textOf components := by
  unfold read? at found
  split at found
  · cases found
  · rename_i colon tail split_
    cases found
    dsimp only
    have value := congrArg textOf (Trimmed.append_read tail)
    have head := dropEnd_append_takeEnd isSpace
      (textOf (components.takeWhile fun c => !c.isLeaf .colon))
    have whole := congrArg textOf
      (List.takeWhile_append_dropWhile (p := fun c => !c.isLeaf .colon) (l := components))
    rw [split_] at whole
    simp only [textOf_append, textOf] at value whole
    rw [← whole, ← value]
    simp only [List.append_assoc]
    rw [trimEnd, ← List.append_assoc, head]

theorem isBlank_of_mem_trail {components : List Component} {parts : Parts}
    (found : read? components = some parts) {c : Component} (member : c ∈ parts.trail) :
    c.isBlank = true := by
  unfold read? at found
  split at found
  · cases found
  · cases found
    exact Trimmed.isBlank_of_mem_trail member

theorem trail_suffix {components : List Component} {parts : Parts}
    (found : read? components = some parts) : parts.trail <:+ components := by
  unfold read? at found
  split at found
  · cases found
  · rename_i colon tail split_
    cases found
    have after : tail <:+ components :=
      (List.suffix_cons colon tail).trans (split_ ▸ List.dropWhile_suffix _)
    exact (Trimmed.trail_suffix tail).trans after

end Parts

/-! ## Pieces -/

/-- How a piece that is no fault is cut out of the components. -/
inductive Piece.Cut : List Component → Piece → List Component → Prop where
  | comment {lexeme : Lexeme} {text : String} {rest : List Component}
      (token : lexeme.token = .comment text) :
      Cut (.leaf lexeme :: rest) (.simple (.comment text) {} none) rest
  /-- An at-rule that the end of the body ends. -/
  | openAtRule {keyword : Lexeme} {name : String} {params : List Component}
      (token : keyword.token = .atKeyword name)
      (within : ∀ c ∈ params, c.endsStatement = false) :
      Cut (.leaf keyword :: params)
        (.simple (.atRule name (String.ofList (textOf (Trimmed.read params).core)) false)
          { afterName := String.ofList (textOf (Trimmed.read params).lead) } (some false))
        (Trimmed.read params).trail
  /-- An at-rule that a semicolon ends. -/
  | atRule {keyword semicolon : Lexeme} {name : String} {components params rest : List Component}
      (token : keyword.token = .atKeyword name)
      (split : components = params ++ .leaf semicolon :: rest)
      (within : ∀ c ∈ params, c.endsStatement = false)
      (ends : semicolon.token = .semicolon) :
      Cut (.leaf keyword :: components)
        (.simple (.atRule name (String.ofList (textOf (Trimmed.read params).core)) false)
          { afterName := String.ofList (textOf (Trimmed.read params).lead)
            between := String.ofList (textOf (Trimmed.read params).trail) } (some true))
        rest
  /-- An at-rule with a block. -/
  | blockAtRule {keyword opener : Lexeme} {closer : Option Lexeme} {name : String}
      {components params body rest : List Component}
      (token : keyword.token = .atKeyword name)
      (split : components = params ++ .block opener body closer :: rest)
      (within : ∀ c ∈ params, c.endsStatement = false)
      (opens : opener.token = .opening .curly) :
      Cut (.leaf keyword :: components)
        (.block (.atRule name (String.ofList (textOf (Trimmed.read params).core)) true)
          { afterName := String.ofList (textOf (Trimmed.read params).lead)
            between := String.ofList (textOf (Trimmed.read params).trail) } body)
        rest
  /-- A declaration that the end of the body ends. -/
  | openDeclaration {components : List Component} {parts : Parts}
      (within : ∀ c ∈ components, ending components c = false)
      (found : Parts.read? components = some parts) :
      Cut components (.simple parts.kind { between := String.ofList parts.between } (some false))
        parts.trail
  /-- A declaration that a semicolon ends. -/
  | declaration {components whole rest : List Component} {semicolon : Lexeme} {parts : Parts}
      (split : components = whole ++ .leaf semicolon :: rest)
      (within : ∀ c ∈ whole, ending components c = false)
      (found : Parts.read? whole = some parts)
      (ends : semicolon.token = .semicolon) :
      Cut components
        (.simple parts.kind
          { between := String.ofList parts.between
            after := String.ofList (textOf parts.trail) } (some true))
        rest
  | rule {components whole body rest : List Component} {opener : Lexeme} {closer : Option Lexeme}
      (split : components = whole ++ .block opener body closer :: rest)
      (within : ∀ c ∈ whole, ending components c = false)
      (opens : opener.token = .opening .curly)
      (ends : ending components (.block opener body closer) = true) :
      Cut components
        (.block (.rule (String.ofList (textOf (dropEnd Component.isBlank whole))))
          { between := String.ofList (textOf (takeEnd Component.isBlank whole)) } body)
        rest

/-- Components up to the first of a class, and from it on. -/
theorem eq_takeWhile_append {p : Component → Bool} {components rest : List Component}
    {component : Component} (found : (components.dropWhile fun c => !p c) = component :: rest) :
    components = (components.takeWhile fun c => !p c) ++ component :: rest ∧
      p component = true := by
  refine ⟨by rw [← found, List.takeWhile_append_dropWhile], ?_⟩
  have ended := List.head?_dropWhile_not (fun c => !p c) components
  simpa [found] using ended

theorem takeWhile_not {p : Component → Bool} {components : List Component} :
    ∀ c ∈ components.takeWhile fun c => !p c, p c = false := by
  intro c member
  simpa using List.mem_takeWhile_imp member

theorem opens_of_endsStatement {opener : Lexeme} {body : List Component}
    {closer : Option Lexeme} (ends : endsStatement (.block opener body closer) = true) :
    opener.token = .opening .curly := by
  simpa [endsStatement, endsValue, isLeaf, isCurlyBlock] using ends

theorem endsStatement_of_ending {components : List Component} {c : Component}
    (ends : ending components c = true) : c.endsStatement = true := by
  unfold ending at ends
  split at ends
  · simp [endsStatement, ends]
  · exact ends

theorem Piece.cut_atRule {keyword : Lexeme} {name : String} {components next : List Component}
    {piece : Piece} (token : keyword.token = .atKeyword name)
    (found : Piece.atRule name components = (piece, next)) :
    (∃ error, piece = .fault error) ∨ Piece.Cut (.leaf keyword :: components) piece next := by
  unfold Piece.atRule at found
  dsimp only at found
  split at found
  · rename_i ended
    have all : (components.takeWhile fun c => !c.endsStatement) = components := by
      simpa [ended] using
        (List.takeWhile_append_dropWhile (p := fun c => !c.endsStatement) (l := components))
    rw [all] at found
    cases found
    have within : ∀ c ∈ components, c.endsStatement = false := all ▸ takeWhile_not
    exact .inr (.openAtRule token within)
  · rename_i opener body closer rest split_
    cases found
    obtain ⟨whole, ends⟩ := eq_takeWhile_append split_
    exact .inr (.blockAtRule token whole takeWhile_not (opens_of_endsStatement ends))
  · rename_i lexeme rest split_
    split at found
    · rename_i semicolon
      cases found
      exact .inr (.atRule token (eq_takeWhile_append split_).1 takeWhile_not semicolon)
    · cases found
      exact .inl ⟨_, rfl⟩

theorem Piece.cut_statement {start : Location} {components next : List Component}
    {piece : Piece} (found : Piece.statement start components = (piece, next)) :
    (∃ error, piece = .fault error) ∨ Piece.Cut components piece next := by
  unfold Piece.statement at found
  dsimp only at found
  split at found
  · rename_i ended
    have all : (components.takeWhile fun c => !ending components c) = components := by
      simpa [ended] using
        (List.takeWhile_append_dropWhile (p := fun c => !ending components c) (l := components))
    have within : ∀ c ∈ components, ending components c = false := by
      intro c member
      exact takeWhile_not c (all.symm ▸ member)
    rw [all] at found
    split at found
    · cases found
      exact .inl ⟨_, rfl⟩
    · rename_i parts read
      cases found
      exact .inr (.openDeclaration within read)
  · rename_i opener body closer rest split_
    cases found
    obtain ⟨whole, ends⟩ := eq_takeWhile_append split_
    have opens := opens_of_endsStatement (endsStatement_of_ending ends)
    exact .inr (.rule whole takeWhile_not opens ends)
  · rename_i lexeme rest split_
    split at found
    · rename_i semicolon
      split at found
      · cases found
        exact .inl ⟨_, rfl⟩
      · rename_i parts read
        cases found
        exact .inr (.declaration (eq_takeWhile_append split_).1 takeWhile_not read semicolon)
    · cases found
      exact .inl ⟨_, rfl⟩

/-- A piece is a fault, or it is cut out of the components. -/
theorem Piece.cut_read {component : Component} {rest next : List Component} {piece : Piece}
    (found : Piece.read component rest = (piece, next)) :
    (∃ error, piece = .fault error) ∨ Piece.Cut (component :: rest) piece next := by
  unfold Piece.read at found
  split at found
  · cases found
    exact .inr (.comment rfl)
  · cases found
    exact .inl ⟨_, rfl⟩
  · exact Piece.cut_atRule rfl found
  · exact Piece.cut_statement found

/-- What follows a piece stands at the end of the components. -/
theorem Piece.Cut.suffix {components next : List Component} {piece : Piece}
    (cut : Piece.Cut components piece next) : next <:+ components := by
  have after (first : List Component) (component : Component) :
      next <:+ first ++ component :: next :=
    (List.suffix_cons component next).trans (List.suffix_append first _)
  cases cut with
  | comment token => exact List.suffix_cons _ _
  | openAtRule token within => exact (Trimmed.trail_suffix _).trans (List.suffix_cons _ _)
  | atRule token split within ends => exact split ▸ (after _ _).trans (List.suffix_cons _ _)
  | blockAtRule token split within opens =>
      exact split ▸ (after _ _).trans (List.suffix_cons _ _)
  | openDeclaration within found => exact Parts.trail_suffix found
  | declaration split within found ends => exact split ▸ after _ _
  | rule split within opens ends => exact split ▸ after _ _

/-- The block of a piece stands directly before what follows the piece. -/
theorem Piece.Cut.block_mem {components next inner : List Component} {kind : Kind} {raws : Raws}
    (cut : Piece.Cut components (.block kind raws inner) next) :
    ∃ opener closer, .block opener inner closer :: next <:+ components := by
  cases cut with
  | blockAtRule token split within opens =>
      exact ⟨_, _, split ▸ (List.suffix_append _ _).trans (List.suffix_cons _ _)⟩
  | rule split within opens ends => exact ⟨_, _, split ▸ List.suffix_append _ _⟩

theorem Piece.cut_of_read {component : Component} {rest : List Component} {piece : Piece}
    (found : (Piece.read component rest).1 = piece) (sound : ∀ error, piece ≠ .fault error) :
    Piece.Cut (component :: rest) piece (Piece.read component rest).2 := by
  rcases Piece.cut_read (Prod.ext found rfl) with ⟨error, fault⟩ | cut
  · exact (sound error fault).elim
  · exact cut

/-! ## Bodies -/

/-- The body that components make up, where it can be read. -/
inductive Body.Reading : Bool → List Component → Body → Prop where
  | done {semicolon : Bool} {components : List Component}
      (fillers : ∀ c ∈ components, c.isFiller = true) :
      Reading semicolon components ⟨.nil, textOf components, semicolon⟩
  | simple {semicolon : Bool} {lead rest next : List Component} {component : Component}
      {kind : Kind} {raws : Raws} {ended : Option Bool} {more : Body}
      (fillers : ∀ c ∈ lead, c.isFiller = true) (first : component.isFiller = false)
      (cut : Piece.Cut (component :: rest) (.simple kind raws ended) next)
      (later : Reading (ended.getD semicolon) next more) :
      Reading semicolon (lead ++ component :: rest)
        (more.cons
          ⟨kind, { raws with before := String.ofList (textOf lead) }, some component.start⟩ .nil)
  | block {semicolon : Bool} {lead rest next inner : List Component} {component : Component}
      {kind : Kind} {raws : Raws} {body more : Body}
      (fillers : ∀ c ∈ lead, c.isFiller = true) (first : component.isFiller = false)
      (cut : Piece.Cut (component :: rest) (.block kind raws inner) next)
      (inside : Reading false inner body)
      (later : Reading false (ownSemicolon kind next).2 more) :
      Reading semicolon (lead ++ component :: rest)
        (more.cons
          ⟨kind, { raws.enclose body with
            before := String.ofList (textOf lead)
            ownSemicolon := (ownSemicolon kind next).1 }, some component.start⟩ body.items)

/-- Components from their first member on that is no filler. -/
theorem eq_fillers_append {components rest : List Component} {component : Component}
    (filled : components.dropWhile isFiller = component :: rest) :
    components = components.takeWhile isFiller ++ component :: rest ∧
      component.isFiller = false := by
  refine ⟨by rw [← filled, List.takeWhile_append_dropWhile], ?_⟩
  have solid := List.head?_dropWhile_not isFiller components
  simpa [filled] using solid

/-! ## Reading a body, case by case -/

section Cases

variable {semicolon : Bool} {components rest inner : List Component} {component : Component}
  {kind : Kind} {raws : Raws} {ended : Option Bool} {error : ParseError}

theorem Body.read_done (fillers : components.dropWhile isFiller = []) :
    Body.read semicolon components = .ok ⟨.nil, textOf components, semicolon⟩ := by
  rw [Body.read]
  split
  · rfl
  · simp_all

theorem Body.read_fault (filled : components.dropWhile isFiller = component :: rest)
    (found : (Piece.read component rest).1 = .fault error) :
    Body.read semicolon components = .error ⟨error, (Piece.read component rest).2⟩ := by
  rw [Body.read]
  split
  · simp_all
  · rename_i component' rest' filled'
    cases filled.symm.trans filled'
    dsimp only
    split
    · rename_i found'
      cases found.symm.trans found'
      rfl
    · simp_all
    · simp_all

theorem Body.read_simple (filled : components.dropWhile isFiller = component :: rest)
    (found : (Piece.read component rest).1 = .simple kind raws ended) :
    Body.read semicolon components =
      (Body.read (ended.getD semicolon) (Piece.read component rest).2).map
        (Body.cons ⟨kind, { raws with
          before := String.ofList (textOf (components.takeWhile isFiller)) },
          some component.start⟩ .nil) := by
  rw [Body.read]
  split
  · simp_all
  · rename_i component' rest' filled'
    cases filled.symm.trans filled'
    dsimp only
    split
    · simp_all
    · rename_i found'
      cases found.symm.trans found'
      cases Body.read (ended.getD semicolon) (Piece.read component rest).2 <;> rfl
    · simp_all

theorem Body.read_block (filled : components.dropWhile isFiller = component :: rest)
    (found : (Piece.read component rest).1 = .block kind raws inner) :
    Body.read semicolon components =
      ((Body.read false inner).mapError
        (.leave component.start (Piece.read component rest).2)).bind fun body =>
          (Body.read false (ownSemicolon kind (Piece.read component rest).2).2).map
            (Body.cons ⟨kind, { raws.enclose body with
              before := String.ofList (textOf (components.takeWhile isFiller))
              ownSemicolon := (ownSemicolon kind (Piece.read component rest).2).1 },
              some component.start⟩ body.items) := by
  rw [Body.read]
  split
  · simp_all
  · rename_i component' rest' filled'
    cases filled.symm.trans filled'
    dsimp only
    split
    · simp_all
    · simp_all
    · rename_i found'
      cases found.symm.trans found'
      cases Body.read false inner with
      | error failure => rfl
      | ok body =>
          cases Body.read false (ownSemicolon kind (Piece.read component rest).2).2 <;> rfl

end Cases

/-- What a body that can be read and does not only hold fillers starts with. -/
theorem read_cons {semicolon : Bool} {components rest : List Component} {component : Component}
    {body : Body} (filled : components.dropWhile isFiller = component :: rest)
    (read : Body.read semicolon components = .ok body) :
    (∃ kind raws ended more,
      (Piece.read component rest).1 = .simple kind raws ended ∧
        Body.read (ended.getD semicolon) (Piece.read component rest).2 = .ok more ∧
        body = more.cons
          ⟨kind, { raws with before := String.ofList (textOf (components.takeWhile isFiller)) },
            some component.start⟩ .nil) ∨
      ∃ kind raws inner inside more,
        (Piece.read component rest).1 = .block kind raws inner ∧
          Body.read false inner = .ok inside ∧
          Body.read false (ownSemicolon kind (Piece.read component rest).2).2 = .ok more ∧
          body = more.cons
            ⟨kind, { raws.enclose inside with
              before := String.ofList (textOf (components.takeWhile isFiller))
              ownSemicolon := (ownSemicolon kind (Piece.read component rest).2).1 },
              some component.start⟩ inside.items := by
  cases found : (Piece.read component rest).1 with
  | fault error =>
      rw [Body.read_fault filled found] at read
      cases read
  | simple kind raws ended =>
      rw [Body.read_simple filled found] at read
      cases later : Body.read (ended.getD semicolon) (Piece.read component rest).2 with
      | error failure => rw [later] at read; cases read
      | ok more =>
          rw [later] at read
          cases read
          exact .inl ⟨kind, raws, ended, more, rfl, later, rfl⟩
  | block kind raws inner =>
      rw [Body.read_block filled found] at read
      cases inside : Body.read false inner with
      | error failure => rw [inside] at read; cases read
      | ok body =>
          rw [inside] at read
          cases later : Body.read false (ownSemicolon kind (Piece.read component rest).2).2 with
          | error failure => simp [later, Except.mapError, Except.bind, Except.map] at read
          | ok more =>
              simp only [later, Except.mapError, Except.bind, Except.map, Except.ok.injEq] at read
              exact .inr ⟨kind, raws, inner, body, more, rfl, inside, later, read.symm⟩

theorem reading_of_read {semicolon : Bool} {components : List Component} {body : Body}
    (read : Body.read semicolon components = .ok body) :
    Body.Reading semicolon components body := by
  induction semicolon, components using Body.read.induct generalizing body with
  | case1 semicolon components filled =>
      rw [Body.read] at read
      split at read
      · cases read
        exact .done (List.dropWhile_eq_nil_iff.1 filled)
      · simp_all
  | case2 semicolon components component rest filled next error =>
      rename_i found
      rcases read_cons filled read with ⟨_, _, _, _, other, -⟩ | ⟨_, _, _, _, _, other, -⟩ <;>
        exact Piece.noConfusion (found.symm.trans other)
  | case3 semicolon components component rest filled next kind raws ended found =>
      rename_i ih
      rcases read_cons filled read with
        ⟨kind', raws', ended', more, same, later, rfl⟩ | ⟨_, _, _, _, _, other, -⟩
      · cases found.symm.trans same
        have fillers : ∀ c ∈ components.takeWhile isFiller, c.isFiller = true :=
          fun _ => List.mem_takeWhile_imp
        have cut := Piece.cut_of_read found (by simp)
        obtain ⟨split, first⟩ := eq_fillers_append filled
        have whole := Body.Reading.simple fillers first cut (ih later)
        rwa [← split] at whole
      · exact Piece.noConfusion (found.symm.trans other)
  | case4 semicolon components component rest filled next kind raws inner found ihInner =>
      rename_i ihRest
      rcases read_cons filled read with
        ⟨_, _, _, _, other, -⟩ | ⟨kind', raws', inner', body, more, same, inside, later, rfl⟩
      · exact Piece.noConfusion (found.symm.trans other)
      · cases found.symm.trans same
        have fillers : ∀ c ∈ components.takeWhile isFiller, c.isFiller = true :=
          fun _ => List.mem_takeWhile_imp
        have cut := Piece.cut_of_read found (by simp)
        obtain ⟨split, first⟩ := eq_fillers_append filled
        have whole := fun semicolon => @Body.Reading.block semicolon _ _ _ _ _ _ _ _ _ fillers
          first cut (ihInner inside) (ihRest later)
        rw [← split] at whole
        exact whole semicolon

/-- A text that can be parsed can be read. -/
theorem reading_of_parse {css : String} {body : Body} (parsed : Body.parse css = .ok body) :
    Body.Reading false (Component.read css.toList) body := by
  refine reading_of_read ?_
  unfold Body.parse at parsed
  cases read : Body.read false (Component.read css.toList) with
  | error failure => simp [read, Except.mapError] at parsed
  | ok other => simpa [read, Except.mapError] using parsed

namespace Body.Reading

/-- Components that are all fillers make up a body without items. -/
theorem eq_of_fillers {semicolon : Bool} {components : List Component} {body : Body}
    (reading : Body.Reading semicolon components body)
    (fillers : ∀ c ∈ components, c.isFiller = true) :
    body = ⟨.nil, textOf components, semicolon⟩ := by
  cases reading with
  | done _ => rfl
  | simple lead first cut later => simp_all
  | block lead first cut inside later => simp_all

/-- A body without items is made of fillers. -/
theorem fillers_of_items {semicolon : Bool} {components : List Component} {body : Body}
    (reading : Body.Reading semicolon components body) (none_ : body.items = .nil) :
    ∀ c ∈ components, c.isFiller = true := by
  cases reading with
  | done fillers => exact fillers
  | simple lead first cut later => cases none_
  | block lead first cut inside later => cases none_

end Body.Reading

/-- What a rule's own semicolon takes from the components after it. -/
theorem ownSemicolon_append (kind : Kind) (components : List Component) :
    ∃ skipped, components = skipped ++ (ownSemicolon kind components).2 ∧
      (∀ c ∈ skipped, c.isFiller = true) ∧
      ((ownSemicolon kind components).1.getD "").toList = textOf skipped ∧
      (kind.isRule = false → (ownSemicolon kind components).1 = none) := by
  unfold ownSemicolon
  split
  · exact ⟨[], rfl, by simp, rfl, fun _ => rfl⟩
  · rename_i rule
    split
    · exact ⟨[], rfl, by simp, rfl, fun _ => rfl⟩
    · rename_i component rest split_
      split
      · rename_i semicolon
        refine ⟨components.takeWhile Component.isBlank ++ [component], ?_, ?_, ?_, by simp_all⟩
        · rw [List.append_assoc, List.singleton_append, ← split_, List.takeWhile_append_dropWhile]
        · intro c member
          rcases List.mem_append.1 member with blank | last
          · simp [isFiller, List.mem_takeWhile_imp blank]
          · rw [List.mem_singleton.1 last]
            simp [isFiller, semicolon]
        · simp [textOf]
      · exact ⟨[], rfl, by simp, rfl, fun _ => rfl⟩

end ApplyRule
