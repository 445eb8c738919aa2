/-
# ApplyRule.Proofs.Unplaced -- where a text stands does not matter

The same text is read in the same way wherever it stands: its lexemes, its components
and the body they make up differ in their locations only.

* `unplaced_lexemesFrom`, `Component.plain` -- the lexemes and components of a text
  without their locations;
* `Body.outcome` -- what components are read as, without locations, or that they cannot
  be read.  It does not look at the locations of the components (`outcome_unplaced`),
  and it can be computed piece by piece (`outcome_done`, `outcome_simple`,
  `outcome_block`).
-/
import ApplyRule.Proofs.Definitions
import ApplyRule.Proofs.Locality

namespace ApplyRule

set_option autoImplicit false

open Text

/-! ## Lexemes -/

/-- A lexeme without its location. -/
def Lexeme.unplaced (lexeme : Lexeme) : Lexeme :=
  { lexeme with start := .first }

/-- The lexemes of a text without their locations. -/
def Lexeme.plain (text : List Char) : List Lexeme :=
  (lexemes text).map Lexeme.unplaced

theorem unplaced_lexemesFrom (here : Location) (text : List Char) :
    (lexemesFrom here text).map Lexeme.unplaced = Lexeme.plain text := by
  suffices same : ∀ there, (lexemesFrom here text).map Lexeme.unplaced =
      (lexemesFrom there text).map Lexeme.unplaced from same .first
  fun_induction lexemesFrom here text with
  | case1 here =>
      intro there
      rw [lexemesFrom]
  | case2 here c rest token length read own ih =>
      intro there
      rw [lexemesFrom_cons, List.map_cons, List.map_cons, read, ih]
      rfl

theorem Lexeme.plain_cons (c : Char) (rest : List Char) :
    Lexeme.plain (c :: rest) =
      ⟨(Token.read c rest).1, c :: rest.take (Token.read c rest).2, .first⟩ ::
        Lexeme.plain (rest.drop (Token.read c rest).2) := by
  rw [Lexeme.plain, lexemes, lexemesFrom_cons, List.map_cons, unplaced_lexemesFrom]
  rfl

/-! ## Components -/

namespace Component

mutual

/-- A component without locations. -/
def unplaced : Component → Component
  | .leaf lexeme => .leaf lexeme.unplaced
  | .block opener body closer =>
      .block opener.unplaced (unplacedAll body) (closer.map Lexeme.unplaced)

/-- Components without locations. -/
def unplacedAll : List Component → List Component
  | [] => []
  | component :: rest => component.unplaced :: unplacedAll rest

end

@[simp] theorem unplacedAll_eq (components : List Component) :
    unplacedAll components = components.map unplaced := by
  induction components with
  | nil => rfl
  | cons component rest ih => rw [unplacedAll, ih, List.map_cons]

mutual

theorem text_unplaced : (component : Component) → component.unplaced.text = component.text
  | .leaf lexeme => rfl
  | .block opener body closer => by
      rw [unplaced, text, text, textOf_unplacedAll body]
      cases closer <;> rfl

theorem textOf_unplacedAll : (components : List Component) →
    textOf (unplacedAll components) = textOf components
  | [] => rfl
  | component :: rest => by
      rw [unplacedAll, textOf, textOf, text_unplaced component, textOf_unplacedAll rest]

end

@[simp] theorem textOf_unplaced (components : List Component) :
    textOf (components.map unplaced) = textOf components := by
  rw [← unplacedAll_eq, textOf_unplacedAll]

/-- The components of a text without their locations. -/
def plain (text : List Char) : List Component :=
  (Component.read text).map unplaced

/-- A level without locations. -/
def Level.unplaced (level : Level) : Level :=
  ⟨level.components.map Component.unplaced, level.closer.map Lexeme.unplaced⟩

theorem levels_unplaced (brackets : List Bracket) (lexemes : List Lexeme) :
    levels brackets (lexemes.map Lexeme.unplaced) =
      ((levels brackets lexemes).1.unplaced, (levels brackets lexemes).2.map Level.unplaced) := by
  induction lexemes generalizing brackets with
  | nil => rfl
  | cons lexeme rest ih =>
      rw [List.map_cons, levels, levels]
      have token : lexeme.unplaced.token = lexeme.token := rfl
      rw [token]
      split
      · rw [ih]
        rfl
      · split
        · rw [ih]
          rfl
        · rw [ih]
          dsimp only
          cases (levels (_ :: brackets) rest).2 <;>
            simp [Level.unplaced, Level.cons, Level.empty, unplaced]

theorem plain_eq (text : List Char) : plain text = group (Lexeme.plain text) := by
  rw [plain, Component.read, group, group, Lexeme.plain, levels_unplaced]
  rfl

@[simp] theorem textOf_plain (text : List Char) : textOf (plain text) = text := by
  rw [plain, textOf_unplaced, textOf_read]

/-! ## Classes of components -/

@[simp] theorem isLeaf_unplaced (token : Token) (component : Component) :
    component.unplaced.isLeaf token = component.isLeaf token := by
  cases component <;> rfl

@[simp] theorem isCurlyBlock_unplaced (component : Component) :
    component.unplaced.isCurlyBlock = component.isCurlyBlock := by
  cases component <;> rfl

@[simp] theorem isBlank_unplaced (component : Component) :
    component.unplaced.isBlank = component.isBlank :=
  isLeaf_unplaced ..

@[simp] theorem isFiller_unplaced (component : Component) :
    component.unplaced.isFiller = component.isFiller := by
  simp [isFiller]

@[simp] theorem endsValue_unplaced (component : Component) :
    component.unplaced.endsValue = component.endsValue := by
  simp [endsValue]

@[simp] theorem endsStatement_unplaced (component : Component) :
    component.unplaced.endsStatement = component.endsStatement := by
  simp [endsStatement]

theorem takeWhile_unplaced {p : Component → Bool} (blind : ∀ c, p (unplaced c) = p c)
    (components : List Component) :
    (components.map unplaced).takeWhile p = (components.takeWhile p).map unplaced := by
  rw [List.takeWhile_map]
  congr 2
  funext component
  exact blind component

theorem dropWhile_unplaced {p : Component → Bool} (blind : ∀ c, p (unplaced c) = p c)
    (components : List Component) :
    (components.map unplaced).dropWhile p = (components.dropWhile p).map unplaced := by
  rw [List.dropWhile_map]
  congr 2
  funext component
  exact blind component

theorem startsCustom_unplaced (components : List Component) :
    startsCustom (components.map unplaced) = startsCustom components := by
  cases components with
  | nil => rfl
  | cons component rest =>
      cases component with
      | leaf lexeme =>
          obtain ⟨token, text, start⟩ := lexeme
          cases token <;> rfl
      | block opener body closer => rfl

theorem ending_unplaced (components : List Component) :
    ending (components.map unplaced) = ending components := by
  have any : ((components.map unplaced).takeWhile fun c => !c.endsStatement).any (isLeaf .colon) =
      (components.takeWhile fun c => !c.endsStatement).any (isLeaf .colon) := by
    rw [takeWhile_unplaced (by simp), List.any_map]
    congr 1
    funext component
    exact isLeaf_unplaced ..
  rw [ending, ending, startsCustom_unplaced, any]

theorem dropEnd_unplaced (components : List Component) :
    dropEnd Component.isBlank (components.map unplaced) =
      (dropEnd Component.isBlank components).map unplaced := by
  induction components with
  | nil => rfl
  | cons component rest ih =>
      rw [List.map_cons, dropEnd, ih, dropEnd]
      cases dropEnd Component.isBlank rest with
      | nil =>
          simp only [List.map_nil, isBlank_unplaced]
          split <;> rfl
      | cons next more => rfl

theorem takeEnd_unplaced (components : List Component) :
    takeEnd Component.isBlank (components.map unplaced) =
      (takeEnd Component.isBlank components).map unplaced := by
  rw [takeEnd, takeEnd, dropEnd_unplaced, List.length_map, List.map_drop]

theorem trimmed_unplaced (components : List Component) :
    Trimmed.read (components.map unplaced) =
      ⟨(Trimmed.read components).lead.map unplaced, (Trimmed.read components).core.map unplaced,
        (Trimmed.read components).trail.map unplaced⟩ := by
  unfold Trimmed.read
  rw [dropWhile_unplaced isBlank_unplaced, takeWhile_unplaced isBlank_unplaced]
  cases components.dropWhile Component.isBlank with
  | nil => rfl
  | cons first rest =>
      rw [← dropEnd_unplaced, ← takeEnd_unplaced]
      rfl

end Component

open Component

/-! ## Pieces -/

/-- The parts of a declaration without locations. -/
def Parts.unplaced (parts : Parts) : Parts :=
  { parts with trail := parts.trail.map Component.unplaced }

theorem Parts.read?_unplaced (components : List Component) :
    Parts.read? (components.map Component.unplaced) =
      (Parts.read? components).map Parts.unplaced := by
  unfold Parts.read?
  rw [dropWhile_unplaced (by simp), takeWhile_unplaced (by simp)]
  cases components.dropWhile fun c => !c.isLeaf .colon with
  | nil => rfl
  | cons colon tail =>
      simp only [List.map_cons, Option.map_some, Parts.unplaced, trimmed_unplaced,
        textOf_unplaced, text_unplaced]

/-- Whether two pieces are the same but for their locations. -/
inductive Piece.Alike : Piece → Piece → Prop where
  | simple (kind : Kind) (raws : Raws) (ended : Option Bool) :
      Alike (.simple kind raws ended) (.simple kind raws ended)
  | block (kind : Kind) (raws : Raws) (body : List Component) :
      Alike (.block kind raws (body.map Component.unplaced)) (.block kind raws body)
  | fault (error other : ParseError) : Alike (.fault error) (.fault other)

theorem Piece.alike_atRule (name : String) (components : List Component) :
    Alike (Piece.atRule name (components.map Component.unplaced)).1
        (Piece.atRule name components).1 ∧
      (Piece.atRule name (components.map Component.unplaced)).2 =
        (Piece.atRule name components).2.map Component.unplaced := by
  unfold Piece.atRule
  rw [takeWhile_unplaced (by simp), dropWhile_unplaced (by simp), trimmed_unplaced]
  simp only [textOf_unplaced]
  cases components.dropWhile fun c => !c.endsStatement with
  | nil => exact ⟨.simple .., rfl⟩
  | cons first rest =>
      cases first with
      | block opener body closer =>
          simp only [List.map_cons, Component.unplaced, unplacedAll_eq]
          exact ⟨.block .., trivial⟩
      | leaf lexeme =>
          simp only [List.map_cons, Component.unplaced, Lexeme.unplaced]
          split
          · exact ⟨.simple .., rfl⟩
          · exact ⟨.fault .., rfl⟩

theorem Piece.alike_statement (start other : Location) (components : List Component) :
    Alike (Piece.statement start (components.map Component.unplaced)).1
        (Piece.statement other components).1 ∧
      (Piece.statement start (components.map Component.unplaced)).2 =
        (Piece.statement other components).2.map Component.unplaced := by
  unfold Piece.statement
  dsimp only
  rw [ending_unplaced]
  have blind : ∀ c : Component, (!ending components c.unplaced) = !ending components c := by
    intro c
    unfold ending
    split <;> simp
  rw [takeWhile_unplaced blind, dropWhile_unplaced blind]
  simp only [Parts.read?_unplaced, dropEnd_unplaced, takeEnd_unplaced, textOf_unplaced]
  generalize components.takeWhile (fun c => !ending components c) = whole
  cases components.dropWhile fun c => !ending components c with
  | nil =>
      cases Parts.read? whole with
      | none => exact ⟨.fault .., rfl⟩
      | some parts => exact ⟨.simple .., rfl⟩
  | cons first rest =>
      cases first with
      | block opener body closer =>
          simp only [List.map_cons, Component.unplaced, unplacedAll_eq]
          exact ⟨.block .., trivial⟩
      | leaf lexeme =>
          simp only [List.map_cons, Component.unplaced, Lexeme.unplaced]
          split
          · cases Parts.read? whole with
            | none => exact ⟨.fault .., rfl⟩
            | some parts =>
                simp only [Option.map_some, Parts.unplaced, textOf_unplaced]
                exact ⟨.simple .., trivial⟩
          · exact ⟨.fault .., rfl⟩

theorem Piece.alike_read (component : Component) (rest : List Component) :
    Alike (Piece.read component.unplaced (rest.map Component.unplaced)).1
        (Piece.read component rest).1 ∧
      (Piece.read component.unplaced (rest.map Component.unplaced)).2 =
        (Piece.read component rest).2.map Component.unplaced := by
  have statement := alike_statement component.unplaced.start component.start (component :: rest)
  cases component with
  | block opener body closer => exact statement
  | leaf lexeme =>
      obtain ⟨token, text, start⟩ := lexeme
      cases token with
      | comment text => exact ⟨.simple .., rfl⟩
      | atKeyword name => exact alike_atRule name rest
      | closing bracket =>
          cases bracket with
          | curly => exact ⟨.fault .., rfl⟩
          | _ => exact statement
      | _ => exact statement

/-! ## Bodies -/

namespace Body

/-- A body without locations. -/
def unplaced (body : Body) : Body :=
  { body with items := body.items.unplaced }

/-- What components are read as, without locations. -/
def outcome (semicolon : Bool) (components : List Component) : Option Body :=
  (Body.read semicolon components).toOption.map unplaced

variable {semicolon : Bool} {components rest : List Component} {component : Component}

theorem outcome_done (fillers : components.dropWhile isFiller = []) :
    outcome semicolon components = some ⟨.nil, textOf components, semicolon⟩ := by
  rw [outcome, Body.read_done fillers]
  rfl

theorem outcome_fault {error : ParseError}
    (filled : components.dropWhile isFiller = component :: rest)
    (found : (Piece.read component rest).1 = .fault error) :
    outcome semicolon components = none := by
  rw [outcome, Body.read_fault filled found]
  rfl

theorem outcome_simple {kind : Kind} {raws : Raws} {ended : Option Bool}
    (filled : components.dropWhile isFiller = component :: rest)
    (found : (Piece.read component rest).1 = .simple kind raws ended) :
    outcome semicolon components =
      (outcome (ended.getD semicolon) (Piece.read component rest).2).map
        (Body.cons ⟨kind, { raws with
          before := String.ofList (textOf (components.takeWhile isFiller)) }, none⟩ .nil) := by
  rw [outcome, outcome, Body.read_simple filled found]
  cases Body.read (ended.getD semicolon) (Piece.read component rest).2 <;> rfl

theorem outcome_block {kind : Kind} {raws : Raws} {inner : List Component}
    (filled : components.dropWhile isFiller = component :: rest)
    (found : (Piece.read component rest).1 = .block kind raws inner) :
    outcome semicolon components =
      (outcome false inner).bind fun body =>
        (outcome false (ownSemicolon kind (Piece.read component rest).2).2).map
          (Body.cons ⟨kind, { raws.enclose body with
            before := String.ofList (textOf (components.takeWhile isFiller))
            ownSemicolon := (ownSemicolon kind (Piece.read component rest).2).1 }, none⟩
            body.items) := by
  rw [outcome, outcome, outcome, Body.read_block filled found]
  cases Body.read false inner with
  | error failure => rfl
  | ok body => cases Body.read false (ownSemicolon kind (Piece.read component rest).2).2 <;> rfl

theorem ownSemicolon_unplaced (kind : Kind) (components : List Component) :
    ownSemicolon kind (components.map Component.unplaced) =
      ((ownSemicolon kind components).1,
        (ownSemicolon kind components).2.map Component.unplaced) := by
  unfold ownSemicolon
  rw [dropWhile_unplaced isBlank_unplaced, takeWhile_unplaced isBlank_unplaced]
  split
  · rfl
  · cases components.dropWhile Component.isBlank with
    | nil => rfl
    | cons component rest =>
        simp only [List.map_cons, isLeaf_unplaced, textOf_unplaced, text_unplaced]
        split <;> rfl

/-- Locations do not matter. -/
theorem outcome_unplaced (semicolon : Bool) (components : List Component) :
    outcome semicolon (components.map Component.unplaced) = outcome semicolon components := by
  induction semicolon, components using Body.read.induct with
  | case1 semicolon components filled =>
      have also := dropWhile_unplaced isFiller_unplaced components
      rw [filled] at also
      rw [outcome_done filled, outcome_done also, textOf_unplaced]
  | case2 semicolon components component rest filled next error found =>
      have also := dropWhile_unplaced isFiller_unplaced components
      rw [filled] at also
      obtain ⟨alike, -⟩ := Piece.alike_read component rest
      rw [show (Piece.read component rest).1 = _ from found] at alike
      generalize shape : (Piece.read component.unplaced (rest.map Component.unplaced)).1 = piece
        at alike
      cases alike with
      | fault error other => rw [outcome_fault filled found, outcome_fault also shape]
  | case3 semicolon components component rest filled next kind raws ended found =>
      rename_i ih
      have also := dropWhile_unplaced isFiller_unplaced components
      rw [filled] at also
      obtain ⟨alike, later⟩ := Piece.alike_read component rest
      rw [show (Piece.read component rest).1 = _ from found] at alike
      generalize shape : (Piece.read component.unplaced (rest.map Component.unplaced)).1 = piece
        at alike
      cases alike with
      | simple kind raws ended =>
          rw [outcome_simple filled found, outcome_simple also shape, later,
            takeWhile_unplaced isFiller_unplaced, textOf_unplaced, ih]
  | case4 semicolon components component rest filled next kind raws inner found ihInner =>
      rename_i ihRest
      have also := dropWhile_unplaced isFiller_unplaced components
      rw [filled] at also
      obtain ⟨alike, later⟩ := Piece.alike_read component rest
      rw [show (Piece.read component rest).1 = _ from found] at alike
      generalize shape : (Piece.read component.unplaced (rest.map Component.unplaced)).1 = piece
        at alike
      cases alike with
      | block kind raws body =>
          rw [outcome_block filled found, outcome_block also shape, later, ihInner,
            ownSemicolon_unplaced, takeWhile_unplaced isFiller_unplaced, textOf_unplaced, ihRest]

/-- A text is parsed as its components are read. -/
theorem outcome_plain (css : String) :
    outcome false (Component.plain css.toList) = (Body.parse css).toOption.map unplaced := by
  rw [Component.plain, outcome_unplaced, outcome, Body.parse]
  cases Body.read false (Component.read css.toList) <;> rfl

end Body

end ApplyRule
