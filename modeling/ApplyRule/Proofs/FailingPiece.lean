/-
# ApplyRule.Proofs.FailingPiece -- which pieces fail

What stands at the front of a body, fillers apart, is a piece of one of four shapes
(`Piece.front_of_solid`).

* A comment, or an at-rule or a declaration that a semicolon ends (`Piece.Complete`).  It is
  read alike whatever follows.
* An at-rule or a declaration that the end of the body ends (`Piece.Last`).
* An at-rule or a rule with a block (`Piece.Opens`).  It is read alike whatever is in the block
  and whatever follows it.
* A statement that is neither an at-rule, a declaration nor a rule, or a closing bracket for
  which no block is open (`Piece.Wrong`).  Only these fail.
-/
import ApplyRule.Proofs.Reading

namespace ApplyRule

set_option autoImplicit false

open Text Component

/-! ## What ends a statement -/

namespace Component

variable {component stop other : Component} {rest front whole first second : List Component}
  {components : List Component} {lexeme : Lexeme} {token : Token} {p : Component → Bool}

/-- A leaf of a token that is neither white space nor a semicolon is no filler. -/
theorem isFiller_leaf (own : lexeme.token = token) (notBlank : token ≠ .whitespace)
    (notSemicolon : token ≠ .semicolon) : (Component.leaf lexeme).isFiller = false := by
  simp [isFiller, Component.isBlank, isLeaf, own, notBlank, notSemicolon]

theorem isFiller_keyword {name : String} (own : lexeme.token = .atKeyword name) :
    (Component.leaf lexeme).isFiller = false :=
  isFiller_leaf own nofun nofun

theorem endsStatement_of_endsValue (ends : component.endsValue = true) :
    component.endsStatement = true := by
  simp [endsStatement, ends]

theorem ending_of_endsValue (ends : component.endsValue = true) :
    ending components component = true := by
  unfold ending
  split
  · exact ends
  · exact endsStatement_of_endsValue ends

/-- A semicolon or a closing bracket ends every statement. -/
theorem endsValue_leaf (stop : lexeme.token = .semicolon ∨ lexeme.token = .closing .curly) :
    (Component.leaf lexeme).endsValue = true := by
  simpa [endsValue, isLeaf] using stop

theorem endsStatement_block {opener : Lexeme} {body : List Component} {closer : Option Lexeme}
    (opens : opener.token = .opening .curly) :
    (Component.block opener body closer).endsStatement = true := by
  simp [endsStatement, isCurlyBlock, opens]

/-- What ends a statement: a semicolon, a closing bracket or a block. -/
theorem stop_cases (ends : stop.endsStatement = true) :
    (∃ semicolon, stop = .leaf semicolon ∧ semicolon.token = .semicolon) ∨
      (∃ brace, stop = .leaf brace ∧ brace.token = .closing .curly) ∨
      ∃ opener body closer, stop = .block opener body closer ∧
        opener.token = .opening .curly := by
  cases stop with
  | leaf lexeme =>
      rcases (by simpa [endsStatement, endsValue, isLeaf, isCurlyBlock] using ends :
        lexeme.token = .semicolon ∨ lexeme.token = .closing .curly) with semicolon | brace
      · exact .inl ⟨lexeme, rfl, semicolon⟩
      · exact .inr (.inl ⟨lexeme, rfl, brace⟩)
  | block opener body closer =>
      exact .inr (.inr ⟨opener, body, closer, rfl, opens_of_endsStatement ends⟩)

/-- Components up to the first of a class, if one of them is in it. -/
theorem exists_upTo (p : Component → Bool) (components : List Component) :
    (∀ c ∈ components, p c = false) ∨
      ∃ front stop rest, components = front ++ stop :: rest ∧
        (∀ c ∈ front, p c = false) ∧ p stop = true := by
  cases split_ : components.dropWhile fun c => !p c with
  | nil =>
      refine .inl fun c member => ?_
      simpa using List.dropWhile_eq_nil_iff.mp split_ c member
  | cons stop rest =>
      obtain ⟨whole, ends⟩ := eq_takeWhile_append split_
      exact .inr ⟨_, stop, rest, whole, takeWhile_not, ends⟩

theorem takeWhile_append_stop (stops : p stop = false) :
    (front ++ stop :: rest).takeWhile p = front.takeWhile p := by
  induction front with
  | nil => exact List.takeWhile_cons_of_neg (by simp [stops])
  | cons c more ih => by_cases holds : p c = true <;> simp [holds, ih]

section UpTo

variable (within : ∀ c ∈ front, p c = false)

include within

theorem takeWhile_within : (front.takeWhile fun c => !p c) = front :=
  List.takeWhile_eq_self_iff.mpr fun c member => by simp [within c member]

theorem dropWhile_within : (front.dropWhile fun c => !p c) = [] :=
  List.dropWhile_eq_nil_iff.mpr fun c member => by simp [within c member]

variable (stops : p stop = true)

include stops

theorem takeWhile_upTo : ((front ++ stop :: rest).takeWhile fun c => !p c) = front := by
  rw [takeWhile_append_stop (by simp [stops]), takeWhile_within within]

theorem dropWhile_upTo : ((front ++ stop :: rest).dropWhile fun c => !p c) = stop :: rest := by
  rw [List.dropWhile_append_of_pos fun c member => by simp [within c member]]
  simp [stops]

end UpTo

/-- What ends a statement is told by what stands before the first component that can. -/
theorem ending_upTo (stops : stop.endsStatement = true) (also : other.endsStatement = true) :
    ending (front ++ stop :: first) = ending (front ++ other :: second) := by
  unfold ending
  rw [takeWhile_append_stop (by simp [stops]), takeWhile_append_stop (by simp [also])]
  cases front with
  | nil => simp
  | cons c more => rfl

/-- Whether a block ends a statement does not depend on what is in it. -/
theorem ending_block (opener : Lexeme) (body inner : List Component)
    (closer other : Option Lexeme) :
    ending components (.block opener body closer) =
      ending components (.block opener inner other) := by
  unfold ending
  split <;> rfl

/-- A block ends every statement that has no colon before it. -/
theorem ending_plain
    (plain : ∀ c ∈ components.takeWhile fun c => !c.endsStatement, c.isLeaf .colon = false) :
    ending components = endsStatement := by
  have none_ : (components.takeWhile fun c => !c.endsStatement).any (isLeaf .colon) = false := by
    simpa using plain
  unfold ending
  rw [none_, Bool.and_false]
  rfl

section Colon

variable (noColon : ∀ c ∈ whole, c.isLeaf .colon = false)

include noColon

theorem ending_of_noColon : ending whole = endsStatement :=
  ending_plain fun c member => noColon c (List.takeWhile_subset _ member)

theorem ending_upTo_of_noColon (stops : stop.endsStatement = true) :
    ending (whole ++ stop :: rest) = endsStatement := by
  refine ending_plain fun c member => noColon c ?_
  rw [takeWhile_append_stop (by simp [stops])] at member
  exact List.takeWhile_subset _ member

end Colon

/-- Only components with a colon have the parts of a declaration. -/
theorem read?_eq_none :
    Parts.read? components = none ↔ ∀ c ∈ components, c.isLeaf .colon = false := by
  unfold Parts.read?
  split
  · rename_i none_
    simpa using List.dropWhile_eq_nil_iff.mp none_
  · rename_i colon tail split_
    obtain ⟨whole, isColon⟩ := eq_takeWhile_append split_
    refine iff_of_false nofun fun all => ?_
    rw [all colon (whole ▸ by simp)] at isColon
    cases isColon

theorem exists_parts (colon : ∃ c ∈ components, c.isLeaf .colon = true) :
    ∃ parts, Parts.read? components = some parts := by
  cases parts : Parts.read? components with
  | some found => exact ⟨found, rfl⟩
  | none =>
      obtain ⟨c, member, isColon⟩ := colon
      rw [read?_eq_none.mp parts c member] at isColon
      cases isColon

theorem colon_or_noColon (components : List Component) :
    (∃ c ∈ components, c.isLeaf .colon = true) ∨ ∀ c ∈ components, c.isLeaf .colon = false := by
  cases colon : components.any (isLeaf .colon) with
  | true => exact .inl (List.any_eq_true.mp colon)
  | false => exact .inr fun c member => by simpa using List.any_eq_false.mp colon c member

/-- A component that is neither a colon nor what ends a statement. -/
def isPlain (component : Component) : Bool :=
  !component.isLeaf .colon && !component.endsStatement

theorem isPlain_iff : component.isPlain = true ↔
    component.isLeaf .colon = false ∧ component.endsStatement = false := by
  simp [isPlain]

/-- Whether a component starts a declaration or a rule, if it is no filler. -/
def startsStatement : Component → Bool
  | .leaf lexeme =>
      match lexeme.token with
      | .comment _ => false
      | .closing .curly => false
      | .atKeyword _ => false
      | _ => true
  | .block _ _ _ => true

/-- What a piece starts with. -/
theorem start_cases (component : Component) :
    (∃ lexeme text, component = .leaf lexeme ∧ lexeme.token = .comment text) ∨
      (∃ brace, component = .leaf brace ∧ brace.token = .closing .curly) ∨
      (∃ keyword name, component = .leaf keyword ∧ keyword.token = .atKeyword name) ∨
      component.startsStatement = true := by
  cases component with
  | block opener body closer => exact .inr (.inr (.inr rfl))
  | leaf lexeme =>
      cases own : lexeme.token with
      | comment text => exact .inl ⟨lexeme, text, rfl, own⟩
      | atKeyword name => exact .inr (.inr (.inl ⟨lexeme, name, rfl, own⟩))
      | closing bracket =>
          cases bracket with
          | curly => exact .inr (.inl ⟨lexeme, rfl, own⟩)
          | _ => simp [startsStatement, own]
      | _ => simp [startsStatement, own]

end Component

namespace Piece

/-! ## Reading a piece, end by end -/

section Equations

variable {component stop : Component} {rest params whole : List Component} {opener : Lexeme}

theorem read_comment {lexeme : Lexeme} {text : String} (token : lexeme.token = .comment text) :
    Piece.read (.leaf lexeme) rest = (.simple (.comment text) {} none, rest) := by
  obtain ⟨_, text, start⟩ := lexeme
  cases token
  rfl

theorem read_brace {brace : Lexeme} (token : brace.token = .closing .curly) :
    Piece.read (.leaf brace) rest = (.fault ⟨.strayBrace, brace.start⟩, rest) := by
  obtain ⟨_, text, start⟩ := brace
  cases token
  rfl

theorem read_atRule {keyword : Lexeme} {name : String} (token : keyword.token = .atKeyword name) :
    Piece.read (.leaf keyword) rest = Piece.atRule name rest := by
  obtain ⟨_, text, start⟩ := keyword
  cases token
  rfl

theorem read_statement (starts : component.startsStatement = true) :
    Piece.read component rest = Piece.statement component.start (component :: rest) := by
  unfold Piece.read
  split
  · cases starts
  · cases starts
  · cases starts
  · rfl

section AtRule

variable (name : String) (within : ∀ c ∈ params, c.endsStatement = false)

include within

theorem atRule_to_end :
    ∃ kind raws, atRule name params =
      (.simple kind raws (some false), (Trimmed.read params).trail) := by
  simp only [atRule, takeWhile_within within, dropWhile_within within]
  exact ⟨_, _, rfl⟩

theorem atRule_to_semicolon {semicolon : Lexeme} (ends : semicolon.token = .semicolon) :
    ∃ kind raws, ∀ other, atRule name (params ++ .leaf semicolon :: other) =
      (.simple kind raws (some true), other) := by
  have stops := endsStatement_of_endsValue (endsValue_leaf (.inl ends))
  simp only [atRule, takeWhile_upTo within stops, dropWhile_upTo within stops, if_pos ends]
  exact ⟨_, _, fun _ => rfl⟩

theorem atRule_to_brace {brace : Lexeme} (closes : brace.token = .closing .curly)
    (other : List Component) :
    atRule name (params ++ .leaf brace :: other) = (.fault ⟨.strayBrace, brace.stop⟩, other) := by
  have stops := endsStatement_of_endsValue (endsValue_leaf (.inr closes))
  have brace : ¬ brace.token = .semicolon := by simp [closes]
  simp only [atRule, dropWhile_upTo within stops, if_neg brace]

theorem atRule_to_block (opens : opener.token = .opening .curly) :
    ∃ kind raws, ∀ body closer other,
      atRule name (params ++ .block opener body closer :: other) =
        (.block kind raws body, other) := by
  have stops body closer : (Component.block opener body closer).endsStatement = true :=
    endsStatement_block opens
  simp only [atRule, takeWhile_upTo within (stops _ _), dropWhile_upTo within (stops _ _)]
  exact ⟨_, _, fun _ _ _ => rfl⟩

end AtRule

theorem statement_to_end (start : Location) (within : ∀ c ∈ whole, ending whole c = false) :
    Piece.statement start whole =
      match Parts.read? whole with
      | none => (.fault ⟨.unknownWord, start⟩, [])
      | some parts =>
          (.simple parts.kind { between := String.ofList parts.between } (some false),
            parts.trail) := by
  cases parts : Parts.read? whole <;>
    simp only [statement, takeWhile_within within, dropWhile_within within, parts]

section Statement

variable (start : Location) (within : ∀ c ∈ whole, ending (whole ++ stop :: rest) c = false)

include within

theorem statement_to_semicolon {semicolon : Lexeme} (isStop : stop = .leaf semicolon)
    (ends : semicolon.token = .semicolon) :
    ∃ kind raws, ∀ other, Piece.statement start (whole ++ stop :: other) =
      ((match Parts.read? whole with
        | none => .fault ⟨.unknownWord, start⟩
        | some _ => .simple kind raws (some true)), other) := by
  subst isStop
  have value := endsValue_leaf (.inl ends)
  have stops := endsStatement_of_endsValue value
  have same other : ending (whole ++ .leaf semicolon :: other) =
    ending (whole ++ .leaf semicolon :: rest) := ending_upTo stops stops
  simp only [statement, same, takeWhile_upTo within (ending_of_endsValue value),
    dropWhile_upTo within (ending_of_endsValue value), if_pos ends]
  cases Parts.read? whole with
  | none => exact ⟨.root, {}, fun _ => rfl⟩
  | some parts => exact ⟨_, _, fun _ => rfl⟩

theorem statement_to_brace {brace : Lexeme} (isStop : stop = .leaf brace)
    (closes : brace.token = .closing .curly) (other : List Component) :
    Piece.statement start (whole ++ stop :: other) =
      (.fault ⟨.strayBrace, brace.stop⟩, other) := by
  subst isStop
  have value := endsValue_leaf (.inr closes)
  have stops := endsStatement_of_endsValue value
  have same : ending (whole ++ .leaf brace :: other) =
    ending (whole ++ .leaf brace :: rest) := ending_upTo stops stops
  have notSemicolon : ¬ brace.token = .semicolon := by simp [closes]
  simp only [statement, same, dropWhile_upTo within (ending_of_endsValue value),
    if_neg notSemicolon]

theorem statement_to_block {body : List Component} {closer : Option Lexeme}
    (isStop : stop = .block opener body closer) (opens : opener.token = .opening .curly)
    (ends : ending (whole ++ stop :: rest) stop = true) :
    ∃ kind raws, ∀ body closer other,
      Piece.statement start (whole ++ .block opener body closer :: other) =
        (.block kind raws body, other) := by
  subst isStop
  have stops body closer : (Component.block opener body closer).endsStatement = true :=
    endsStatement_block opens
  have same body' closer' other : ending (whole ++ .block opener body' closer' :: other) =
    ending (whole ++ .block opener body closer :: rest) := ending_upTo (stops _ _) (stops _ _)
  have also body' closer' : ending (whole ++ .block opener body closer :: rest)
      (.block opener body' closer') = true := (ending_block ..).trans ends
  simp only [statement, same, takeWhile_upTo within (also _ _), dropWhile_upTo within (also _ _)]
  exact ⟨_, _, fun _ _ _ => rfl⟩

end Statement

end Equations

/-! ## Pieces that fail -/

/-- The components of a piece that fails, the fault, and whether they have all that ends
the piece.  If not, the end of the body that it stands in ends it. -/
inductive Wrong : List Component → ParseError → Bool → Prop where
  /-- A statement without a colon or a block that the end of its body ends. -/
  | last {first : Component} {rest : List Component} (starts : first.startsStatement = true)
      (solid : first.isFiller = false) (plain : ∀ c ∈ first :: rest, c.isPlain = true) :
      Wrong (first :: rest) ⟨.unknownWord, first.start⟩ false
  /-- A statement without a colon or a block that a semicolon ends. -/
  | ended {first : Component} {rest : List Component} {semicolon : Lexeme}
      (starts : first.startsStatement = true) (solid : first.isFiller = false)
      (plain : ∀ c ∈ first :: rest, c.isPlain = true) (ends : semicolon.token = .semicolon) :
      Wrong (first :: (rest ++ [.leaf semicolon])) ⟨.unknownWord, first.start⟩ true
  /-- A closing bracket where a piece would start. -/
  | stray {brace : Lexeme} (closes : brace.token = .closing .curly) :
      Wrong [.leaf brace] ⟨.strayBrace, brace.start⟩ true
  /-- A closing bracket in an at-rule. -/
  | strayInAtRule {keyword brace : Lexeme} {name : String} {params : List Component}
      (token : keyword.token = .atKeyword name)
      (within : ∀ c ∈ params, c.endsStatement = false)
      (closes : brace.token = .closing .curly) :
      Wrong (.leaf keyword :: (params ++ [.leaf brace])) ⟨.strayBrace, brace.stop⟩ true
  /-- A closing bracket in another statement. -/
  | strayInStatement {first : Component} {rest : List Component} {brace : Lexeme}
      (starts : first.startsStatement = true) (solid : first.isFiller = false)
      (within : ∀ c ∈ first :: rest, ending (first :: (rest ++ [.leaf brace])) c = false)
      (closes : brace.token = .closing .curly) :
      Wrong (first :: (rest ++ [.leaf brace])) ⟨.strayBrace, brace.stop⟩ true

section Wrong

variable {whole statement : List Component} {error : ParseError} {ended : Bool}

/-- Plain components are no declaration, and nothing in them ends a statement. -/
theorem of_plain (plain : ∀ c ∈ whole, c.isPlain = true) :
    Parts.read? whole = none ∧ (∀ c ∈ whole, c.isLeaf .colon = false) ∧
      ∀ c ∈ whole, c.endsStatement = false := by
  have noColon : ∀ c ∈ whole, c.isLeaf .colon = false := fun c member =>
    (isPlain_iff.mp (plain c member)).1
  exact ⟨read?_eq_none.mpr noColon, noColon, fun c member => (isPlain_iff.mp (plain c member)).2⟩

/-- A piece that fails is read as its fault, whatever follows. -/
theorem Wrong.read (wrong : Wrong statement error ended) :
    ∃ first more, statement = first :: more ∧ first.isFiller = false ∧
      ∀ next, (ended = true ∨ next = []) →
        Piece.read first (more ++ next) = (.fault error, next) := by
  cases wrong with
  | @last first rest starts solid plain =>
      refine ⟨first, rest, rfl, solid, fun next none_ => ?_⟩
      obtain ⟨parts, noColon, goesOn⟩ := of_plain plain
      have within : ∀ c ∈ first :: rest, ending (first :: rest) c = false := by
        rwa [ending_of_noColon noColon]
      rw [none_.resolve_left nofun, List.append_nil, read_statement starts,
        statement_to_end _ within, parts]
  | @ended first rest semicolon starts solid plain ends =>
      refine ⟨first, rest ++ [.leaf semicolon], rfl, solid, fun next _ => ?_⟩
      obtain ⟨parts, noColon, goesOn⟩ := of_plain plain
      have stops := endsStatement_of_endsValue (endsValue_leaf (.inl ends))
      have within : ∀ c ∈ first :: rest,
          ending (first :: rest ++ .leaf semicolon :: next) c = false := by
        rwa [ending_upTo_of_noColon noColon stops]
      obtain ⟨kind, raws, alike⟩ := statement_to_semicolon first.start within rfl ends
      rw [read_statement starts, List.append_assoc, List.singleton_append, ← List.cons_append,
        alike, parts]
  | @stray brace closes =>
      exact ⟨_, [], rfl, isFiller_leaf closes nofun nofun, fun next _ => read_brace closes⟩
  | @strayInAtRule keyword brace name params token within closes =>
      refine ⟨.leaf keyword, _, rfl, isFiller_keyword token, fun next _ => ?_⟩
      rw [read_atRule token, List.append_assoc, List.singleton_append,
        atRule_to_brace _ within closes]
  | @strayInStatement first rest brace starts solid within closes =>
      refine ⟨first, _, rfl, solid, fun next _ => ?_⟩
      rw [read_statement starts, List.append_assoc, List.singleton_append, ← List.cons_append]
      exact statement_to_brace _ within rfl closes next

/-- A statement that is ended where it fails ends with a semicolon or a closing bracket. -/
theorem Wrong.ends_leaf (wrong : Wrong statement error true) :
    ∃ front last, statement = front ++ [.leaf last] ∧
      (last.token = .semicolon ∨ last.token = .closing .curly) ∧
      (error.fault = .strayBrace → last.token = .closing .curly) := by
  generalize flag : true = ended at wrong
  cases wrong with
  | last => cases flag
  | @ended first rest semicolon _ _ _ ends =>
      exact ⟨first :: rest, semicolon, rfl, .inl ends, nofun⟩
  | @stray brace closes => exact ⟨[], brace, rfl, .inr closes, fun _ => closes⟩
  | @strayInAtRule keyword brace _ params _ _ closes =>
      exact ⟨.leaf keyword :: params, brace, rfl, .inr closes, fun _ => closes⟩
  | @strayInStatement first rest brace _ _ _ closes =>
      exact ⟨first :: rest, brace, rfl, .inr closes, fun _ => closes⟩

/-- A statement that the end of its body ends has no closing bracket. -/
theorem Wrong.unknownWord (wrong : Wrong statement error false) :
    error.fault = .unknownWord := by
  generalize flag : false = ended at wrong
  cases wrong <;> first | rfl | cases flag

end Wrong

/-! ## Pieces that can be read -/

/-- The components of a comment, or of a statement without a block, with all that ends it. -/
inductive Complete : List Component → Prop where
  | comment {lexeme : Lexeme} {text : String} (token : lexeme.token = .comment text) :
      Complete [.leaf lexeme]
  | atRule {keyword semicolon : Lexeme} {name : String} {params : List Component}
      (token : keyword.token = .atKeyword name)
      (within : ∀ c ∈ params, c.endsStatement = false) (ends : semicolon.token = .semicolon) :
      Complete (.leaf keyword :: (params ++ [.leaf semicolon]))
  | declaration {first : Component} {rest : List Component} {semicolon : Lexeme}
      (starts : first.startsStatement = true) (solid : first.isFiller = false)
      (within : ∀ c ∈ first :: rest, ending (first :: (rest ++ [.leaf semicolon])) c = false)
      (colon : ∃ c ∈ first :: rest, c.isLeaf .colon = true)
      (ends : semicolon.token = .semicolon) : Complete (first :: (rest ++ [.leaf semicolon]))

/-- The components of a statement without a block that the end of its body ends. -/
inductive Last : List Component → Prop where
  | atRule {keyword : Lexeme} {name : String} {params : List Component}
      (token : keyword.token = .atKeyword name)
      (within : ∀ c ∈ params, c.endsStatement = false) : Last (.leaf keyword :: params)
  | declaration {first : Component} {rest : List Component}
      (starts : first.startsStatement = true) (solid : first.isFiller = false)
      (within : ∀ c ∈ first :: rest, ending (first :: rest) c = false)
      (colon : ∃ c ∈ first :: rest, c.isLeaf .colon = true) : Last (first :: rest)

/-- The components of an at-rule or a rule before its block, the lexeme that opens the block,
and where the at-rule or rule starts. -/
inductive Opens : List Component → Lexeme → Location → Prop where
  | atRule {keyword opener : Lexeme} {name : String} {params : List Component}
      (token : keyword.token = .atKeyword name)
      (within : ∀ c ∈ params, c.endsStatement = false)
      (curly : opener.token = .opening .curly) :
      Opens (.leaf keyword :: params) opener keyword.start
  /-- A rule may have no selector. -/
  | bare {opener : Lexeme} (curly : opener.token = .opening .curly) : Opens [] opener opener.start
  | rule {first : Component} {rest : List Component} {opener : Lexeme}
      (starts : first.startsStatement = true) (solid : first.isFiller = false)
      (within : ∀ c ∈ first :: rest, ending (first :: (rest ++ [.block opener [] none])) c = false)
      (ends : ending (first :: (rest ++ [.block opener [] none])) (.block opener [] none) = true)
      (curly : opener.token = .opening .curly) : Opens (first :: rest) opener first.start

section Read

variable {components head : List Component} {opener : Lexeme} {start : Location}

/-- A complete piece is read alike whatever follows. -/
theorem Complete.read (complete : Complete components) :
    ∃ first more kind raws ended, components = first :: more ∧ first.isFiller = false ∧
      ∀ other, Piece.read first (more ++ other) = (.simple kind raws ended, other) := by
  cases complete with
  | @comment lexeme text token =>
      exact ⟨_, [], .comment text, {}, none, rfl, isFiller_leaf token nofun nofun,
        fun other => read_comment token⟩
  | @atRule keyword semicolon name params token within ends =>
      obtain ⟨kind, raws, alike⟩ := atRule_to_semicolon name within ends
      refine ⟨_, _, kind, raws, some true, rfl, isFiller_keyword token, fun other => ?_⟩
      rw [read_atRule token, List.append_assoc, List.singleton_append, alike]
  | @declaration first rest semicolon starts solid within colon ends =>
      obtain ⟨parts, found⟩ := exists_parts colon
      obtain ⟨kind, raws, alike⟩ := statement_to_semicolon first.start within rfl ends
      refine ⟨_, _, kind, raws, some true, rfl, solid, fun other => ?_⟩
      rw [read_statement starts, List.append_assoc, List.singleton_append, ← List.cons_append,
        alike, found]

/-- The last piece of a body leaves nothing but blanks. -/
theorem Last.read (last : Last components) :
    ∃ first more kind raws ended next, components = first :: more ∧ first.isFiller = false ∧
      Piece.read first more = (.simple kind raws ended, next) ∧ ∀ c ∈ next, c.isBlank = true := by
  cases last with
  | @atRule keyword name params token within =>
      obtain ⟨kind, raws, eq⟩ := atRule_to_end name within
      exact ⟨_, _, kind, raws, _, _, rfl, isFiller_keyword token,
        (read_atRule token).trans eq, fun c => Trimmed.isBlank_of_mem_trail⟩
  | @declaration first rest starts solid within colon =>
      obtain ⟨parts, found⟩ := exists_parts colon
      refine ⟨_, _, parts.kind, { between := String.ofList parts.between }, some false,
        parts.trail, rfl, solid, ?_, fun c => Parts.isBlank_of_mem_trail found⟩
      rw [read_statement starts, statement_to_end _ within, found]

theorem Opens.curly (opens : Opens head opener start) : opener.token = .opening .curly := by
  cases opens <;> assumption

/-- What has a block is read alike whatever is in the block and whatever follows it. -/
theorem Opens.read (opens : Opens head opener start) :
    ∃ kind raws, ∀ body closer other, ∃ first more,
      head ++ .block opener body closer :: other = first :: more ∧ first.isFiller = false ∧
        first.start = start ∧ Piece.read first more = (.block kind raws body, other) := by
  cases opens with
  | @atRule keyword _ name params token within curly =>
      obtain ⟨kind, raws, alike⟩ := atRule_to_block name within curly
      refine ⟨kind, raws, fun body closer other => ?_⟩
      exact ⟨.leaf keyword, _, rfl, isFiller_keyword token, rfl,
        (read_atRule token).trans (alike ..)⟩
  | bare curly =>
      have stops : (Component.block opener [] none).endsStatement = true :=
        endsStatement_block curly
      have plain : ending ([] ++ .block opener [] none :: []) = endsStatement :=
        ending_upTo_of_noColon nofun stops
      obtain ⟨kind, raws, alike⟩ := statement_to_block opener.start
        (nofun : ∀ c ∈ [], ending ([] ++ .block opener [] none :: []) c = false) rfl curly
        (plain ▸ stops)
      refine ⟨kind, raws, fun body closer other => ?_⟩
      exact ⟨_, _, rfl, rfl, rfl, (read_statement rfl).trans (alike ..)⟩
  | @rule first rest _ starts solid within ends curly =>
      obtain ⟨kind, raws, alike⟩ := statement_to_block first.start within rfl curly ends
      refine ⟨kind, raws, fun body closer other => ?_⟩
      exact ⟨first, _, rfl, solid, rfl, (read_statement starts).trans (alike ..)⟩

end Read

/-! ## What stands at the front -/

/-- What stands at the front of components: a piece that can be read, as far as the
components before a block are concerned, or one that fails. -/
inductive Front : List Component → Prop where
  | complete {own next : List Component} (complete : Complete own) : Front (own ++ next)
  | last {own : List Component} (last : Last own) : Front own
  | block {head body next : List Component} {opener : Lexeme} {closer : Option Lexeme}
      {start : Location} (opens : Opens head opener start) :
      Front (head ++ .block opener body closer :: next)
  | wrong {statement next : List Component} {error : ParseError} {ended : Bool}
      (wrong : Wrong statement error ended) (ends : ended = true ∨ next = []) :
      Front (statement ++ next)

section Front

variable {first : Component} (rest : List Component)

theorem front_atRule {keyword : Lexeme} {name : String}
    (token : keyword.token = .atKeyword name) : Front (.leaf keyword :: rest) := by
  rcases exists_upTo endsStatement rest with within | ⟨params, stop, next, rfl, within, stops⟩
  · exact .last (.atRule token within)
  rcases stop_cases stops with ⟨semicolon, rfl, ends⟩ | ⟨brace, rfl, closes⟩ |
    ⟨opener, body, closer, rfl, curly⟩
  · have front : Front (.leaf keyword :: (params ++ [.leaf semicolon]) ++ next) :=
      .complete (.atRule token within ends)
    simpa using front
  · have front : Front (.leaf keyword :: (params ++ [.leaf brace]) ++ next) :=
      .wrong (.strayInAtRule token within closes) (.inl rfl)
    simpa using front
  · exact .block (.atRule token within curly)

theorem front_statement (starts : first.startsStatement = true) (solid : first.isFiller = false) :
    Front (first :: rest) := by
  rcases exists_upTo (ending (first :: rest)) (first :: rest) with
    within | ⟨whole, stop, next, split, within, stops⟩
  · rcases colon_or_noColon (first :: rest) with colon | noColon
    · exact .last (.declaration starts solid within colon)
    · rw [ending_of_noColon noColon] at within
      have front : Front (first :: rest ++ []) := .wrong (.last starts solid fun c member =>
        isPlain_iff.mpr ⟨noColon c member, within c member⟩) (.inr rfl)
      simpa using front
  have isStop := endsStatement_of_ending stops
  rw [split] at within stops ⊢
  cases whole with
  | nil =>
      -- Of all that ends a statement, only a block starts one.
      obtain ⟨rfl, rfl⟩ := List.cons.inj split
      rcases stop_cases isStop with ⟨semicolon, rfl, ends⟩ | ⟨brace, rfl, closes⟩ |
        ⟨opener, body, closer, rfl, curly⟩
      · simp [isFiller, isLeaf, ends] at solid
      · simp [startsStatement, closes] at starts
      · exact .block (.bare curly)
  | cons c more =>
      rw [List.cons_append] at split
      obtain ⟨rfl, rfl⟩ := List.cons.inj split
      rcases stop_cases isStop with ⟨semicolon, rfl, ends⟩ | ⟨brace, rfl, closes⟩ |
        ⟨opener, body, closer, rfl, curly⟩
      · rw [ending_upTo isStop isStop] at within
        have front : Front (first :: (more ++ [.leaf semicolon]) ++ next) := by
          rcases colon_or_noColon (first :: more) with colon | noColon
          · exact .complete (.declaration starts solid within colon ends)
          · rw [ending_upTo_of_noColon noColon isStop] at within
            exact .wrong (.ended starts solid (fun c member =>
              isPlain_iff.mpr ⟨noColon c member, within c member⟩) ends) (.inl rfl)
        simpa using front
      · rw [ending_upTo isStop isStop] at within
        have front : Front (first :: (more ++ [.leaf brace]) ++ next) :=
          .wrong (.strayInStatement starts solid within closes) (.inl rfl)
        simpa using front
      · rw [ending_upTo isStop (endsStatement_block curly)] at within stops
        exact .block (.rule starts solid within ((ending_block ..).trans stops) curly)

/-- **What is no filler** starts a piece. -/
theorem front_of_solid (solid : first.isFiller = false) : Front (first :: rest) := by
  rcases start_cases first with ⟨lexeme, text, rfl, token⟩ | ⟨brace, rfl, token⟩ |
    ⟨keyword, name, rfl, token⟩ | starts
  · exact .complete (.comment token)
  · exact .wrong (.stray token) (.inl rfl)
  · exact front_atRule rest token
  · exact front_statement rest starts solid

end Front

end Piece

end ApplyRule
