/-
# ApplyRule.Proofs.Sheet -- later definitions override

A stylesheet begins with a scope that holds definitions, written one after the other with
or without semicolons, and nothing after the scope defines a set (`Sheet`).  Its text is
read as a document with that scope at its front (`Sheet.exists_parse`).

After the definitions are found, exactly the names that are defined have a set, and which
definition of a name it is depends on the separators (`extract_overrides`): it is the last
rule, or else the last declaration, unless the last rule is one of several and in the value
of a declaration.  Then an earlier rule stays
(`extract_overrides_not_swallowed`).
-/
import ApplyRule.Proofs.Override
import ApplyRule.Proofs.Written

namespace ApplyRule

set_option autoImplicit false

open Text Scan Component

/-- A stylesheet that begins with a scope in which sets are defined, one after the other. -/
structure Sheet where
  /-- The blanks before the scope, and those before its block. -/
  lead : List Char
  gap : List Char
  written : List Written
  /-- The blanks after the last definition. -/
  trail : List Char
  /-- What follows the scope. -/
  rest : List Char
  items : Forest Item
  blank : ∀ c ∈ lead ++ gap ++ trail, isBlank c = true
  reads : itemsOf? rest = some items
  /-- No set is defined there. -/
  quiet : items.quiet .root = true

namespace Sheet

def inside (sheet : Sheet) : List Char :=
  sheet.written.flatMap Written.text ++ sheet.trail

def css (sheet : Sheet) : String :=
  String.ofList (sheet.lead ++ rootSelector.toList ++ sheet.gap ++
    '{' :: (sheet.inside ++ '}' :: sheet.rest))

/-- The definitions of the stylesheet, in the order they are written in. -/
def definitions (sheet : Sheet) : List Definition :=
  Written.definitions false sheet.written

/-! ## Components -/

def components (sheet : Sheet) : List Component :=
  sheet.written.flatMap Written.components ++ blanks sheet.trail

/-- The selector of the scope as components. -/
def selector : List Component :=
  [mark ':', word ['r', 'o', 'o', 't']]

variable (sheet : Sheet)

theorem blank_lead : ∀ c ∈ sheet.lead, isBlank c = true := fun c member =>
  sheet.blank c (by simp [member])

theorem blank_gap : ∀ c ∈ sheet.gap, isBlank c = true := fun c member =>
  sheet.blank c (by simp [member])

theorem blank_trail : ∀ c ∈ sheet.trail, isBlank c = true := fun c member =>
  sheet.blank c (by simp [member])

theorem inFront_selector {more : List Char} (ends : ∀ c ∈ more.head?, endsWord c = true) :
    InFront selector rootSelector.toList more := by
  have read : Lexeme.plain (['r', 'o', 'o', 't'] ++ more) =
      [.ofWord ['r', 'o', 'o', 't']] ++ Lexeme.plain more :=
    Lexeme.plain_word (List.all_eq_true.mp (by decide)) rfl rfl rfl ends
  have root : InFront [word ['r', 'o', 'o', 't']] ['r', 'o', 'o', 't'] more :=
    inFront_leaves read (by simp [Lexeme.ofWord, Token.opens?, Token.closes?])
  exact (inFront_mark (by decide)).append root

/-- The stylesheet as components. -/
theorem plain_css : Component.plain sheet.css.toList =
    blanks sheet.lead ++ (selector ++ (blanks sheet.gap ++ enclosed sheet.components ::
      Component.plain sheet.rest)) := by
  have inside : InFront sheet.components sheet.inside ('}' :: sheet.rest) :=
    (Written.inFront_flatMap _ _).append (inFront_blanks sheet.blank_trail (by simp; decide))
  have block := inFront_enclosed inside
  have gap : InFront (blanks sheet.gap ++ [enclosed sheet.components]) _ sheet.rest :=
    (inFront_blanks sheet.blank_gap (by simp; decide)).append block
  have ends : ∀ c ∈ (sheet.gap ++ '{' :: (sheet.inside ++ ['}']) ++ sheet.rest).head?,
      endsWord c = true := by
    intro c isHead
    cases shape : sheet.gap with
    | nil =>
        obtain rfl : '{' = c := by simpa [shape] using isHead
        rfl
    | cons d others =>
        obtain rfl : d = c := by simpa [shape] using isHead
        exact Written.endsWord_of_isBlank (sheet.blank_gap d (by simp [shape]))
  have lead := (inFront_blanks sheet.blank_lead (by simp [rootSelector]; decide)).append
    ((inFront_selector ends).append gap)
  have whole := lead.plain_append
  simpa [css] using whole

end Sheet

/-! ## Outcomes -/

/-- Fillers in front do not matter to what is defined. -/
theorem Body.outcome_of_fillers {semicolon : Bool} {fillers rest : List Component} {body : Body}
    (all : ∀ c ∈ fillers, c.isFiller = true)
    (read : Body.outcome semicolon (fillers ++ rest) = some body) :
    ∃ later, Body.outcome semicolon rest = some later ∧
      ∀ parent, later.items.quiet parent = body.items.quiet parent := by
  have same : (fillers ++ rest).dropWhile isFiller = rest.dropWhile isFiller :=
    List.dropWhile_append_of_pos all
  cases filled : rest.dropWhile isFiller with
  | nil =>
      rw [outcome_done (same.trans filled)] at read
      cases read
      exact ⟨_, outcome_done filled, fun _ => rfl⟩
  | cons component tail =>
      cases found : (Piece.read component tail).1 with
      | fault error =>
          rw [outcome_fault (same.trans filled) found] at read
          cases read
      | simple kind raws ended =>
          rw [outcome_simple (same.trans filled) found] at read
          obtain ⟨more, after, rfl⟩ := Option.map_eq_some_iff.mp read
          rw [outcome_simple filled found, after]
          exact ⟨_, rfl, fun _ => rfl⟩
      | block kind raws inner =>
          rw [outcome_block (same.trans filled) found] at read
          obtain ⟨body, inside, read⟩ := Option.bind_eq_some_iff.mp read
          obtain ⟨more, after, rfl⟩ := Option.map_eq_some_iff.mp read
          rw [outcome_block filled found, inside, Option.bind_some, after]
          exact ⟨_, rfl, fun _ => rfl⟩

namespace Sheet

variable (sheet : Sheet)

/-- The scope is a rule. -/
theorem read_selector (rest : List Component) :
    Piece.read (mark ':') (word ['r', 'o', 'o', 't'] ::
        (blanks sheet.gap ++ enclosed sheet.components :: rest)) =
      (.block (.rule rootSelector) { between := String.ofList sheet.gap } sheet.components,
        rest) := by
  have goesOn : ∀ c ∈ selector, c.endsStatement = false := by decide
  exact Piece.statement_block sheet.blank_gap rfl goesOn (.inl rfl) rest

/-- What the scope is read as, and what follows it. -/
theorem exists_outcome : ∃ body scope children rest,
    Body.outcome false (Component.plain sheet.css.toList) = some body ∧
      body.items = .cons scope children rest ∧ scope.kind = .rule rootSelector ∧
      Defines false children sheet.definitions ∧ rest.quiet .root = true := by
  obtain ⟨inside, readInside, defines⟩ : ∃ inside,
      Body.outcome false sheet.components = some inside ∧
        Defines false inside.items sheet.definitions :=
    Written.exists_outcome sheet.blank_trail (by simp) false
  obtain ⟨following, readRest, items⟩ := outcome_of_itemsOf? sheet.reads
  obtain ⟨skipped, split, fillers, -⟩ :=
    ownSemicolon_append (.rule rootSelector) (Component.plain sheet.rest)
  rw [split] at readRest
  obtain ⟨later, readLater, same⟩ := Body.outcome_of_fillers fillers readRest
  have filled : (Component.plain sheet.css.toList).dropWhile isFiller =
      mark ':' :: (word ['r', 'o', 'o', 't'] :: (blanks sheet.gap ++ enclosed sheet.components ::
        Component.plain sheet.rest)) := by
    have lead : ∀ c ∈ blanks sheet.lead, isFiller c = true := fun c member => by
      simp [isFiller, isBlank_of_mem_blanks sheet.blank_lead member]
    rw [plain_css, List.dropWhile_append_of_pos lead]
    rfl
  have piece := sheet.read_selector (Component.plain sheet.rest)
  have whole : Body.outcome false (Component.plain sheet.css.toList) = _ :=
    Body.outcome_block filled (congrArg Prod.fst piece)
  rw [readInside, piece, Option.bind_some, readLater] at whole
  exact ⟨_, _, _, _, whole, rfl, rfl, defines, by rw [same, items, sheet.quiet]⟩

/-- The document is a scope and what follows it. -/
theorem exists_parse : ∃ document scope children rest,
    Document.parse sheet.css = .ok document ∧ document.items = .cons scope children rest ∧
      scope.kind = .rule rootSelector ∧ Defines false children sheet.definitions ∧
      rest.quiet .root = true := by
  obtain ⟨bare, scope, children, rest, read, shape, isScope, defines, quiet⟩ := sheet.exists_outcome
  have plain := Body.outcome_plain sheet.css
  rw [read] at plain
  cases parsed : Body.parse sheet.css with
  | error error => rw [parsed] at plain; cases plain
  | ok body =>
      rw [parsed] at plain
      obtain rfl := Option.some.inj plain
      have items : (Document.ofBody body).items = body.items := by
        simp [Document.items, find?_root_ofBody]
      have document : Document.parse sheet.css = .ok (Document.ofBody body) := by
        rw [Document.parse, parsed]
        rfl
      cases own : body.items with
      | nil => rw [Body.unplaced, own] at shape; cases shape
      | cons item inner others =>
          rw [Body.unplaced, own] at shape
          cases shape
          refine ⟨_, item, inner, others, document, items.trans own, isScope,
            defines.of_unplaced, ?_⟩
          rwa [Forest.quiet_stamp] at quiet

end Sheet

/-- **Later definitions override.**  A stylesheet whose first rule holds definitions can be
read, and the definitions in it are found: exactly their names have a set.  The set of a
name is the definition that counts.  That is the last rule, or else the last declaration,
if there is at most one rule of the name or the last one is not in the value of a
declaration. -/
theorem extract_overrides (sheet : Sheet) (options : Options) :
    ∃ document after, Document.parse sheet.css = .ok document ∧
      Step.extract { document, options } = .ok () after ∧
      (∀ name, name ∈ after.registry.names ↔ name ∈ sheet.written.map Written.name) ∧
      ∀ name,
        after.body? name = (Definition.counting name sheet.definitions).map Definition.body ∧
        ((Definition.ofName .rule name sheet.definitions).length ≤ 1 ∨
            (∀ last, (Definition.ofName .rule name sheet.definitions).getLast? = some last →
              last.swallowed = false) →
          after.body? name =
            (Definition.overriding name sheet.definitions).map Definition.body) := by
  obtain ⟨document, scope, children, rest, parsed, items, isScope, defines, quiet⟩ :=
    sheet.exists_parse
  obtain ⟨after, ran, names, bodies⟩ :=
    Step.extract_defines options parsed items isScope defines quiet
  refine ⟨document, after, parsed, ran, fun name => ?_, bodies⟩
  rw [names, Sheet.definitions, Written.map_name_definitions]

/-- One declaration. -/
def Forest.assignment (property value : String) : Forest Item :=
  .cons ⟨.declaration property value, { between := ":" }, none⟩ .nil .nil

namespace Written

/-- A definition without blanks or a semicolon. -/
def tight (name : String) (hasColon : Bool) (inside : String) (items : Forest Item)
    (named : setName? (writtenName name) = some name) (fits : FitsBlock inside.toList)
    (reads : itemsOf? inside.toList = some items)
    (quiet : items.quiet (.rule (writtenName name)) = true) : Written where
  lead := []
  name := name
  gap := []
  colon := if hasColon then some [] else none
  inside := inside.toList
  items := items
  stop := none
  blank := by cases hasColon <;> simp
  named := named
  fits := fits
  reads := reads
  quiet := fun _ => quiet

/-- `--a{x:1}` -/
def firstRule : Written :=
  tight "a" false "x:1" (.assignment "x" "1") (by decide) (by decide +kernel) (by decide +kernel)
    rfl

/-- `--b:{y:2}` -/
def declaration : Written :=
  tight "b" true "y:2" (.assignment "y" "2") (by decide) (by decide +kernel) (by decide +kernel) rfl

/-- `--a{z:3}` -/
def lastRule : Written :=
  tight "a" false "z:3" (.assignment "z" "3") (by decide) (by decide +kernel) (by decide +kernel)
    rfl

end Written

namespace Sheet

/-- The first rule is swallowed, and the last one is not:
`:root{--b:{y:2}--a{x:1};--a{z:3}}`. -/
def directLast : Sheet where
  lead := []
  gap := []
  written := [.declaration, { Written.firstRule with stop := some [], blank := nofun }, .lastRule]
  trail := []
  rest := []
  items := .nil
  blank := nofun
  reads := by decide +kernel
  quiet := rfl

/-- The last rule is swallowed, and the first one is not:
`:root{--a{x:1}--b:{y:2}--a{z:3}}.t{@apply --a;}`. -/
def swallowedLast : Sheet where
  lead := []
  gap := []
  written := [.firstRule, .declaration, .lastRule]
  trail := []
  rest := ".t\x7b@apply --a;\x7d".toList
  items := .cons ⟨.rule ".t", { semicolon := true }, none⟩
    (.cons ⟨.atRule "apply" "--a" false, { afterName := " " }, none⟩ .nil .nil) .nil
  blank := nofun
  reads := by decide +kernel
  quiet := rfl

end Sheet

/-- The pole of `extract_overrides`: of two rules in and after the value of a declaration
the last one counts. -/
theorem extract_overrides_directLast :
    ∃ document after,
      Document.parse ":root\x7b--b:\x7by:2\x7d--a\x7bx:1\x7d;--a\x7bz:3\x7d\x7d" = .ok document ∧
      Step.extract { document, options := {} } = .ok () after ∧
      after.body? "a" = some (.assignment "z" "3") := by
  obtain ⟨document, after, parsed, ran, -, bodies⟩ := extract_overrides .directLast {}
  refine ⟨document, after, parsed, ran, ((bodies "a").2 (.inr ?_)).trans (by decide +kernel)⟩
  decide +kernel

/-- A rule that is swallowed does not override the one before it, though it is the last of
its name. -/
theorem extract_overrides_not_swallowed :
    Sheet.swallowedLast.css =
        ":root\x7b--a\x7bx:1\x7d--b:\x7by:2\x7d--a\x7bz:3\x7d\x7d.t\x7b@apply --a;\x7d" ∧
      ∃ document after, Document.parse Sheet.swallowedLast.css = .ok document ∧
        Step.extract { document, options := {} } = .ok () after ∧
        (Definition.overriding "a" Sheet.swallowedLast.definitions).map Definition.body =
          some (.assignment "z" "3") ∧
        after.body? "a" = some (.assignment "x" "1") := by
  obtain ⟨document, after, parsed, ran, body⟩ := Step.exists_ran Step.extract
    Sheet.swallowedLast.css {}
    (fun after => decide (after.body? "a" = some (.assignment "x" "1"))) (by decide +kernel)
  exact ⟨by decide +kernel, document, after, parsed, ran, by decide +kernel,
    of_decide_eq_true body⟩

end ApplyRule
