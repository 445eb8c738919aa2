/-
# ApplyRule.Proofs.Written -- definitions as they are written

A definition is written as a rule or as a declaration, with a semicolon after it or
without (`Written`).  It is read in the same way whatever follows it
(`Written.inFront`), with one exception: a declaration without a semicolon runs on to the
next semicolon, and all in between is in its value.

`Written.definitions` says which definitions a sequence of them holds, and which of these
are in a value.  That is what the sequence is read as (`Written.exists_outcome`).
-/
import ApplyRule.Proofs.SetStatement

namespace ApplyRule

set_option autoImplicit false

open Text Scan Component

/-- The items of a text, without their places, if it can be read. -/
def itemsOf? (text : List Char) : Option (Forest Item) :=
  (Body.parse (String.ofList text)).toOption.map (·.items.unplaced)

theorem exists_body {text : List Char} {items : Forest Item} (reads : itemsOf? text = some items) :
    ∃ body, Body.parse (String.ofList text) = .ok body ∧ body.items.unplaced = items := by
  obtain ⟨body, found, same⟩ := Option.map_eq_some_iff.mp reads
  cases parsed : Body.parse (String.ofList text) with
  | error error => rw [parsed] at found; cases found
  | ok own =>
      rw [parsed] at found
      cases found
      exact ⟨_, rfl, same⟩

/-- A text that can be read, as its components are read. -/
theorem outcome_of_itemsOf? {text : List Char} {items : Forest Item}
    (reads : itemsOf? text = some items) :
    ∃ body, Body.outcome false (Component.plain text) = some body ∧ body.items = items := by
  obtain ⟨body, parsed, rfl⟩ := exists_body reads
  have plain := Body.outcome_plain (String.ofList text)
  rw [String.toList_ofList, parsed] at plain
  exact ⟨_, plain, rfl⟩

/-- Where items stand does not matter to what they define. -/
theorem Defines.of_unplaced {swallowed : Bool} {items : Forest Item} {list : List Definition}
    (defines : Defines swallowed items.unplaced list) : Defines swallowed items list := by
  generalize same : items.unplaced = others at defines
  induction defines generalizing items with
  | nil =>
      cases items with
      | nil => exact .nil
      | cons item children rest => cases same
  | rule isRule named quiet _ ih =>
      cases items with
      | nil => cases same
      | cons item children rest =>
          cases same
          rename_i later
          have bare : (children.map (·.stamp none)).unplaced = children.unplaced :=
            Forest.unplaced_stamp children none
          rw [bare]
          exact .rule isRule named (by rwa [Forest.quiet_stamp] at quiet) (ih rfl)
  | declaration isDefinition cut parsed trails inValue runsOn _ _ ih =>
      cases items with
      | nil => cases same
      | cons item children rest =>
          cases children with
          | cons child below others => cases same
          | nil =>
              cases same
              refine .declaration isDefinition cut parsed trails inValue (fun isIn => ?_) (ih rfl)
              cases rest with
              | nil => rfl
              | cons item children rest => cases runsOn isIn

/-! ## Texts -/

/-- A definition as it is written: `--name { … }` or `--name: { … }`, with a semicolon
after it or without. -/
structure Written where
  /-- The blanks before the name. -/
  lead : List Char
  name : String
  /-- The blanks after the name. -/
  gap : List Char
  /-- The blanks after the colon of a declaration.  A rule has no colon. -/
  colon : Option (List Char)
  /-- The text in the block. -/
  inside : List Char
  items : Forest Item
  /-- The blanks before the semicolon, where there is one. -/
  stop : Option (List Char)
  blank : ∀ c ∈ lead ++ gap ++ colon.getD [] ++ stop.getD [], isBlank c = true
  named : setName? (writtenName name) = some name
  fits : FitsBlock inside
  reads : itemsOf? inside = some items
  /-- No set is defined in the block of a rule. -/
  quiet : colon = none → items.quiet (.rule (writtenName name)) = true

namespace Written

def form (written : Written) : Form :=
  if written.colon.isSome then .declaration else .rule

/-- The definition without a semicolon. -/
def unstopped (written : Written) : Written :=
  { written with
    stop := none
    blank := fun c member => written.blank c (by
      rw [Option.getD_none, List.append_nil] at member
      exact List.mem_append_left _ member) }

section Unstopped

variable (written : Written)

@[simp] theorem name_unstopped : written.unstopped.name = written.name := rfl

@[simp] theorem colon_unstopped : written.unstopped.colon = written.colon := rfl

@[simp] theorem items_unstopped : written.unstopped.items = written.items := rfl

@[simp] theorem stop_unstopped : written.unstopped.stop = none := rfl

@[simp] theorem form_unstopped : written.unstopped.form = written.form := rfl

end Unstopped

def colonText (written : Written) : List Char :=
  (written.colon.map (':' :: ·)).getD []

def stopText (written : Written) : List Char :=
  (written.stop.map (· ++ [';'])).getD []

def text (written : Written) : List Char :=
  written.lead ++ (writtenName written.name).toList ++ written.gap ++ written.colonText ++
    '{' :: (written.inside ++ '}' :: written.stopText)

/-! ## Components -/

def colonPart (written : Written) : List Component :=
  (written.colon.map fun text => mark ':' :: blanks text).getD []

def block (written : Written) : Component :=
  enclosed (Component.plain written.inside)

def stopPart (written : Written) : List Component :=
  (written.stop.map fun text => blanks text ++ [mark ';']).getD []

def components (written : Written) : List Component :=
  blanks written.lead ++ ofName written.name ::
    (blanks written.gap ++ written.colonPart ++ written.block :: written.stopPart)

section Components

variable (written : Written)

theorem blank_lead : ∀ c ∈ written.lead, isBlank c = true := fun c member =>
  written.blank c (by simp [member])

theorem blank_gap : ∀ c ∈ written.gap, isBlank c = true := fun c member =>
  written.blank c (by simp [member])

theorem blank_colon {inner : List Char} (isDeclaration : written.colon = some inner) :
    ∀ c ∈ inner, isBlank c = true := fun c member =>
  written.blank c (by simp [isDeclaration, member])

theorem blank_stop {after : List Char} (isStopped : written.stop = some after) :
    ∀ c ∈ after, isBlank c = true := fun c member =>
  written.blank c (by simp [isStopped, member])

theorem inFront_colonPart (more : List Char) :
    InFront written.colonPart written.colonText ('{' :: more) := by
  unfold colonPart colonText
  cases shape : written.colon with
  | none => exact .nil
  | some text =>
      have blank := written.blank_colon shape
      exact (inFront_mark (by decide)).append (inFront_blanks blank (by simp; decide))

theorem inFront_stopPart (more : List Char) :
    InFront written.stopPart written.stopText more := by
  unfold stopPart stopText
  cases shape : written.stop with
  | none => exact .nil
  | some text =>
      have blank := written.blank_stop shape
      exact (inFront_blanks blank (by simp; decide)).append (inFront_mark (by decide))

theorem endsWord_of_isBlank {c : Char} (blank : isBlank c = true) : endsWord c = true := by
  simp [endsWord, blank]

/-- What follows the name ends it. -/
theorem endsWord_gap (more : List Char) :
    ∀ c ∈ (written.gap ++ (written.colonText ++ '{' :: more)).head?, endsWord c = true := by
  intro c isHead
  cases shape : written.gap with
  | cons d rest =>
      rw [shape] at isHead
      obtain rfl : d = c := by simpa using isHead
      exact endsWord_of_isBlank (written.blank_gap d (by simp [shape]))
  | nil =>
      rw [shape, colonText] at isHead
      cases colon : written.colon with
      | none =>
          obtain rfl : '{' = c := by simpa [colon] using isHead
          rfl
      | some text =>
          obtain rfl : ':' = c := by simpa [colon] using isHead
          rfl

/-- **A definition is read as its components**, whatever follows it. -/
theorem inFront (more : List Char) : InFront written.components written.text more := by
  have block := (inFront_enclosed (written.fits.inFront (written.stopText ++ more))).append
    (written.inFront_stopPart more)
  have colon := (written.inFront_colonPart _).append block
  have gap : InFront (blanks written.gap) written.gap
      (written.colonText ++ ('{' :: (written.inside ++ ['}']) ++ written.stopText) ++ more) := by
    refine inFront_blanks written.blank_gap ?_
    unfold colonText
    cases written.colon <;> simp <;> decide
  have name := (inFront_name written.named (by
    simpa using written.endsWord_gap (written.inside ++ '}' :: (written.stopText ++ more)))).append
      (gap.append colon)
  have lead : InFront (blanks written.lead) written.lead
      ((writtenName written.name).toList ++ (written.gap ++ (written.colonText ++
        ('{' :: (written.inside ++ ['}']) ++ written.stopText))) ++ more) := by
    refine inFront_blanks written.blank_lead ?_
    rw [toList_writtenName]
    simp
    decide
  simpa [text, components, Written.block] using lead.append name

theorem inFront_flatMap (list : List Written) (more : List Char) :
    InFront (list.flatMap components) (list.flatMap text) more := by
  induction list with
  | nil => exact .nil
  | cons first rest ih => exact (first.inFront _).append ih

end Components

variable {written : Written} {list following : List Written} {more rest : List Component}
  {trail after inner : List Char} {semicolon swallowed : Bool}

theorem components_unstopped (isStopped : written.stop = some after) :
    written.components = written.unstopped.components ++ (blanks after ++ [mark ';']) := by
  have part : written.stopPart = blanks after ++ [mark ';'] := by simp [stopPart, isStopped]
  have open_ : written.unstopped.components = blanks written.lead ++ ofName written.name ::
      (blanks written.gap ++ written.colonPart ++ written.block :: []) := rfl
  rw [components, part, open_]
  simp

theorem unstopped_eq (isOpen : written.stop = none) : written.unstopped = written := by
  obtain ⟨lead, name, gap, colon, inside, items, stop, blank, named, fits, reads, quiet⟩ := written
  cases isOpen
  rfl

theorem components_open (isOpen : written.stop = none) : written.components =
    blanks written.lead ++ ofName written.name ::
      (blanks written.gap ++ written.colonPart ++ [written.block]) := by
  simp [components, stopPart, isOpen]

theorem endsValue_of_mem (isOpen : written.stop = none) {c : Component}
    (member : c ∈ written.components) : c.endsValue = false := by
  rw [components_open isOpen, List.append_assoc, ← List.cons_append] at member
  rcases List.mem_append.mp member with among | member
  · exact (goesOn_of_mem_blanks written.blank_lead among).2.2
  rcases List.mem_append.mp member with among | member
  · exact (goesOn_name written.blank_gap c among).2.2
  rcases List.mem_append.mp member with among | isBlock
  · unfold colonPart at among
    cases shape : written.colon with
    | none => simp [shape] at among
    | some text =>
        rw [shape] at among
        rcases List.mem_cons.mp among with rfl | among
        · rfl
        · exact (goesOn_of_mem_blanks (written.blank_colon shape) among).2.2
  · obtain rfl := List.mem_singleton.mp isBlock
    rfl

/-! ## Values -/

/-- A block and definitions without semicolons after it. -/
def run (written : Written) (following : List Written) : List Component :=
  written.block :: following.flatMap components

/-- The value of a declaration that runs on to the end of the definitions. -/
def value (written : Written) (following : List Written) : String :=
  String.ofList ('{' :: (written.inside ++ '}' :: following.flatMap text))

theorem toList_value :
    (written.value following).toList = '{' :: (written.inside ++ ['}']) ++ following.flatMap text := by
  simp [value]

theorem plain_value : Component.plain (written.value following).toList = written.run following := by
  have front : InFront ([written.block] ++ following.flatMap components) _ [] :=
    (inFront_enclosed (written.fits.inFront _)).append (inFront_flatMap following [])
  rw [toList_value]
  exact front.plain_eq

theorem textOf_run : textOf (written.run following) = (written.value following).toList := by
  rw [← plain_value, textOf_plain]

theorem split_value : split? .curly (written.value following).toList =
    some ⟨[], written.inside, following.flatMap text⟩ := by
  have front : InFront (following.flatMap components) (following.flatMap text) [] :=
    inFront_flatMap following []
  rw [split?_eq, plain_value, run, block, enclosed, Split.ofComponents?]
  have opens : (Lexeme.ofSingle '{').token.opens? = some .curly := rfl
  rw [if_pos opens, textOf_plain, ← front.plain_eq, textOf_plain]

theorem components_declared (isDeclaration : written.colon = some inner)
    (isOpen : written.stop = none) (following : List Written) (after : List Char)
    (ends : List Component) :
    written.components ++ (following.flatMap components ++ (blanks after ++ ends)) =
      blanks written.lead ++
        (declared written.name written.gap inner (written.run following) after ++ ends) := by
  simp [components_open isOpen, colonPart, isDeclaration, declared, run]

section Open

variable (open_ : ∀ other ∈ following, other.stop = none)
include open_

/-- They end with a block. -/
theorem exists_run (written : Written) :
    ∃ front inner, written.run following = front ++ [enclosed inner] := by
  induction following generalizing written with
  | nil => exact ⟨[], _, rfl⟩
  | cons next others ih =>
      obtain ⟨front, inner, split⟩ := ih (fun other member => open_ other (by simp [member])) next
      refine ⟨written.block :: (blanks next.lead ++ ofName next.name ::
        (blanks next.gap ++ next.colonPart ++ front)), inner, ?_⟩
      rw [run] at split
      rw [run, List.flatMap_cons, components_open (open_ next List.mem_cons_self)]
      simp [split]

theorem isValue_run : IsValue (written.run following) where
  filled := List.cons_ne_nil _ _
  first := by
    intro c isHead
    obtain rfl : written.block = c := by simpa [run] using isHead
    rfl
  last := by
    obtain ⟨front, inner, split⟩ := exists_run open_ written
    intro c isLast
    rw [split] at isLast
    obtain rfl : enclosed inner = c := by simpa using isLast
    rfl
  goesOn := by
    intro c member
    rcases List.mem_cons.mp member with rfl | among
    · rfl
    · obtain ⟨other, stands, among⟩ := List.mem_flatMap.mp among
      exact endsValue_of_mem (open_ other stands) among

end Open

/-! ## Statements -/

theorem dropWhile_filler (rest : List Component) :
    (blanks written.lead ++ ofName written.name :: rest).dropWhile isFiller =
      ofName written.name :: rest := by
  have fillers : ∀ c ∈ blanks written.lead, isFiller c = true := fun c member => by
    simp [isFiller, isBlank_of_mem_blanks written.blank_lead member]
  rw [List.dropWhile_append_of_pos fillers, List.dropWhile_cons_of_neg]
  simp [isFiller, ofName, word, isLeaf, Component.isBlank, Lexeme.ofWord]

theorem unplaced_items (written : Written) : written.items.unplaced = written.items := by
  obtain ⟨body, -, same⟩ := exists_body written.reads
  rw [← same]
  exact Forest.unplaced_stamp body.items none

/-- Blanks hold nothing. -/
theorem outcome_blanks (semicolon : Bool) (blank : ∀ c ∈ after, isBlank c = true) :
    ∃ body, Body.outcome semicolon (blanks after) = some body ∧ body.items = .nil := by
  have fillers : (blanks after).dropWhile isFiller = [] :=
    List.dropWhile_eq_nil_iff.mpr fun c member => by
      simp [isFiller, isBlank_of_mem_blanks blank member]
  exact ⟨_, Body.outcome_done fillers, rfl⟩

theorem outcome_rule (isRule : written.colon = none) (more : List Component) : ∃ raws,
    Body.outcome semicolon (written.components ++ more) =
      (Body.outcome false
        (ownSemicolon (.rule (writtenName written.name)) (written.stopPart ++ more)).2).map
          (Body.cons ⟨.rule (writtenName written.name), raws, none⟩ written.items) := by
  have shape : written.components ++ more = blanks written.lead ++ ofName written.name ::
      (blanks written.gap ++ enclosed (Component.plain written.inside) ::
        (written.stopPart ++ more)) := by
    simp [components, colonPart, isRule, block]
  obtain ⟨body, inside, items⟩ := outcome_of_itemsOf? written.reads
  have read : Piece.read (ofName written.name)
      (blanks written.gap ++ enclosed (Component.plain written.inside) ::
        (written.stopPart ++ more)) = _ := Piece.read_rule written.blank_gap _
  rw [shape, Body.outcome_block (written.dropWhile_filler _) (congrArg Prod.fst read), inside, read,
    ← items]
  exact ⟨_, rfl⟩

/-- A statement without a block that starts with the name. -/
theorem outcome_statement {kind : Kind} {raws : Raws} {ended : Option Bool}
    (read : Piece.statement .first (ofName written.name :: more) = (.simple kind raws ended, rest)) :
    ∃ raws,
    Body.outcome semicolon (blanks written.lead ++ ofName written.name :: more) =
      (Body.outcome (ended.getD semicolon) rest).map (Body.cons ⟨kind, raws, none⟩ .nil) := by
  rw [← Piece.read_ofName] at read
  rw [Body.outcome_simple (written.dropWhile_filler _) (congrArg Prod.fst read), read]
  exact ⟨_, rfl⟩

section Open

variable (open_ : ∀ other ∈ following, other.stop = none)
include open_

/-- A declaration with a semicolon after the last definition that its value runs on to. -/
theorem outcome_declaration (isDeclaration : written.colon = some inner)
    (blank : ∀ c ∈ after, isBlank c = true) (rest : List Component) : ∃ raws,
    Body.outcome semicolon (blanks written.lead ++
      (declared written.name written.gap inner (written.run following) after ++ mark ';' :: rest)) =
      (Body.outcome true rest).map
        (Body.cons ⟨.declaration (writtenName written.name) (written.value following), raws, none⟩
          .nil) := by
  have within := written.blank_colon isDeclaration
  have value : IsValue (written.run following) := isValue_run open_
  obtain ⟨raws, read⟩ :=
    Piece.statement_declared written.blank_gap written.named value within blank rest
  rw [textOf_run, String.ofList_toList, declared, List.cons_append] at read
  rw [declared, List.cons_append]
  exact outcome_statement read

/-- A declaration whose value runs on to the end. -/
theorem outcome_declaration_open (isDeclaration : written.colon = some inner)
    (blank : ∀ c ∈ after, isBlank c = true) : ∃ raws,
    Body.outcome semicolon (blanks written.lead ++
      declared written.name written.gap inner (written.run following) after) =
      (Body.outcome false (blanks after)).map
        (Body.cons ⟨.declaration (writtenName written.name) (written.value following), raws, none⟩
          .nil) := by
  have within := written.blank_colon isDeclaration
  have value : IsValue (written.run following) := isValue_run open_
  obtain ⟨raws, read⟩ :=
    Piece.statement_declared_open written.blank_gap written.named value within blank
  rw [textOf_run, String.ofList_toList, declared] at read
  rw [declared]
  exact outcome_statement read

end Open

/-! ## Definitions -/

/-- The definitions that are written; `swallowed` says whether they are written in the
value of a declaration.  A declaration without a semicolon runs on to the next one. -/
def definitions (swallowed : Bool) : List Written → List Definition
  | [] => []
  | first :: rest =>
      ⟨first.name, first.form, swallowed, first.items⟩ ::
        definitions ((swallowed || first.form = .declaration) && first.stop.isNone) rest

theorem map_name_definitions (swallowed : Bool) (list : List Written) :
    (definitions swallowed list).map Definition.name = list.map Written.name := by
  induction list generalizing swallowed with
  | nil => rfl
  | cons first rest ih => rw [definitions, List.map_cons, List.map_cons, ih]

theorem definitions_rule (isRule : written.colon = none)
    (clear : swallowed = true → written.stop = none) (list : List Written) :
    definitions swallowed (written :: list) =
      ⟨written.name, .rule, swallowed, written.items⟩ :: definitions swallowed list := by
  rw [definitions]
  cases swallowed <;> simp_all [form]

theorem definitions_declaration (isDeclaration : written.colon = some inner)
    (list : List Written) : definitions swallowed (written :: list) =
      ⟨written.name, .declaration, swallowed, written.items⟩ ::
        definitions written.stop.isNone list := by
  rw [definitions]
  simp [form, isDeclaration]

theorem trim_text (first : Written) (others : List Written) :
    (trim ((first :: others).flatMap text)).isEmpty = false := by
  rw [List.isEmpty_eq_false_iff]
  intro empty
  have named : '-' ∈ (first :: others).flatMap text := by
    simp [text, toList_writtenName]
  rw [← List.takeWhile_append_dropWhile (p := isSpace) (l := (first :: others).flatMap text),
    List.mem_append] at named
  have space : isSpace '-' = true :=
    named.elim List.mem_takeWhile_imp (dropEnd_eq_nil empty '-')
  cases space

/-- What is written after a block is read as what follows it. -/
theorem exists_trailing {body : Body}
    (read : Body.outcome false (following.flatMap components) = some body)
    (defines : Defines true body.items (definitions true following)) :
    ∃ items, trailing? (following.flatMap text) = some items ∧
      Defines true items (definitions true following) := by
  cases following with
  | nil => exact ⟨.nil, rfl, .nil⟩
  | cons first others =>
      have front : InFront ((first :: others).flatMap components) ((first :: others).flatMap text) [] :=
        inFront_flatMap (first :: others) []
      have plain := Body.outcome_plain (String.ofList ((first :: others).flatMap text))
      rw [String.toList_ofList, front.plain_eq, read] at plain
      cases parsed : Body.parse (String.ofList ((first :: others).flatMap text)) with
      | error error => rw [parsed] at plain; cases plain
      | ok own =>
          rw [parsed] at plain
          cases plain
          refine ⟨own.items, ?_, defines.of_unplaced⟩
          rw [trailing?, trim_text, parsed]
          rfl

/-- A declaration that runs on over other definitions defines its own set and theirs. -/
theorem defines_declaration {body : Body} {raws : Raws} {items : Forest Item}
    {found : List Definition} (read : Body.outcome false (following.flatMap components) = some body)
    (inValue : Defines true body.items (definitions true following))
    (runsOn : swallowed = true → items = .nil) (later : Defines swallowed items found) :
    Defines swallowed
      (.cons ⟨.declaration (writtenName written.name) (written.value following), raws, none⟩ .nil
        items)
      (⟨written.name, .declaration, swallowed, written.items⟩ ::
        (definitions true following ++ found)) := by
  obtain ⟨after, trails, inValue⟩ := exists_trailing read inValue
  obtain ⟨own, parsed, same⟩ := exists_body written.reads
  rw [← same]
  refine .declaration ?_ split_value parsed trails inValue runsOn later
  simp [Kind.definition?, written.named, toList_value]

/-- The semicolon after a rule belongs to it. -/
theorem ownSemicolon_stop (name : String) (blank : ∀ c ∈ after, isBlank c = true)
    (rest : List Component) :
    (ownSemicolon (.rule name) (blanks after ++ mark ';' :: rest)).2 = rest := by
  have stops : (mark ';').isBlank = false := rfl
  have isStop : (mark ';').isLeaf .semicolon = true := rfl
  rw [ownSemicolon, List.dropWhile_append_of_pos fun _ => isBlank_of_mem_blanks blank,
    List.dropWhile_cons_of_neg (by simp [stops])]
  simp [Kind.isRule, isStop]

/-- Of the definitions after a rule nothing does. -/
theorem ownSemicolon_next (name : String) (list : List Written)
    (blank : ∀ c ∈ trail, isBlank c = true) :
    (ownSemicolon (.rule name) (list.flatMap components ++ blanks trail)).2 =
      list.flatMap components ++ blanks trail := by
  unfold ownSemicolon
  cases list with
  | nil =>
      have none_ : (blanks trail).dropWhile Component.isBlank = [] :=
        List.dropWhile_eq_nil_iff.mpr fun _ => isBlank_of_mem_blanks blank
      simp [Kind.isRule, none_]
  | cons first rest =>
      have lead : ∀ c ∈ blanks first.lead, c.isBlank = true := fun _ =>
        isBlank_of_mem_blanks first.blank_lead
      have dropped (more : List Component) :
          (blanks first.lead ++ ofName first.name :: more).dropWhile Component.isBlank =
            ofName first.name :: more := by
        rw [List.dropWhile_append_of_pos lead, List.dropWhile_cons_of_neg (by simp)]
      have plain : (ofName first.name).isLeaf .semicolon = false := rfl
      simp [Kind.isRule, components, dropped, plain]

/-! ## Sequences -/

/-- A rule, with its semicolon if there is one. -/
theorem exists_outcome_rule (isRule : written.colon = none)
    (blank : ∀ c ∈ trail, isBlank c = true) {later : Body} {found : List Definition}
    (readLater : Body.outcome false (list.flatMap components ++ blanks trail) = some later)
    (definesLater : Defines swallowed later.items found) (semicolon : Bool) :
    ∃ body, Body.outcome semicolon
        (written.components ++ (list.flatMap components ++ blanks trail)) = some body ∧
      Defines swallowed body.items
        (⟨written.name, .rule, swallowed, written.items⟩ :: found) := by
  obtain ⟨raws, read⟩ := outcome_rule isRule (list.flatMap components ++ blanks trail)
  have skipped : (ownSemicolon (.rule (writtenName written.name))
      (written.stopPart ++ (list.flatMap components ++ blanks trail))).2 =
        list.flatMap components ++ blanks trail := by
    cases stop : written.stop with
    | none => simpa [stopPart, stop] using ownSemicolon_next _ list blank
    | some after =>
        simpa [stopPart, stop] using ownSemicolon_stop (writtenName written.name)
          (written.blank_stop stop) (list.flatMap components ++ blanks trail)
  have defines : Defines swallowed
      (.cons ⟨.rule (writtenName written.name), raws, none⟩ written.items later.items)
      (⟨written.name, .rule, swallowed, written.items.unplaced⟩ :: found) :=
    .rule rfl written.named (written.quiet isRule) definesLater
  rw [unplaced_items] at defines
  rw [read, skipped, readLater]
  exact ⟨_, rfl, defines⟩

section Open

variable (open_ : ∀ other ∈ following, other.stop = none)
include open_

/-- A declaration that runs on up to a semicolon. -/
theorem exists_outcome_declaration (isDeclaration : written.colon = some inner)
    (isOpen : written.stop = none) (blank : ∀ c ∈ after, isBlank c = true)
    {inValue later : Body} {found : List Definition}
    (readValue : Body.outcome false (following.flatMap components) = some inValue)
    (definesValue : Defines true inValue.items (definitions true following))
    (readLater : Body.outcome true rest = some later)
    (definesLater : Defines false later.items found) (semicolon : Bool) :
    ∃ body, Body.outcome semicolon (written.components ++
        (following.flatMap components ++ (blanks after ++ mark ';' :: rest))) = some body ∧
      Defines false body.items (⟨written.name, .declaration, false, written.items⟩ ::
        (definitions true following ++ found)) := by
  obtain ⟨raws, read⟩ := outcome_declaration open_ isDeclaration blank rest
  rw [components_declared isDeclaration isOpen, read, readLater]
  exact ⟨_, rfl, defines_declaration readValue definesValue nofun definesLater⟩

/-- A declaration that runs on to the end. -/
theorem exists_outcome_declaration_open (isDeclaration : written.colon = some inner)
    (isOpen : written.stop = none) (blank : ∀ c ∈ after, isBlank c = true) {inValue : Body}
    (readValue : Body.outcome false (following.flatMap components) = some inValue)
    (definesValue : Defines true inValue.items (definitions true following)) (semicolon : Bool) :
    ∃ body, Body.outcome semicolon
        (written.components ++ (following.flatMap components ++ blanks after)) = some body ∧
      Defines swallowed body.items (⟨written.name, .declaration, swallowed, written.items⟩ ::
        definitions true following) := by
  obtain ⟨raws, read⟩ :=
    outcome_declaration_open open_ isDeclaration blank
  have whole := components_declared isDeclaration isOpen following after []
  rw [List.append_nil, List.append_nil] at whole
  obtain ⟨ending, readEnd, none_⟩ := outcome_blanks false blank
  rw [whole, read, readEnd, ← List.append_nil (definitions true following)]
  exact ⟨_, rfl, defines_declaration readValue definesValue (fun _ => none_) (none_ ▸ .nil)⟩

end Open

/-- Either no definition has a semicolon, or those up to the first semicolon are followed by
others: what a declaration at the front runs on over, and what comes after that. -/
theorem exists_stopped (first : Written) (rest : List Written) :
    (∀ other ∈ first :: rest, other.stop = none) ∨ ∃ following after back,
      (∀ other ∈ following, other.stop = none) ∧ (∀ c ∈ after, Text.isBlank c = true) ∧
        following.length ≤ rest.length ∧ back.length ≤ rest.length ∧
        (first :: rest).flatMap components = first.unstopped.components ++
          (following.flatMap components ++ (blanks after ++ mark ';' :: back.flatMap components)) ∧
        definitions first.stop.isNone rest = definitions true following ++ definitions false back ∧
        ∃ other ∈ first :: rest, other.stop ≠ none := by
  induction rest generalizing first with
  | nil =>
      cases stop : first.stop with
      | none => exact .inl (by simp [stop])
      | some after =>
          refine .inr ⟨[], after, [], by simp, first.blank_stop stop, by simp, by simp, ?_, rfl, ?_⟩
          · simp [components_unstopped stop]
          · simp [stop]
  | cons next others ih =>
      cases stop : first.stop with
      | some after =>
          refine .inr ⟨[], after, next :: others, by simp, first.blank_stop stop, by simp, by simp,
            ?_, rfl, ?_⟩
          · simp [components_unstopped stop]
          · simp [stop]
      | none =>
          rcases ih next with all | ⟨following, after, back, open_, blank, shorter, short, shape,
            found, other, member, stopped⟩
          · exact .inl (by simpa [stop] using all)
          · refine .inr ⟨next.unstopped :: following, after, back, ?_, blank, ?_, ?_, ?_, ?_, other,
              List.mem_cons_of_mem first member, stopped⟩
            · rintro earlier (_ | ⟨_, among⟩)
              · rfl
              · exact open_ earlier among
            · simpa using shorter
            · exact short.trans (Nat.le_succ _)
            · rw [List.flatMap_cons, shape, unstopped_eq stop]
              simp
            · simp [definitions, found]

/-- **Definitions are read as written.**  Among the definitions in the value of a
declaration no semicolon stands. -/
theorem exists_outcome (blank : ∀ c ∈ trail, isBlank c = true)
    (clear : swallowed = true → ∀ other ∈ list, other.stop = none) (semicolon : Bool) :
    ∃ body, Body.outcome semicolon (list.flatMap components ++ blanks trail) = some body ∧
      Defines swallowed body.items (definitions swallowed list) := by
  induction length : list.length using Nat.strong_induction_on
    generalizing list trail swallowed semicolon with
  | _ count ih =>
      cases list with
      | nil =>
          obtain ⟨body, read, none_⟩ := outcome_blanks semicolon blank
          exact ⟨body, read, none_ ▸ .nil⟩
      | cons first rest =>
          rw [List.length_cons] at length
          -- What a value runs on over is read on its own.
          have inValue (others : List Written) (fewer : others.length < count)
              (open_ : ∀ other ∈ others, other.stop = none) :
              ∃ body, Body.outcome false (others.flatMap components) = some body ∧
                Defines true body.items (definitions true others) := by
            have whole : ∃ body, Body.outcome false (others.flatMap components ++ blanks []) =
                some body ∧ Defines true body.items (definitions true others) :=
              ih others.length fewer (by simp) (fun _ => open_) false rfl
            simpa [blanks, Lexeme.plain_nil] using whole
          cases kind : first.colon with
          | none =>
              obtain ⟨later, readLater, definesLater⟩ := ih rest.length (by omega) blank
                (fun isIn other member => clear isIn other (List.mem_cons_of_mem first member))
                false rfl
              rw [List.flatMap_cons, List.append_assoc,
                definitions_rule kind fun isIn => clear isIn first List.mem_cons_self]
              exact exists_outcome_rule kind blank readLater definesLater semicolon
          | some inner =>
              rw [definitions_declaration kind]
              rcases exists_stopped first rest with all | ⟨following, after, back, open_, within,
                shorter, short, shape, found, other, member, stopped⟩
              · -- It runs on to the end.
                have stop := all first List.mem_cons_self
                have others : ∀ other ∈ rest, other.stop = none := fun other member =>
                  all other (List.mem_cons_of_mem first member)
                obtain ⟨value, readValue, definesValue⟩ := inValue rest (by omega) others
                rw [List.flatMap_cons, List.append_assoc, stop]
                exact exists_outcome_declaration_open others kind stop blank readValue
                  definesValue semicolon
              · have direct : swallowed = false := by
                  by_contra isIn
                  exact stopped (clear (by simpa using isIn) other member)
                subst direct
                obtain ⟨later, readLater, definesLater⟩ : ∃ later,
                    Body.outcome true (back.flatMap components ++ blanks trail) = some later ∧
                      Defines false later.items (definitions false back) :=
                  ih back.length (by omega) blank (by simp) true rfl
                obtain ⟨value, readValue, definesValue⟩ := inValue following (by omega) open_
                have whole := exists_outcome_declaration open_ (first.colon_unstopped.trans kind)
                  rfl within readValue definesValue readLater definesLater semicolon
                rw [shape, found]
                simpa using whole

end Written

end ApplyRule
