/-
# ApplyRule.Proofs.Definitions -- definitions one after the other

Sets are defined one after the other, in the form of declarations or of rules.  A
declaration ends at a semicolon.  Without one it runs on: what follows its block is
written in its value, and what follows there may be definitions again.  `Defines` says
which definitions the items of a scope stand for, in the order they are written in,
those in values included.

All of them are found when the value is read (`expand_defines`): the declarations among
them as sets, the rules as items that are put in the place of the declaration.

A value is read in rounds: each takes the first definition that waits, and puts those
after its block behind all that wait.  The blocks and what follows them are parts of
one text, so what waits gets shorter with every round, and a bound on the rounds that
exceeds the length of the value bounds nothing (`expandAll_rounds`).
-/
import ApplyRule.Proofs.Collecting
import ApplyRule.Proofs.PrintBack

namespace ApplyRule

set_option autoImplicit false

open Text Component

/-! ## Items without their places -/

/-- The trees without the places they were written at. -/
def Forest.unplaced (items : Forest Item) : Forest Item :=
  items.map (·.stamp none)

/-- Whether no item of the forest, which stands below an item of the kind `parent`,
defines a set where sets are defined, or at the top. -/
def Forest.quiet (parent : Kind) : Forest Item → Bool
  | .nil => true
  | .cons item children rest =>
      (!(parent.isRoot || parent = .rule rootSelector) ||
          item.kind.definition?.isNone && item.kind.ruleName?.isNone) &&
        children.quiet item.kind && rest.quiet parent

namespace Forest

@[simp] theorem roots_map {α β : Type} (f : α → β) (forest : Forest α) :
    (forest.map f).roots = forest.roots.map f := by
  induction forest with
  | nil => rfl
  | cons label children rest _ ih => rw [map, roots, roots, ih, List.map_cons]

@[simp] theorem unplaced_stamp (items : Forest Item) (source : Option Location) :
    (items.map (·.stamp source)).unplaced = items.unplaced := by
  induction items with
  | nil => rfl
  | cons item children rest ihc ihr =>
      simp only [unplaced, map] at ihc ihr ⊢
      rw [ihc, ihr]
      rfl

@[simp] theorem quiet_stamp (items : Forest Item) (source : Option Location) (parent : Kind) :
    (items.map (·.stamp source)).quiet parent = items.quiet parent := by
  induction items generalizing parent with
  | nil => rfl
  | cons item children rest ihc ihr =>
      have same : (item.stamp source).kind = item.kind := rfl
      rw [map, quiet, quiet, same, ihc, ihr]

end Forest

/-! ## Definitions -/

/-- The form of a definition. -/
inductive Form where
  | declaration
  | rule
  deriving DecidableEq

/-- A definition of a set. -/
structure Definition where
  name : String
  form : Form
  /-- Whether it is written in the value of a declaration before it. -/
  swallowed : Bool
  body : Forest Item
  deriving DecidableEq

/-- The items of the text after the block of a definition. -/
def trailing? (after : List Char) : Option (Forest Item) :=
  if (trim after).isEmpty then some .nil
  else (Body.parse (String.ofList after)).toOption.map Body.items

/-- The definitions that items stand for, in the order they are written in; `swallowed`
says whether the items are written in the value of a declaration. -/
inductive Defines : Bool → Forest Item → List Definition → Prop where
  | nil {swallowed : Bool} : Defines swallowed .nil []
  | rule {swallowed : Bool} {item : Item} {children rest : Forest Item} {name : String}
      {more : List Definition}
      (isRule : item.kind = .rule (writtenName name))
      (named : setName? (writtenName name) = some name)
      (quiet : children.quiet item.kind = true)
      (later : Defines swallowed rest more) :
      Defines swallowed (.cons item children rest)
        (⟨name, .rule, swallowed, children.unplaced⟩ :: more)
  /-- What follows the block is in the value.  No semicolon is, so that the value of a
  declaration in it runs to its end. -/
  | declaration {swallowed : Bool} {item : Item} {rest after : Forest Item}
      {name value : String} {split : Split} {body : Body} {following more : List Definition}
      (isDefinition : item.kind.definition? = some (name, value))
      (cut : split? .curly value.toList = some split)
      (parsed : Body.parse (String.ofList split.body) = .ok body)
      (trails : trailing? split.after = some after)
      (inValue : Defines true after following)
      (runsOn : swallowed = true → rest = .nil)
      (later : Defines swallowed rest more) :
      Defines swallowed (.cons item .nil rest)
        (⟨name, .declaration, swallowed, body.items.unplaced⟩ :: (following ++ more))

namespace Definition

/-- The definitions in the form of declarations. -/
def declarations (list : List Definition) : List Definition :=
  list.filter (·.form = .declaration)

/-- The definitions in the form of rules. -/
def rules (list : List Definition) : List Definition :=
  list.filter (·.form = .rule)

/-- What a definition says of its name. -/
def entry (definition : Definition) : String × Forest Item :=
  (definition.name, definition.body)

end Definition

/-- What a rule says of the name it is registered for. -/
def SetRule.entry (set : SetRule) : String × Forest Item :=
  (set.name, set.children.unplaced)

/-- The items are the rules of these definitions. -/
inductive RulesOf : Forest Item → List Definition → Prop where
  | nil : RulesOf .nil []
  | cons {item : Item} {children rest : Forest Item} {first : Definition}
      {more : List Definition}
      (isRule : item.kind = .rule (writtenName first.name))
      (named : setName? (writtenName first.name) = some first.name)
      (quiet : children.quiet item.kind = true)
      (body : children.unplaced = first.body)
      (later : RulesOf rest more) :
      RulesOf (.cons item children rest) (first :: more)

theorem RulesOf.append {items others : Forest Item} {first second : List Definition}
    (front : RulesOf items first) (back : RulesOf others second) :
    RulesOf (items ++ others) (first ++ second) := by
  induction front with
  | nil => exact back
  | cons isRule named quiet body _ ih => exact .cons isRule named quiet body ih

/-! ## The length of values -/

/-- The definitions in the form of declarations that stand in a text, as they wait to be
read. -/
def Forest.pending (items : Forest Item) : List (String × String) :=
  items.roots.filterMap fun item => item.kind.definition?

theorem pending_stamp (items : Forest Item) (source : Option Location) :
    (items.map (·.stamp source)).pending = items.pending := by
  rw [Forest.pending, Forest.roots_map, List.filterMap_map]
  rfl

/-- The characters of all values that wait. -/
def waiting : List (String × String) → Nat
  | [] => 0
  | definition :: pending => definition.2.length + waiting pending

@[simp] theorem waiting_append (first second : List (String × String)) :
    waiting (first ++ second) = waiting first + waiting second := by
  induction first with
  | nil => exact (Nat.zero_add _).symm
  | cons definition pending ih =>
      rw [List.cons_append, waiting, ih, waiting]
      omega

/-- The text after a block is shorter than the whole. -/
theorem length_after_lt {bracket : Bracket} {text : List Char} {split : Split}
    (cut : split? bracket text = some split) : split.after.length < text.length := by
  obtain ⟨front, opener, body, closer, rest, read, -, -, rfl⟩ :=
    Split.ofComponents?_eq_some.mp cut
  have solid := List.length_pos_iff.mpr (text_ne_nil (fun _ => written_of_mem_lexemes)
    (sound_read text (.block opener body (some closer)) (by simp [read])))
  have whole := congrArg List.length (congrArg textOf read)
  rw [textOf_read, textOf_append, textOf, List.length_append, List.length_append] at whole
  show (textOf rest).length < text.length
  omega

theorem length_textOf_le {first second : List Component} (suffix : first <:+ second) :
    (textOf first).length ≤ (textOf second).length := by
  obtain ⟨front, rfl⟩ := suffix
  rw [textOf_append, List.length_append]
  omega

/-- Only a declaration defines a set by its value. -/
theorem Kind.eq_declaration {kind : Kind} {name value : String}
    (isDefinition : kind.definition? = some (name, value)) :
    ∃ property, kind = .declaration property value := by
  cases kind with
  | declaration property own =>
      rw [definition?] at isDefinition
      split at isDefinition
      · split at isDefinition
        · cases isDefinition
          exact ⟨property, rfl⟩
        · cases isDefinition
      · cases isDefinition
  | _ => cases isDefinition

/-- The value of a definition starts with a block. -/
theorem Kind.head?_of_definition {kind : Kind} {name value : String}
    (isDefinition : kind.definition? = some (name, value)) : value.toList.head? = some '{' := by
  obtain ⟨property, rfl⟩ := eq_declaration isDefinition
  rw [definition?] at isDefinition
  split at isDefinition
  · split at isDefinition
    · rename_i first
      exact first
    · cases isDefinition
  · cases isDefinition

theorem Parts.length_le {components : List Component} {parts : Parts}
    (found : Parts.read? components = some parts) :
    parts.value.length + (textOf parts.trail).length ≤ (textOf components).length := by
  rw [← Parts.append_read? found]
  simp only [List.length_append]
  omega

/-- A definition's value stands before what follows its piece. -/
theorem Piece.Cut.length_definition {components next : List Component} {kind : Kind} {raws : Raws}
    {ended : Option Bool} {name value : String}
    (cut : Piece.Cut components (.simple kind raws ended) next)
    (isDefinition : kind.definition? = some (name, value)) :
    value.length + (textOf next).length ≤ (textOf components).length := by
  obtain ⟨property, rfl⟩ := Kind.eq_declaration isDefinition
  generalize shape : Piece.simple (.declaration property value) raws ended = piece at cut
  cases cut with
  | openDeclaration within found =>
      cases shape
      rw [String.length_ofList]
      exact Parts.length_le found
  | @declaration _ whole rest semicolon parts split within found ends =>
      cases shape
      have values := Parts.length_le found
      have after := length_textOf_le (List.suffix_cons (Component.leaf semicolon) next)
      rw [String.length_ofList, split, textOf_append, List.length_append]
      omega
  | _ => cases shape

/-- The definitions in a text have no more characters in their values than it has. -/
theorem Body.Reading.waiting_le {semicolon : Bool} {components : List Component} {body : Body}
    (reading : Body.Reading semicolon components body) :
    waiting body.items.pending ≤ (textOf components).length := by
  induction reading with
  | done => exact Nat.zero_le _
  | @simple _ lead rest next component kind _ _ _ _ _ cut later ih =>
      rw [textOf_append, List.length_append]
      simp only [Body.cons, Forest.pending, Forest.roots, List.filterMap_cons]
      cases isDefinition : kind.definition? with
      | none =>
          have after := length_textOf_le cut.suffix
          exact ih.trans (after.trans (Nat.le_add_left _ _))
      | some definition =>
          have own := cut.length_definition isDefinition
          show waiting (definition :: _) ≤ _
          rw [waiting]
          unfold Forest.pending at ih
          omega
  | @block _ lead rest next inner component kind _ _ _ _ _ cut inside later _ ih =>
      have block : kind.definition? = none := by
        cases cut <;> rfl
      obtain ⟨skipped, split, -⟩ := ownSemicolon_append kind next
      have suffix : (ownSemicolon kind next).2 <:+ next := ⟨skipped, split.symm⟩
      have after := length_textOf_le (suffix.trans cut.suffix)
      rw [textOf_append, List.length_append]
      simp only [Body.cons, Forest.pending, Forest.roots, List.filterMap_cons, block]
      exact ih.trans (after.trans (Nat.le_add_left _ _))

/-- Where there are items after a block, they are parsed from the text there. -/
theorem exists_of_trailing {after : List Char} {items : Forest Item}
    (trails : trailing? after = some items) :
    items = .nil ∨ ∃ body, Body.parse (String.ofList after) = .ok body ∧ items = body.items := by
  unfold trailing? at trails
  split at trails
  · exact .inl (Option.some.inj trails).symm
  · cases parsed : Body.parse (String.ofList after) with
    | error error => rw [parsed] at trails; cases trails
    | ok body =>
        rw [parsed] at trails
        exact .inr ⟨body, rfl, (Option.some.inj trails).symm⟩

theorem waiting_trailing_le {after : List Char} {items : Forest Item}
    (trails : trailing? after = some items) : waiting items.pending ≤ after.length := by
  rcases exists_of_trailing trails with rfl | ⟨body, parsed, rfl⟩
  · exact Nat.zero_le _
  · have within := (reading_of_parse parsed).waiting_le
    rwa [textOf_read, String.toList_ofList] at within

/-! ## Reading a value -/

theorem expandOne_ok {source : Option Location} {name value : String} {split : Split} {body : Body}
    {after : Forest Item} (cut : split? .curly value.toList = some split)
    (parsed : Body.parse (String.ofList split.body) = .ok body)
    (trails : trailing? split.after = some after) :
    expandOne source name value =
      .ok ⟨.ofBody name source { body with items := body.items.map (·.stamp source) },
        (after.map (·.stamp source)).undefining, (after.map (·.stamp source)).pending⟩ := by
  unfold expandOne
  simp only [cut, parsed, bind, Except.bind]
  unfold trailing? at trails
  split at trails
  · rename_i blank
    cases trails
    rw [if_pos blank]
    rfl
  · rename_i written
    rw [if_neg written]
    cases read : Body.parse (String.ofList split.after) with
    | error error => rw [read] at trails; cases trails
    | ok rest =>
        rw [read] at trails
        cases trails
        rfl

/-- One round: the set itself comes first, and then what waits after its block. -/
theorem expandAll_one {source : Option Location} {name value : String} {split : Split} {body : Body}
    {after : Forest Item} {rounds : Nat} {more : Expansion}
    (cut : split? .curly value.toList = some split)
    (parsed : Body.parse (String.ofList split.body) = .ok body)
    (trails : trailing? split.after = some after)
    (read : expandAll source rounds (after.map (·.stamp source)).pending = .ok more) :
    ∃ expansion, expandAll source (rounds + 1) [(name, value)] = .ok expansion ∧
      expansion.sets.map SetRule.entry =
        (name, body.items.unplaced) :: more.sets.map SetRule.entry ∧
      expansion.items = (after.map (·.stamp source)).undefining ++ more.items := by
  have one : expandOne source name value = _ := expandOne_ok cut parsed trails
  generalize shape : SetRule.ofBody name source _ = set at one
  refine ⟨.append ⟨[set], _⟩ more, ?_, ?_, rfl⟩
  · rw [expandAll]
    simp only [one, bind, Except.bind, List.nil_append, read]
    rfl
  · simp [Expansion.append, SetRule.entry, SetRule.ofBody, ← shape]

/-- What waits in the text after a block is shorter than the value. -/
theorem waiting_lt {source : Option Location} {value : String} {split : Split}
    {after : Forest Item} (cut : split? .curly value.toList = some split)
    (trails : trailing? split.after = some after) :
    waiting (after.map (·.stamp source)).pending < value.length := by
  rw [pending_stamp]
  calc waiting after.pending ≤ split.after.length := waiting_trailing_le trails
    _ < value.toList.length := length_after_lt cut
    _ = value.length := String.length_toList

/-- **Values are read to their end.**  With more rounds than the values that wait have
characters, all that they and those in their values define is found, in order. -/
theorem expandAll_defines {swallowed : Bool} {items : Forest Item} {list : List Definition}
    (defines : Defines swallowed items list) (inValue : swallowed = true)
    (source : Option Location) {rounds : Nat}
    (enough : waiting (items.map (·.stamp source)).pending < rounds) :
    ∃ expansion,
      expandAll source rounds (items.map (·.stamp source)).pending = .ok expansion ∧
      expansion.sets.map SetRule.entry = (Definition.declarations list).map Definition.entry ∧
      RulesOf ((items.map (·.stamp source)).undefining ++ expansion.items)
        (Definition.rules list) := by
  induction defines generalizing rounds with
  | nil => exact ⟨{}, by cases rounds <;> rfl, rfl, .nil⟩
  | @rule swallowed item children rest name more isRule named quiet later ih =>
      have plain : (item.stamp source).kind.definition? = none := by
        rw [Item.stamp, isRule]
        rfl
      have same : ((Forest.cons item children rest).map (·.stamp source)).pending =
          (rest.map (·.stamp source)).pending := by
        simp [Forest.map, Forest.pending, Forest.roots, plain]
      rw [same] at enough ⊢
      obtain ⟨expansion, read, sets, rules⟩ := ih inValue enough
      refine ⟨expansion, read, sets, ?_⟩
      have kept : ((Forest.cons item children rest).map (·.stamp source)).undefining =
          .cons (item.stamp source) (children.map (·.stamp source))
            (rest.map (·.stamp source)).undefining := by
        simp [Forest.map, Forest.undefining, plain]
      rw [kept]
      exact .cons isRule named (by rw [Forest.quiet_stamp]; exact quiet) (by simp) rules
  | @declaration swallowed item rest after name value split body following more isDefinition cut
      parsed trails _ runsOn _ ih _ =>
      cases runsOn inValue
      rename_i later _
      cases later
      have waits : ((Forest.cons item .nil .nil).map (·.stamp source)).pending =
          [(name, value)] := by
        have same : (item.stamp source).kind.definition? = some (name, value) := isDefinition
        simp [Forest.map, Forest.pending, Forest.roots, same]
      have gone : ((Forest.cons item .nil .nil).map (·.stamp source)).undefining = .nil := by
        have same : (item.stamp source).kind.definition? = some (name, value) := isDefinition
        simp [Forest.map, Forest.undefining, same]
      rw [waits] at enough ⊢
      simp only [gone, Forest.nil_append, List.append_nil]
      obtain ⟨rounds, rfl⟩ : ∃ fewer, rounds = fewer + 1 :=
        Nat.exists_eq_succ_of_ne_zero (Nat.ne_of_gt (Nat.zero_lt_of_lt enough))
      obtain ⟨more, read, sets, rules⟩ :=
        ih rfl ((waiting_lt cut trails).trans_le (Nat.lt_succ_iff.mp enough))
      obtain ⟨expansion, whole, all, items⟩ := expandAll_one cut parsed trails read
      refine ⟨expansion, whole, ?_, items ▸ rules⟩
      rw [all, sets]
      simp [Definition.declarations, Definition.entry]

/-- A declaration of a set is read with all that its value defines. -/
theorem expand_defines {source : Option Location} {name value : String} {split : Split}
    {body : Body} {after : Forest Item} {following : List Definition}
    (cut : split? .curly value.toList = some split)
    (parsed : Body.parse (String.ofList split.body) = .ok body)
    (trails : trailing? split.after = some after) (inValue : Defines true after following) :
    ∃ expansion, expand source name value = .ok expansion ∧
      expansion.sets.map SetRule.entry =
        (name, body.items.unplaced) :: (Definition.declarations following).map Definition.entry ∧
      RulesOf expansion.items (Definition.rules following) := by
  obtain ⟨more, read, sets, rules⟩ := expandAll_defines inValue rfl source
    (waiting_lt cut trails)
  obtain ⟨expansion, whole, all, items⟩ := expandAll_one cut parsed trails read
  exact ⟨expansion, whole, by rw [all, sets], items ▸ rules⟩

/-! ## Rounds -/

section Rounds

variable {source : Option Location} {name value : String}

/-- What is read of a definition: its split value, its body, and the items after its block. -/
theorem exists_of_expandOne {one : Expanded} (read : expandOne source name value = .ok one) :
    ∃ split body items, split? .curly value.toList = some split ∧
      Body.parse (String.ofList split.body) = .ok body ∧ trailing? split.after = some items ∧
      one = ⟨.ofBody name source { body with items := body.items.map (·.stamp source) },
        (items.map (·.stamp source)).undefining, (items.map (·.stamp source)).pending⟩ := by
  have whole := read
  unfold expandOne at read
  cases cut : split? .curly value.toList with
  | none => rw [cut] at read; cases read
  | some split =>
      simp only [cut, bind, Except.bind] at read
      cases parsed : Body.parse (String.ofList split.body) with
      | error error => rw [parsed] at read; cases read
      | ok body =>
          obtain ⟨items, trails⟩ : ∃ items, trailing? split.after = some items := by
            unfold trailing?
            simp only [parsed] at read
            split at read
            · rename_i blank
              exact ⟨_, if_pos blank⟩
            · rename_i written
              rw [if_neg written]
              cases rest : Body.parse (String.ofList split.after) with
              | error error => rw [rest] at read; cases read
              | ok after => exact ⟨_, rfl⟩
          rw [expandOne_ok cut parsed trails] at whole
          cases whole
          exact ⟨split, body, items, rfl, parsed, trails, rfl⟩

/-- What waits after a definition was read is shorter than its value. -/
theorem waiting_expandOne_lt {one : Expanded} (read : expandOne source name value = .ok one) :
    waiting one.pending < value.length := by
  obtain ⟨split, body, items, cut, -, trails, rfl⟩ := exists_of_expandOne read
  exact waiting_lt cut trails

/-- A round leaves fewer characters than there are rounds left. -/
theorem waiting_round {one : Expanded} {rounds : Nat} {pending : List (String × String)}
    (read : expandOne source name value = .ok one)
    (enough : waiting ((name, value) :: pending) < rounds + 1) :
    waiting (pending ++ one.pending) < rounds := by
  have fewer := waiting_expandOne_lt read
  rw [waiting] at enough
  rw [waiting_append]
  simp only at enough
  omega

/-- **Every definition is read.**  With more rounds than characters wait, more rounds
change nothing. -/
theorem expandAll_rounds {rounds : Nat} {pending : List (String × String)}
    (enough : waiting pending < rounds) (extra : Nat) :
    expandAll source (rounds + extra) pending = expandAll source rounds pending := by
  induction rounds generalizing pending with
  | zero => cases enough
  | succ rounds ih =>
      rw [Nat.add_right_comm]
      cases pending with
      | nil => rfl
      | cons definition pending =>
          obtain ⟨name, value⟩ := definition
          simp only [expandAll, bind, Except.bind]
          cases read : expandOne source name value with
          | error error => rfl
          | ok one =>
              simp only [ih (waiting_round read enough)]

end Rounds

end ApplyRule
