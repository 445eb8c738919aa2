/-
# ApplyRule.Proofs.Chained -- definitions that follow one another in a value

The value of a declaration has no semicolon outside its brackets, and a declaration that no
semicolon ends runs to the end of its text.  So among the items after a block at most one
defines a set by its value.  It is the last of them, and its value ends the text
(`Brings.definesLast`).

A value is thus a chain (`Chained`): a block, items that define nothing, and maybe the next
definition, whose value is the rest of the text.  No more than one definition ever waits to
be read, and what the value gives comes in the order of the text (`expand_chained`): for each
block a set with the items that are parsed from the text of the block alone, and the items
between the definitions, all with the source of the definition that has the value.
-/
import ApplyRule.Proofs.Brought
import ApplyRule.Proofs.Classification
import ApplyRule.Proofs.Expanding
import ApplyRule.Proofs.Formatting

namespace ApplyRule

set_option autoImplicit false

open Text Component

/-! ## The last item of a text -/

namespace Forest

/-- Of the items of a text none defines a set by its value but for, maybe, the last one, whose
value ends the text up to white space. -/
inductive DefinesLast : Forest Item → List Char → Prop where
  | none {items : Forest Item} {text : List Char} (plain : items.pending = []) :
      DefinesLast items text
  | last {between : Forest Item} {item : Item} {next : String × String}
      {front blanks : List Char} (plain : between.pending = [])
      (definition : item.kind.definition? = some next) (blank : ∀ c ∈ blanks, isBlank c = true) :
      DefinesLast (between ++ .tree item .nil) (front ++ (next.2.toList ++ blanks))

theorem pending_cons (item : Item) (children rest : Forest Item) :
    (Forest.cons item children rest).pending = item.kind.definition?.toList ++ rest.pending := by
  unfold pending
  rw [roots, List.filterMap_cons]
  cases item.kind.definition? <;> rfl

@[simp] theorem pending_append (first second : Forest Item) :
    (first ++ second).pending = first.pending ++ second.pending := by
  simp [pending]

theorem DefinesLast.alone {item : Item} {next : String × String} {front blanks : List Char}
    (definition : item.kind.definition? = some next) (blank : ∀ c ∈ blanks, isBlank c = true) :
    DefinesLast (.cons item .nil .nil) (front ++ (next.2.toList ++ blanks)) :=
  @DefinesLast.last .nil item next front blanks rfl definition blank

/-- One more item that defines nothing stands in front. -/
theorem DefinesLast.cons {item : Item} {items : Forest Item} {text : List Char}
    (later : DefinesLast items text) (plain : item.kind.definition? = .none)
    (children : Forest Item) (lead : List Char) :
    DefinesLast (.cons item children items) (lead ++ text) := by
  cases later with
  | none none_ => exact .none (by rw [pending_cons, plain, none_]; rfl)
  | @last between last next front blanks none_ definition blank =>
      have plain' : (Forest.cons item children between).pending = [] := by
        rw [pending_cons, plain, none_]
        rfl
      rw [← List.append_assoc lead front]
      exact .last plain' definition blank

theorem undefining_append (first second : Forest Item) :
    (first ++ second).undefining = first.undefining ++ second.undefining := by
  induction first with
  | nil => rfl
  | cons item children rest _ ih =>
      rw [cons_append, undefining, undefining, ih]
      split <;> rfl

theorem undefining_stamp (items : Forest Item) (source : Option Location) :
    (items.map (·.stamp source)).undefining = items.undefining.map (·.stamp source) := by
  induction items with
  | nil => rfl
  | cons item children rest _ ih =>
      have same : (item.stamp source).kind = item.kind := rfl
      rw [map, undefining, undefining, ih, same]
      split <;> rfl

theorem undefining_of_pending {items : Forest Item} (plain : items.pending = []) :
    items.undefining = items := by
  induction items with
  | nil => rfl
  | cons item children rest _ ih =>
      rw [pending_cons, List.append_eq_nil_iff, Option.toList_eq_nil_iff] at plain
      rw [undefining, plain.1, Option.isSome_none, if_neg Bool.false_ne_true, ih plain.2]

section Last

variable {between : Forest Item} {item : Item} {next : String × String}
  (plain : between.pending = []) (definition : item.kind.definition? = some next)

include plain definition

theorem pending_last : (between ++ .tree item .nil).pending = [next] := by
  rw [pending_append, plain, tree, pending_cons, definition]
  rfl

theorem undefining_last : (between ++ .tree item .nil).undefining = between := by
  rw [undefining_append, undefining_of_pending plain, tree, undefining, definition,
    Option.isSome_some, if_pos rfl, undefining, append_nil]

end Last

end Forest

/-- A definition that no semicolon ends runs to the end of the body. -/
theorem Piece.Cut.ends_definition {components next : List Component} {kind : Kind} {raws : Raws}
    {ended : Option Bool} {definition : String × String}
    (cut : Piece.Cut components (.simple kind raws ended) next)
    (isDefinition : kind.definition? = some definition)
    (unended : ∀ c ∈ components, c.isLeaf .semicolon = false) :
    (∀ c ∈ next, c.isBlank = true) ∧
      ∃ front, textOf components = front ++ (definition.2.toList ++ textOf next) := by
  obtain ⟨name, value⟩ := definition
  obtain ⟨property, rfl⟩ := Kind.eq_declaration isDefinition
  generalize shape : Piece.simple (.declaration property value) raws ended = piece at cut
  cases cut with
  | @openDeclaration _ parts within found =>
      cases shape
      refine ⟨fun c => Parts.isBlank_of_mem_trail found, parts.property ++ parts.between, ?_⟩
      rw [← Parts.append_read? found, String.toList_ofList, List.append_assoc]
  | @declaration _ whole rest semicolon parts split within found ends =>
      have absent := unended (.leaf semicolon) (by rw [split]; simp)
      simp [isLeaf, ends] at absent
  | _ => cases shape

section Reading

variable {semicolon : Bool} {components : List Component} {body : Body} {source : List Char}

theorem Body.Reading.items_of_fillers (reading : Body.Reading semicolon components body)
    (fillers : ∀ c ∈ components, c.isFiller = true) : body.items = .nil := by
  cases reading with
  | done => rfl
  | simple _ solid => exact absurd (fillers _ (by simp)) (ne_true_of_eq_false solid)
  | block _ solid => exact absurd (fillers _ (by simp)) (ne_true_of_eq_false solid)

/-- Where no semicolon stands, nothing ends a declaration before the body ends. -/
theorem Body.Reading.definesLast (reading : Body.Reading semicolon components body)
    (sound : ∀ c ∈ components, c.Sound (lexemes source))
    (unended : ∀ c ∈ components, c.isLeaf .semicolon = false) :
    body.items.DefinesLast (textOf components) := by
  induction reading with
  | done => exact .none rfl
  | @simple _ lead rest next component kind raws _ more fillers _ cut later ih =>
      have suffix := cut.suffix.trans (List.suffix_append lead _)
      cases isDefinition : kind.definition? with
      | none =>
          have after := ih (fun c member => sound c (suffix.subset member))
            fun c member => unended c (suffix.subset member)
          obtain ⟨front, whole⟩ := suffix
          rw [← whole, textOf_append]
          exact after.cons isDefinition _ _
      | some definition =>
          obtain ⟨blank, front, whole⟩ := cut.ends_definition isDefinition fun c member =>
            unended c (List.mem_append_right lead member)
          have nothing := later.items_of_fillers fun c member => by
            rw [isFiller, blank c member, Bool.true_or]
          have spaces := textOf_blank (fun c member => sound c (suffix.subset member)) blank
          rw [Blank, String.toList_ofList] at spaces
          rw [Body.cons, nothing, textOf_append, whole, ← List.append_assoc]
          exact .alone isDefinition spaces
  | @block _ lead rest next inner component kind raws _ more fillers _ cut inside later _ ih =>
      have plain : kind.definition? = none := by cases cut <;> rfl
      have suffix := (ownSemicolon_suffix kind next).trans
        (cut.suffix.trans (List.suffix_append lead _))
      have after := ih (fun c member => sound c (suffix.subset member))
        fun c member => unended c (suffix.subset member)
      obtain ⟨front, whole⟩ := suffix
      rw [← whole, textOf_append]
      exact after.cons plain _ _

end Reading

/-! ## No semicolon in a value -/

/-- The value of a declaration has no semicolon outside its brackets. -/
theorem Item.Origin.semicolon_notMem {source : List Char} {item : Item} {property value : String}
    (origin : Item.Origin (Within · (Component.read source)) item)
    (kind : item.kind = .declaration property value) : .semicolon ∉ outer value := by
  have classified := origin.classified
  rw [Item.Classified, kind] at classified
  exact classified.2.1

section Value

variable {value held : String} {split : Split} {text : List Char}

/-- What follows the block of such a value has none either. -/
theorem semicolon_notMem_after (cut : split? .curly value.toList = some split)
    (absent : .semicolon ∉ outer value) : .semicolon ∉ outer (String.ofList split.after) := by
  intro member
  obtain ⟨rest, suffix, after⟩ := Split.exists_after cut
  have place : Within (rest ++ []) (Component.read value.toList) := by
    rw [List.append_nil]
    exact .last suffix
  obtain ⟨⟨c, among, same⟩, -⟩ := place.mem_of_mem_outer (after ▸ List.prefix_refl _) rfl member
  exact absent (List.mem_map.mpr ⟨c, suffix.subset among, same⟩)

theorem definesLast_of_parse {body : Body} (parsed : Body.parse (String.ofList text) = .ok body)
    (absent : .semicolon ∉ outer (String.ofList text)) : body.items.DefinesLast text := by
  have whole := (reading_of_parse parsed).definesLast (sound_read _) fun c member => by
    by_contra leaf
    refine absent (List.mem_map.mpr ⟨c, member, ?_⟩)
    cases c with
    | leaf lexeme => exact of_decide_eq_true ((Bool.not_eq_false _).mp leaf)
    | block => exact absurd rfl leaf
  rwa [textOf_read, String.toList_ofList] at whole

/-- Of the items after a block, only the last may define a set. -/
theorem definesLast_of_trailing {items : Forest Item}
    (cut : split? .curly value.toList = some split) (absent : .semicolon ∉ outer value)
    (trails : trailing? split.after = some items) : items.DefinesLast split.after := by
  rcases exists_of_trailing trails with rfl | ⟨body, parsed, rfl⟩
  · exact .none rfl
  · exact definesLast_of_parse parsed (semicolon_notMem_after cut absent)

/-- The values of all definitions that are brought are values of declarations. -/
theorem Brings.semicolon_notMem (brought : Brings value held) (absent : .semicolon ∉ outer value) :
    .semicolon ∉ outer held := by
  cases brought with
  | own => exact absent
  | @later _ _ body item next _ _ parsed member definition =>
      obtain ⟨property, kind⟩ := Kind.eq_declaration definition
      have origin := (reading_of_parse parsed).origin_roots item member
      exact (origin.imp fun _ suffix => Within.last suffix).semicolon_notMem kind

/-- **One definition at most.**  Whichever definition is brought, of the items after its block
only the last may define a set. -/
theorem Brings.definesLast {items : Forest Item} (brought : Brings value held)
    (absent : .semicolon ∉ outer value) (cut : split? .curly held.toList = some split)
    (trails : trailing? split.after = some items) : items.DefinesLast split.after :=
  definesLast_of_trailing cut (brought.semicolon_notMem absent) trails

end Value

/-! ## Chains -/

/-- A value starts with a block: the text in it, what is parsed from that on its own, the text
after it, and the items of that. -/
structure StartsWithBody (value : String) (inside : List Char) (body : Body) (after : List Char)
    (items : Forest Item) : Prop where
  written : value.toList = '{' :: (inside ++ '}' :: after)
  cut : split? .curly value.toList = some ⟨[], inside, after⟩
  parsed : Body.parse (String.ofList inside) = .ok body
  trails : trailing? after = some items

/-- One definition of a chain: the name of its set, its body, and the items up to the next
definition. -/
structure Link where
  name : String
  body : Body
  between : Forest Item

/-- The value of a definition of the set `name`, as a chain of definitions in the order of the
text. -/
inductive Chained : String → String → List Link → Prop where
  | last {name value : String} {inside after : List Char} {body : Body} {items : Forest Item}
      (starts : StartsWithBody value inside body after items) (plain : items.pending = []) :
      Chained name value [⟨name, body, items⟩]
  /-- The value of the next definition ends the text. -/
  | next {name value : String} {inside front blanks : List Char} {body : Body}
      {between : Forest Item} {item : Item} {next : String × String} {links : List Link}
      (starts : StartsWithBody value inside body (front ++ (next.2.toList ++ blanks))
        (between ++ .tree item .nil))
      (plain : between.pending = []) (definition : item.kind.definition? = some next)
      (blank : ∀ c ∈ blanks, isBlank c = true) (later : Chained next.1 next.2 links) :
      Chained name value (⟨name, body, between⟩ :: links)

/-- The rule of a link's set. -/
def Link.set (source : Option Location) (link : Link) : SetRule :=
  .ofBody link.name source { link.body with items := link.body.items.map (·.stamp source) }

/-- What a chain gives: a set for each link, and the items up to the next definition after the
items of the links before. -/
def Link.expansion (source : Option Location) : List Link → Expansion
  | [] => {}
  | link :: rest =>
      .append ⟨[link.set source], link.between.map (·.stamp source)⟩ (expansion source rest)

theorem Link.sets_expansion (source : Option Location) (links : List Link) :
    (expansion source links).sets = links.map (set source) := by
  induction links with
  | nil => rfl
  | cons link rest ih => rw [expansion, Expansion.append, ih]; rfl

theorem Forest.source_of_mem_stamped {items : Forest Item} {source : Option Location}
    {item : Item} (member : item ∈ (items.map (·.stamp source)).labels) :
    item.source = source := by
  rw [labels_map] at member
  obtain ⟨own, -, rfl⟩ := List.mem_map.mp member
  rfl

/-- All that a chain gives has the one source. -/
theorem Link.source_expansion (source : Option Location) (links : List Link) :
    (∀ set ∈ (expansion source links).sets, set.item.source = source ∧
      ∀ below ∈ set.children.labels, below.source = source) ∧
    ∀ item ∈ (expansion source links).items.labels, item.source = source := by
  constructor
  · intro set member
    rw [sets_expansion] at member
    obtain ⟨link, -, rfl⟩ := List.mem_map.mp member
    exact ⟨rfl, fun below => Forest.source_of_mem_stamped⟩
  · induction links with
    | nil => exact fun _ member => nomatch member
    | cons link rest ih =>
        intro item member
        rw [expansion, Expansion.append, Forest.labels_append] at member
        rcases List.mem_append.mp member with own | later
        · exact Forest.source_of_mem_stamped own
        · exact ih item later

section Links

variable {source : Option Location} {name value : String} {expansion : Expansion}

/-- A value that is split around the block it starts with. -/
theorem eq_split_of_head {split : Split} (first : value.toList.head? = some '{')
    (cut : split? .curly value.toList = some split) :
    split.before = [] ∧ value.toList = '{' :: (split.body ++ '}' :: split.after) := by
  have place : Within (Component.read value.toList ++ []) (Component.read value.toList) := by
    rw [List.append_nil]
    exact .last (List.suffix_refl _)
  obtain ⟨opener, body, closer, rest, read, curly⟩ := exists_block place (by rwa [textOf_read])
  have stands :
      Within (.block opener body closer :: (rest ++ [])) (Component.read value.toList) := by
    rw [List.append_nil, ← read]
    exact .last (List.suffix_refl _)
  have whole := congrArg textOf read
  rw [textOf_read] at whole
  have opens : opener.token.opens? = some .curly := by rw [curly]; rfl
  rw [split?, read] at cut
  cases closer with
  | none => cases cut
  | some closer =>
      rw [Split.ofComponents?, if_pos opens] at cut
      cases cut
      exact ⟨rfl, whole.trans (split?_closed stands curly).1⟩

/-- **A value is a chain.**  Where it can be read, what it gives is what its chain gives. -/
theorem expandAll_chained {rounds : Nat} (enough : waiting [(name, value)] < rounds)
    (first : value.toList.head? = some '{') (absent : .semicolon ∉ outer value)
    (read : expandAll source rounds [(name, value)] = .ok expansion) :
    ∃ links, Chained name value links ∧ expansion = Link.expansion source links := by
  induction rounds generalizing name value expansion with
  | zero => cases enough
  | succ rounds ih =>
      obtain ⟨one, more, first', later, rfl⟩ := exists_of_expandAll read
      have fewer := waiting_round first' enough
      obtain ⟨⟨before, inside, after⟩, body, items, cut, parsed, trails, rfl⟩ :=
        exists_of_expandOne first'
      obtain ⟨rfl, written⟩ := eq_split_of_head first cut
      have starts : StartsWithBody value inside body after items := ⟨written, cut, parsed, trails⟩
      have lasts : items.DefinesLast after := definesLast_of_trailing cut absent trails
      change expandAll source rounds (items.map (·.stamp source)).pending = .ok more at later
      change waiting (items.map (·.stamp source)).pending < rounds at fewer
      rw [pending_stamp] at later fewer
      cases lasts with
      | none plain =>
          rw [plain] at later
          have none_ : more = {} := by
            cases rounds <;> exact (Except.ok.inj later).symm
          refine ⟨[⟨name, body, items⟩], .last starts plain, ?_⟩
          rw [none_, Forest.undefining_stamp, Forest.undefining_of_pending plain]
          rfl
      | @last between item next front blanks plain definition blank =>
          rw [Forest.pending_last plain definition] at later fewer
          have absent' : .semicolon ∉ outer next.2 := by
            rcases exists_of_trailing trails with none_ | ⟨rest, parsed', same⟩
            · cases between <;> cases none_
            · have member : item ∈ rest.items.roots := by
                rw [← same, Forest.roots_append]
                exact List.mem_append_right _ List.mem_cons_self
              exact (Brings.own.later cut parsed' member definition).semicolon_notMem absent
          obtain ⟨links, chained, rfl⟩ :=
            ih fewer (Kind.head?_of_definition definition) absent' later
          refine ⟨⟨name, body, between⟩ :: links, .next starts plain definition blank chained, ?_⟩
          rw [Forest.undefining_stamp, Forest.undefining_last plain definition]
          rfl

end Links

/-! ## Documents -/

/-- **Chained definitions.**  Take a declaration of a parsed stylesheet that defines a set and
can be read.  Of the items after a block in its value, only the last may define a set.  So the
value is a chain, and the sets and items that it gives are those of the links, in the order of
the text and all with the source of the declaration; node by node, it is the same. -/
theorem expand_chained {css : String} {document : Document} {id : NodeId} {item : Item}
    {children : Forest Node} {name value : String} {expansion : Expansion}
    (parsed : Document.parse css = .ok document)
    (found : document.find? id = some (item, children))
    (definition : item.kind.definition? = some (name, value))
    (read : expand item.source name value = .ok expansion) :
    (∀ held split items, Brings value held → split? .curly held.toList = some split →
      trailing? split.after = some items → items.DefinesLast split.after) ∧
    (∃ links, Chained name value links ∧ expansion = Link.expansion item.source links) ∧
    (∀ set ∈ expansion.sets, set.item.source = item.source ∧
      ∀ below ∈ set.children.labels, below.source = item.source) ∧
    (∀ below ∈ expansion.items.labels, below.source = item.source) ∧
    ∀ other : Document, other.Numbered → ∃ made after,
      Edit.expand item.source name value other = .ok (.ok made) after ∧
        Makes other expansion made after := by
  obtain ⟨property, kind⟩ := Kind.eq_declaration definition
  have absent : .semicolon ∉ outer value := by
    rcases Document.origin_of_parse parsed found with ⟨-, body, -, rfl⟩ | ⟨-, origin⟩
    · cases kind
    · exact origin.semicolon_notMem kind
  have enough : waiting [(name, value)] < value.length + 1 := Nat.lt_succ_self _
  obtain ⟨links, chained, rfl⟩ :=
    expandAll_chained enough (Kind.head?_of_definition definition) absent read
  obtain ⟨sets, items⟩ := Link.source_expansion item.source links
  exact ⟨fun held split items brought cut trails => brought.definesLast absent cut trails,
    ⟨links, chained, rfl⟩, sets, items, fun other numbered => Edit.expand_ok numbered read⟩

/-- The pole of `expand_chained`: three definitions, and between them a rule, a comment and an
at-rule. -/
theorem expand_chained_three :
    ∃ document item children expansion links,
      Document.parse (":root\x7b--a:\x7bx:y\x7d p\x7bq:r\x7d --b:\x7bz:w;\x7d" ++
        "/*c*/ @m n\x7bo\x7bk:l\x7d\x7d --d:\x7b\x7d\x7d") = .ok document ∧
      document.find? ⟨3⟩ = some (item, children) ∧
      item.kind.definition? = some ("a", "\x7bx:y\x7d p\x7bq:r\x7d --b:\x7bz:w;\x7d" ++
        "/*c*/ @m n\x7bo\x7bk:l\x7d\x7d --d:\x7b\x7d") ∧
      expand item.source "a" ("\x7bx:y\x7d p\x7bq:r\x7d --b:\x7bz:w;\x7d" ++
        "/*c*/ @m n\x7bo\x7bk:l\x7d\x7d --d:\x7b\x7d") = .ok expansion ∧
      Chained "a" ("\x7bx:y\x7d p\x7bq:r\x7d --b:\x7bz:w;\x7d" ++
        "/*c*/ @m n\x7bo\x7bk:l\x7d\x7d --d:\x7b\x7d") links ∧
      expansion = Link.expansion item.source links ∧
      links.map Link.name = ["a", "b", "d"] ∧
      expansion.items.roots.map Item.kind = [.rule "p", .comment "c", .atRule "m" "n" true] := by
  obtain ⟨document, parsed, computed⟩ := exists_ok_of_any
    (Document.parse (":root\x7b--a:\x7bx:y\x7d p\x7bq:r\x7d --b:\x7bz:w;\x7d" ++
      "/*c*/ @m n\x7bo\x7bk:l\x7d\x7d --d:\x7b\x7d\x7d"))
    (fun document => (document.find? ⟨3⟩).any fun node =>
      node.1.kind.definition? = some ("a", "\x7bx:y\x7d p\x7bq:r\x7d --b:\x7bz:w;\x7d" ++
        "/*c*/ @m n\x7bo\x7bk:l\x7d\x7d --d:\x7b\x7d") &&
      (expand node.1.source "a" ("\x7bx:y\x7d p\x7bq:r\x7d --b:\x7bz:w;\x7d" ++
        "/*c*/ @m n\x7bo\x7bk:l\x7d\x7d --d:\x7b\x7d")).toOption.any fun expansion =>
          expansion.sets.map SetRule.name = ["a", "b", "d"] &&
          expansion.items.roots.map Item.kind =
            [.rule "p", .comment "c", .atRule "m" "n" true])
    (by decide +kernel)
  obtain ⟨⟨item, children⟩, found, holds⟩ := (Option.any_eq_true ..).mp computed
  obtain ⟨definition, reads⟩ := Bool.and_eq_true_iff.mp holds
  have definition := of_decide_eq_true definition
  obtain ⟨expansion, read, names⟩ := exists_ok_of_any _ _ reads
  obtain ⟨names, kinds⟩ := Bool.and_eq_true_iff.mp names
  obtain ⟨-, ⟨links, chained, same⟩, -⟩ := expand_chained parsed found definition read
  refine ⟨document, item, children, expansion, links, parsed, found, definition, read, chained,
    same, ?_, of_decide_eq_true kinds⟩
  have names := of_decide_eq_true names
  rw [same, Link.sets_expansion, List.map_map] at names
  exact names

end ApplyRule
