/-
# ApplyRule.Proofs.PrintBack -- a stylesheet prints back as it was written

The end of a text may leave things open: the last comment, and the blocks of the
rules and at-rules around it.  `Forest.loose` finds them on the last path of the
tree, and `Loose.closing` is the text that the printer adds for them.

`css_parse` is the law: the text of a parsed stylesheet is the text it was parsed
from, followed by what closes the loose ends.  It holds where the name of an
at-rule is written plainly; other names are printed with their escapes resolved.
-/
import ApplyRule.Document
import ApplyRule.Proofs.Grouping
import ApplyRule.Proofs.Outcome
import ApplyRule.Proofs.Reading
import ApplyRule.Proofs.Replacement

namespace ApplyRule

set_option autoImplicit false

open Text Component

/-! ## Loose ends -/

/-- What the end of a text leaves open: whether a comment is cut off, and how many
blocks of rules and at-rules have no closer. -/
structure Loose where
  comment : Bool
  blocks : Nat
  deriving DecidableEq

/-- The text that closes the loose ends, from the inside out. -/
def Loose.closing (loose : Loose) : String :=
  (if loose.comment then "*/" else "") ++ String.ofList (List.replicate loose.blocks '}')

/-- The loose ends of a body with these items and components.  Only the last
component can be left open.  It belongs to the last item, and it is that item's
comment, that item's block, or a part of its text that stays as it is. -/
def Forest.loose : Forest Item → List Component → Loose
  | .nil, _ => ⟨false, 0⟩
  | .cons item children .nil, components =>
      match components.getLast? with
      | some (.leaf lexeme) => ⟨item.kind.isComment && lexeme.isCut, 0⟩
      | some (.block _ inner none) =>
          if item.kind.isContainer then
            let inside := children.loose inner
            { inside with blocks := inside.blocks + 1 }
          else ⟨false, 0⟩
      | _ => ⟨false, 0⟩
  | .cons _ _ (.cons item children rest), components =>
      (Forest.cons item children rest).loose components

@[simp] theorem toList_closing (loose : Loose) :
    loose.closing.toList =
      (if loose.comment then ['*', '/'] else []) ++ List.replicate loose.blocks '}' := by
  unfold Loose.closing
  split <;> simp

/-- The loose ends depend on the last component only. -/
theorem loose_append (items : Forest Item) (first : List Component) {second : List Component}
    (some_ : second ≠ []) : items.loose (first ++ second) = items.loose second := by
  have same : (first ++ second).getLast? = second.getLast? := by
    rw [List.getLast?_append, Option.or_of_isSome (by simpa using some_)]
  induction items with
  | nil => rfl
  | cons item children rest _ ih =>
      cases rest with
      | nil => simp only [Forest.loose, same]
      | cons _ _ _ => simpa only [Forest.loose] using ih

/-- Nothing is loose where all components are closed. -/
theorem loose_of_closed (items : Forest Item) {components : List Component}
    (closed : ∀ c ∈ components, c.Closed) : items.loose components = ⟨false, 0⟩ := by
  induction items with
  | nil => rfl
  | cons item children rest _ ih =>
      cases rest with
      | cons _ _ _ => simpa only [Forest.loose] using ih
      | nil =>
          simp only [Forest.loose]
          split
          · rename_i lexeme last
            cases closed _ (List.mem_of_getLast? last) with
            | leaf whole => simp [whole]
          · rename_i opener inner last
            nomatch closed _ (List.mem_of_getLast? last)
          · rfl

theorem closed_of_isFiller {component : Component} (filler : component.isFiller = true) :
    component.Closed := by
  cases component with
  | block opener body closer => simp [isFiller, Component.isBlank, isLeaf] at filler
  | leaf lexeme =>
      refine .leaf ?_
      unfold Lexeme.isCut
      split
      · rename_i text comment
        simp [isFiller, Component.isBlank, isLeaf, comment] at filler
      · rfl

/-- The loose ends of a body are those of its last item. -/
theorem loose_cons {semicolon : Bool} {next : List Component} {more : Body}
    (later : Body.Reading semicolon next more) (item : Item) (children : Forest Item)
    (first : List Component) (some_ : next ≠ []) :
    (Forest.cons item children more.items).loose (first ++ next) = more.items.loose next := by
  cases items : more.items with
  | nil =>
      have closed : ∀ c ∈ next, c.Closed :=
        fun c member => closed_of_isFiller (later.fillers_of_items items c member)
      rw [loose_append _ _ some_, loose_of_closed _ closed, loose_of_closed _ closed]
  | cons _ _ _ =>
      rw [Forest.loose]
      exact loose_append _ _ some_

/-! ## Statements -/

/-- A body whose items are all comments has the flag it started with. -/
theorem semicolon_of_hasStatement {semicolon : Bool} {components : List Component} {body : Body}
    (reading : Body.Reading semicolon components body) (none_ : body.items.hasStatement = false) :
    body.semicolon = semicolon := by
  induction reading with
  | done fillers => rfl
  | simple fillers first cut later ih =>
      simp only [Body.cons, Forest.hasStatement, Bool.or_eq_false_iff] at none_
      have same := ih none_.2
      cases cut <;> simp_all [Kind.isComment, Parts.kind, Body.cons]
  | block fillers first cut inside later =>
      simp only [Body.cons, Forest.hasStatement, Bool.or_eq_false_iff] at none_
      cases cut <;> simp_all [Kind.isComment]

theorem text_ne_nil {source : List Lexeme} (written : ∀ lexeme ∈ source, lexeme.Written)
    {component : Component} (sound : component.Sound source) : component.text ≠ [] := by
  cases sound with
  | leaf own => simpa [Component.text] using (written _ own).nonempty
  | block own closed inside =>
      have := (written _ own).nonempty
      simp [Component.text, this]

/-- The parameters of an at-rule print as they are written. -/
theorem print_params {source : List Lexeme} (written : ∀ lexeme ∈ source, lexeme.Written)
    {params : List Component} (sound : ∀ c ∈ params, c.Sound source) :
    (if (String.ofList (textOf (Trimmed.read params).core)).isEmpty then ""
      else String.ofList (textOf (Trimmed.read params).lead) ++
        String.ofList (textOf (Trimmed.read params).core)).toList ++
      textOf (Trimmed.read params).trail = textOf params := by
  have whole := congrArg textOf (Trimmed.append_read params)
  simp only [textOf_append] at whole
  cases core : (Trimmed.read params).core with
  | nil =>
      have lead := Trimmed.lead_eq_nil core
      simpa [core, lead, textOf] using whole
  | cons c rest =>
      have member : c ∈ params := by
        rw [← Trimmed.append_read params, core]
        simp
      have solid := text_ne_nil written (sound c member)
      rw [core] at whole
      simp only [textOf] at whole ⊢
      simpa [solid] using whole

/-- The text of a body's items, and what follows them. -/
def Body.print (body : Body) : List Char :=
  (body.items.print body.semicolon).toList ++ body.after

/-- The name of an at-rule. -/
def Kind.atName? : Kind → Option String
  | .atRule name _ _ => some name
  | _ => none

/-- Where components start with the keyword of an at-rule, it is written plainly. -/
def PlainKeyword (components : List Component) (kind : Kind) : Prop :=
  ∀ lexeme name, components.head? = some (.leaf lexeme) → name ∈ kind.atName? →
    lexeme.text = '@' :: name.toList

/-- A statement without a block prints as it is written, up to where the next one
starts. -/
theorem print_simple {source : List Lexeme} (written : ∀ lexeme ∈ source, lexeme.Written)
    {components next : List Component} {kind : Kind} {raws : Raws} {flag : Bool}
    (cut : Piece.Cut components (.simple kind raws (some flag)) next)
    (sound : ∀ c ∈ components, c.Sound source) (plain : PlainKeyword components kind)
    (before body : String) (start : Option Location) :
    (Item.print ⟨kind, { raws with before := before }, start⟩ flag body).toList ++ textOf next =
      textOf components := by
  have semicolon {lexeme : Lexeme} (own : .leaf lexeme ∈ components)
      (ends : lexeme.token = .semicolon) : lexeme.text = [';'] := by
    cases sound _ own with
    | leaf own => exact (written _ own).mark ';' (by rw [ends]; rfl)
  cases cut with
  | @openAtRule keyword name params token within =>
      have params := print_params written fun c member => sound c (List.mem_cons_of_mem _ member)
      have keyword := plain keyword name rfl rfl
      simp only [Item.print, textOf, Component.text, keyword, ← params]
      simp
  | @atRule keyword lexeme name components params next token split within ends =>
      subst split
      have params := @print_params source written params fun c member =>
        sound c (by simp [member])
      have keyword := plain keyword name rfl rfl
      have mark := semicolon (by simp) ends
      simp only [Item.print, textOf, textOf_append, Component.text, keyword, mark, ← params]
      simp
  | openDeclaration within found =>
      rw [← Parts.append_read? found]
      simp [Item.print, Parts.kind]
  | @declaration components whole next lexeme parts split within found ends =>
      subst split
      have mark := semicolon (by simp) ends
      rw [textOf_append, ← Parts.append_read? found]
      simp [Item.print, Parts.kind, textOf, Component.text, mark]

/-- A statement with a block is its head, the block and, of a rule, its own
semicolon. -/
theorem print_block {source : List Lexeme} (written : ∀ lexeme ∈ source, lexeme.Written)
    {components next inner : List Component} {kind : Kind} {raws : Raws}
    (cut : Piece.Cut components (.block kind raws inner) next)
    (sound : ∀ c ∈ components, c.Sound source) (plain : PlainKeyword components kind) :
    kind.isContainer = true ∧ ∃ head opener closer,
      components = head ++ .block opener inner closer :: next ∧
      opener.token = .opening .curly ∧
      ∀ (body : Body) (before : String) (own : Option String) (start : Option Location)
        (flag : Bool), (kind.isRule = false → own = none) →
        (Item.print ⟨kind, { raws.enclose body with before := before, ownSemicolon := own }, start⟩
          flag (body.items.print body.semicolon)).toList =
          textOf head ++ '{' :: (body.print ++ '}' :: (own.getD "").toList) := by
  cases cut with
  | @blockAtRule keyword opener closer name components params inner next token split within opens =>
      subst split
      refine ⟨rfl, .leaf keyword :: params, opener, closer, rfl, opens, ?_⟩
      intro body before own start flag none_
      have params := @print_params source written params fun c member =>
        sound c (by simp [member])
      have keyword := plain keyword name rfl rfl
      simp only [Item.print, Raws.block, Raws.enclose, textOf, Component.text, keyword, ← params,
        none_ rfl]
      simp [Body.print]
  | @rule components whole inner next opener closer split within opens =>
      subst split
      refine ⟨rfl, whole, opener, closer, rfl, opens, ?_⟩
      intro body before own start flag _
      have selector := congrArg textOf (dropEnd_append_takeEnd Component.isBlank whole)
      rw [textOf_append] at selector
      rw [← selector]
      simp [Item.print, Raws.block, Raws.enclose, Body.print]

/-- The brackets of a block are printed as they are written. -/
theorem text_block {source : List Lexeme} (written : ∀ lexeme ∈ source, lexeme.Written)
    {opener : Lexeme} {inner : List Component} {closer : Option Lexeme}
    (sound : Sound source (.block opener inner closer)) (opens : opener.token = .opening .curly) :
    Component.text (.block opener inner closer) =
      '{' :: (textOf inner ++ if closer.isSome then ['}'] else []) := by
  cases sound with
  | block own closed inside =>
      have open_ : opener.text = ['{'] := (written _ own).mark '{' (by rw [opens]; rfl)
      cases closer with
      | none => simp [Component.text, open_]
      | some lexeme =>
          obtain ⟨member, closes⟩ := closed lexeme rfl
          have token : lexeme.token = .closing .curly := by
            rw [opens] at closes
            cases token : lexeme.token <;> simp_all [Token.closes?, Token.opens?]
          have close : lexeme.text = ['}'] := (written _ member).mark '}' (by rw [token]; rfl)
          simp [Component.text, open_, close]

/-! ## Bodies -/

/-- Every at-keyword that starts an at-rule among the items is written without
escapes: its text is an at-sign and the name. -/
def PlainNames (source : List Lexeme) (items : Forest Item) : Prop :=
  ∀ item ∈ items.labels, ∀ name ∈ item.kind.atName?, ∀ lexeme ∈ source,
    item.source = some lexeme.start → lexeme.text = '@' :: name.toList

instance (source : List Lexeme) (items : Forest Item) : Decidable (PlainNames source items) :=
  inferInstanceAs (Decidable (∀ item ∈ items.labels, ∀ name ∈ item.kind.atName?,
    ∀ lexeme ∈ source, item.source = some lexeme.start → lexeme.text = '@' :: name.toList))

theorem PlainNames.cons {source : List Lexeme} {item : Item} {children rest : Forest Item}
    (plain : PlainNames source (.cons item children rest)) :
    PlainNames source children ∧ PlainNames source rest := by
  refine ⟨fun other member => plain other ?_, fun other member => plain other ?_⟩ <;>
    simp [Forest.labels, member]

theorem PlainNames.plainKeyword {source : List Lexeme} {kind : Kind} {raws : Raws}
    {children rest : Forest Item} {component : Component} {components : List Component}
    (plain : PlainNames source (.cons ⟨kind, raws, some component.start⟩ children rest))
    (sound : ∀ c ∈ component :: components, c.Sound source) :
    PlainKeyword (component :: components) kind := by
  intro lexeme name first atRule
  cases first
  cases sound _ (List.mem_cons_self ..) with
  | leaf own =>
      exact plain _ (List.mem_cons_self ..) name atRule lexeme own rfl

theorem print_cons (item : Item) (children : Forest Item) (more : Body) :
    (more.cons item children).print =
      item.raws.before.toList ++
        (item.print (more.items.hasStatement || more.semicolon)
          (children.print item.raws.semicolon)).toList ++ more.print := by
  simp [Body.print, Body.cons, Forest.print]

/-- A comment prints as it is written, or with the end mark it lacks. -/
theorem print_comment {source : List Lexeme} (written : ∀ lexeme ∈ source, lexeme.Written)
    {lexeme : Lexeme} (own : lexeme ∈ source) {text : String}
    (token : lexeme.token = .comment text) :
    '/' :: '*' :: (text.toList ++ ['*', '/']) =
      lexeme.text ++ if lexeme.isCut then ['*', '/'] else [] := by
  cases cut : lexeme.isCut with
  | false => simp [(written _ own).comment text token cut]
  | true =>
      have : lexeme.text = '/' :: '*' :: text.toList := by simpa [Lexeme.isCut, token] using cut
      simp [this]

theorem ended_of_cut {components next : List Component} {kind : Kind} {raws : Raws} {flag : Bool}
    (cut : Piece.Cut components (.simple kind raws (some flag)) next) :
    kind.isComment = false ∧ kind.isContainer = false ∧
      (flag = false → ∀ c ∈ next, c.isFiller = true) := by
  cases cut with
  | openAtRule token within =>
      exact ⟨rfl, rfl, fun _ c member => by simp [isFiller, Trimmed.isBlank_of_mem_trail member]⟩
  | atRule token split within ends => exact ⟨rfl, rfl, by simp⟩
  | openDeclaration within found =>
      exact ⟨rfl, rfl, fun _ c member => by
        simp [isFiller, Parts.isBlank_of_mem_trail found member]⟩
  | declaration split within found ends => exact ⟨rfl, rfl, by simp⟩

/-- Where a statement's semicolon is to be printed, it was written. -/
theorem terminated_eq {components next : List Component} {kind : Kind} {raws : Raws}
    {flag : Bool} {more : Body} (cut : Piece.Cut components (.simple kind raws (some flag)) next)
    (later : Body.Reading flag next more) : (more.items.hasStatement || more.semicolon) = flag := by
  cases flag with
  | false =>
      rw [later.eq_of_fillers ((ended_of_cut cut).2.2 rfl)]
      rfl
  | true =>
      cases none_ : more.items.hasStatement with
      | false => simpa using semicolon_of_hasStatement later none_
      | true => rfl

/-- Nothing is loose in an item that is neither a comment nor a container. -/
theorem loose_simple {item : Item} (children : Forest Item) (components : List Component)
    (comment : item.kind.isComment = false) (container : item.kind.isContainer = false) :
    (Forest.cons item children .nil).loose components = ⟨false, 0⟩ := by
  rw [Forest.loose]
  split <;> simp [comment, container]

/-- A comment prints back if what follows it does. -/
theorem print_comment_cons {source : List Lexeme} (written : ∀ lexeme ∈ source, lexeme.Written)
    {lexeme : Lexeme} (own : lexeme ∈ source) {text : String}
    (token : lexeme.token = .comment text) {semicolon : Bool} {lead rest : List Component}
    {more : Body} (later : Body.Reading semicolon rest more)
    (open_ : OpenEnded (.leaf lexeme :: rest))
    (ih : more.print = textOf rest ++ (more.items.loose rest).closing.toList) {raws : Raws}
    {start : Option Location} (before : raws.before = String.ofList (textOf lead)) :
    (more.cons ⟨.comment text, raws, start⟩ .nil).print =
      textOf (lead ++ .leaf lexeme :: rest) ++
        ((more.cons ⟨.comment text, raws, start⟩ .nil).items.loose
          (lead ++ .leaf lexeme :: rest)).closing.toList := by
  have printed := print_comment written own token
  rw [print_cons, ih]
  cases rest with
  | nil =>
      have alone := later.eq_of_fillers (by simp)
      subst alone
      simp only [Item.print, Body.cons, Forest.loose, before, textOf_append, textOf,
        Component.text, List.getLast?_concat, Kind.isComment, Bool.true_and, toList_closing]
      simpa [Forest.print] using printed
  | cons first rest =>
      have whole : lexeme.isCut = false := by
        cases cut : lexeme.isCut with
        | false => rfl
        | true => cases open_.cut_last cut
      have loose := loose_cons later ⟨.comment text, raws, start⟩ .nil (lead ++ [.leaf lexeme])
        (List.cons_ne_nil first rest)
      rw [List.append_assoc, List.singleton_append] at loose
      simp only [whole, Bool.false_eq_true, if_false, List.append_nil] at printed
      simp only [Body.cons, loose, Item.print, before, textOf_append, textOf, Component.text]
      simp [← printed]

/-- A statement without a block prints back if what follows it does. -/
theorem print_simple_cons {source : List Lexeme} (written : ∀ lexeme ∈ source, lexeme.Written)
    {components lead next : List Component} {kind : Kind} {raws : Raws} {flag : Bool} {more : Body}
    (cut : Piece.Cut components (.simple kind raws (some flag)) next)
    (later : Body.Reading flag next more) (sound : ∀ c ∈ components, c.Sound source)
    (plain : PlainKeyword components kind)
    (ih : more.print = textOf next ++ (more.items.loose next).closing.toList)
    (start : Option Location) :
    (more.cons ⟨kind, { raws with before := String.ofList (textOf lead) }, start⟩ .nil).print =
      textOf (lead ++ components) ++
        ((more.cons ⟨kind, { raws with before := String.ofList (textOf lead) }, start⟩
          .nil).items.loose (lead ++ components)).closing.toList := by
  obtain ⟨comment, container, -⟩ := ended_of_cut cut
  have printed := print_simple written cut sound plain (String.ofList (textOf lead)) "" start
  have loose : (Forest.cons ⟨kind, { raws with before := String.ofList (textOf lead) }, start⟩
      .nil more.items).loose (lead ++ components) = more.items.loose next := by
    cases next with
    | nil =>
        rw [later.eq_of_fillers (by simp)]
        exact loose_simple _ _ comment container
    | cons component next =>
        obtain ⟨first, rfl⟩ := cut.suffix
        rw [← List.append_assoc]
        exact loose_cons later _ _ _ (List.cons_ne_nil _ _)
  rw [print_cons, ih, terminated_eq cut later]
  simp only [Body.cons, loose, textOf_append, Forest.print, String.toList_ofList, ← printed,
    List.append_assoc]

/-- The loose ends of an item with a closed block are those of what follows it. -/
theorem loose_closed_block {semicolon : Bool} {first skipped next inner : List Component}
    {opener closer : Lexeme} {more : Body} (later : Body.Reading semicolon next more)
    (closed : ∀ c ∈ inner, c.Closed) (fillers : ∀ c ∈ skipped, c.isFiller = true) (item : Item)
    (children : Forest Item) :
    (Forest.cons item children more.items).loose
        (first ++ .block opener inner (some closer) :: (skipped ++ next)) =
      more.items.loose next := by
  cases next with
  | nil =>
      rw [later.eq_of_fillers (by simp), List.append_nil]
      have ends : ∀ c ∈ Component.block opener inner (some closer) :: skipped, c.Closed := by
        intro c member
        rcases List.mem_cons.1 member with rfl | filler
        · exact .block closed
        · exact closed_of_isFiller (fillers c filler)
      rw [loose_append _ _ (List.cons_ne_nil _ _), loose_of_closed _ ends]
      rfl
  | cons component next =>
      have loose := loose_cons later item children
        (first ++ .block opener inner (some closer) :: skipped) (List.cons_ne_nil component next)
      rwa [List.append_assoc, List.cons_append] at loose

/-- A statement with a block prints back if the block and what follows it do. -/
theorem print_block_cons {source : List Lexeme} (written : ∀ lexeme ∈ source, lexeme.Written)
    {components lead next inner : List Component} {kind : Kind} {raws : Raws} {body more : Body}
    (cut : Piece.Cut components (.block kind raws inner) next)
    (later : Body.Reading false (ownSemicolon kind next).2 more)
    (sound : ∀ c ∈ components, c.Sound source) (open_ : OpenEnded components)
    (plain : PlainKeyword components kind)
    (ihInner : body.print = textOf inner ++ (body.items.loose inner).closing.toList)
    (ihRest : more.print = textOf (ownSemicolon kind next).2 ++
      (more.items.loose (ownSemicolon kind next).2).closing.toList)
    (start : Option Location) :
    let item : Item := ⟨kind, { raws.enclose body with
      before := String.ofList (textOf lead)
      ownSemicolon := (ownSemicolon kind next).1 }, start⟩
    (more.cons item body.items).print =
      textOf (lead ++ components) ++
        ((more.cons item body.items).items.loose (lead ++ components)).closing.toList := by
  intro item
  obtain ⟨container, head, opener, closer, split, opens, printed⟩ :=
    print_block written cut sound plain
  obtain ⟨skipped, whole, fillers, own, none_⟩ := ownSemicolon_append kind next
  have member : .block opener inner closer ∈ components := by simp [split]
  have brackets := text_block written (sound _ member) opens
  have printed : (item.print (more.items.hasStatement || more.semicolon)
      (body.items.print item.raws.semicolon)).toList =
        textOf head ++ '{' :: (body.print ++ '}' :: textOf skipped) :=
    own ▸ printed body _ (ownSemicolon kind next).1 start _ none_
  have before : item.raws.before.toList = textOf lead := String.toList_ofList
  rw [whole] at split
  have ends := open_.suffix (split ▸ List.suffix_append head _)
  rw [print_cons, printed, before, ihRest, split]
  rcases ends.block_cases with ⟨lexeme, rfl, closed⟩ | ⟨rfl, nothing, inside⟩
  · have inner : body.print = textOf inner := by
      rw [ihInner, loose_of_closed _ closed]
      simp
    have loose := fun first =>
      @loose_closed_block _ first _ _ _ opener lexeme _ later closed fillers item body.items
    simp only [Body.cons, ← List.append_assoc _ head, loose, textOf_append, textOf, brackets,
      inner]
    simp
  · obtain ⟨rfl, none_⟩ := List.append_eq_nil_iff.1 nothing
    rw [none_] at later ⊢
    have alone := later.eq_of_fillers (by simp)
    subst alone
    have loose : (Forest.cons item body.items .nil).loose
        (lead ++ (head ++ [.block opener inner none])) =
          ⟨(body.items.loose inner).comment, (body.items.loose inner).blocks + 1⟩ := by
      rw [Forest.loose, ← List.append_assoc, List.getLast?_concat]
      simp [item, container]
    simp only [Body.cons, List.nil_append, loose, textOf_append, textOf, brackets, ihInner]
    simp [List.replicate_succ', Forest.loose]

/-- What the block of a piece holds is sound, and only its end is left open. -/
theorem Piece.Cut.inside {source : List Lexeme} {components next inner : List Component}
    {kind : Kind} {raws : Raws} (cut : Piece.Cut components (.block kind raws inner) next)
    (sound : ∀ c ∈ components, c.Sound source) (open_ : OpenEnded components) :
    (∀ c ∈ inner, c.Sound source) ∧ OpenEnded inner := by
  obtain ⟨opener, closer, after⟩ := cut.block_mem
  constructor
  · cases sound _ (after.subset List.mem_cons_self) with
    | block own closed inside => exact inside
  · rcases (open_.suffix after).block_cases with ⟨_, -, closed⟩ | ⟨-, -, inside⟩
    · exact .closed closed
    · exact inside

/-- **Bodies print back.**  What a body prints is what it was read from, followed by
what closes its loose ends. -/
theorem print_reading {source : List Lexeme} (written : ∀ lexeme ∈ source, lexeme.Written)
    {semicolon : Bool} {components : List Component} {body : Body}
    (reading : Body.Reading semicolon components body)
    (sound : ∀ c ∈ components, c.Sound source) (open_ : OpenEnded components)
    (plain : PlainNames source body.items) :
    body.print = textOf components ++ (body.items.loose components).closing.toList := by
  induction reading with
  | done fillers => simp [Body.print, Forest.print, Forest.loose]
  | @simple semicolon lead rest next component kind raws ended more fillers first cut later ih =>
      have sound := fun c member => sound c (List.mem_append_right lead member)
      have open_ := open_.suffix (List.suffix_append lead _)
      have keyword := plain.plainKeyword sound
      have ih := ih (fun c member => sound c (cut.suffix.subset member))
        (open_.suffix cut.suffix) plain.cons.2
      cases ended with
      | some flag => exact print_simple_cons written cut later sound keyword ih _
      | none =>
          cases cut with
          | comment token =>
              cases sound _ (List.mem_cons_self ..) with
              | leaf own => exact print_comment_cons written own token later open_ ih rfl
  | @block semicolon lead rest next inner component kind raws body more fillers first cut inside
      later ihInner ihRest =>
      have sound := fun c member => sound c (List.mem_append_right lead member)
      have open_ := open_.suffix (List.suffix_append lead _)
      have keyword := plain.plainKeyword sound
      obtain ⟨soundInner, openInner⟩ := cut.inside sound open_
      obtain ⟨skipped, whole, -⟩ := ownSemicolon_append kind next
      have own : (ownSemicolon kind next).2 <:+ next := ⟨skipped, whole.symm⟩
      have following := own.trans cut.suffix
      have ihInner := ihInner soundInner openInner plain.cons.1
      have ihRest := ihRest (fun c member => sound c (following.subset member))
        (open_.suffix following) plain.cons.2
      exact print_block_cons written cut later sound open_ keyword ihInner ihRest _

/-! ## Documents -/

/-- The items below a document's root. -/
def Document.items (document : Document) : Forest Item :=
  ((document.find? document.root).map fun found => found.2.items).getD .nil

theorem find?_root_ofBody (body : Body) :
    (Document.ofBody body).find? (Document.ofBody body).root =
      some (body.root, body.items.number 2) := rfl

/-- **A stylesheet prints back.**  Where every at-keyword that starts an at-rule is
written plainly, a parsed stylesheet prints as the text it was parsed from,
followed by the end mark of a comment that is cut off and a bracket for each block
of a rule or an at-rule that is never closed.  Where all are closed, nothing
follows. -/
theorem css_parse {css : String} {document : Document} (parsed : Document.parse css = .ok document)
    (plain : PlainNames (lexemes css.toList) document.items) :
    document.css = css ++ (document.items.loose (Component.read css.toList)).closing ∧
      (document.items.loose (Component.read css.toList) = ⟨false, 0⟩ → document.css = css) := by
  unfold Document.parse at parsed
  cases read : Body.parse css with
  | error error => simp [read, Except.map] at parsed
  | ok body =>
      simp only [read, Except.map, Except.ok.injEq] at parsed
      subst parsed
      have items : (Document.ofBody body).items = body.items := by
        simp [Document.items, find?_root_ofBody]
      have printed : (Document.ofBody body).css.toList = body.print := by
        simp [Document.css, Document.print?, find?_root_ofBody, Item.printTree, Item.print,
          Body.root, Raws.enclose, Body.print]
      rw [items] at plain ⊢
      have text := print_reading (fun _ => written_of_mem_lexemes) (reading_of_parse read)
        (sound_read css.toList) (openEnded_read css.toList) plain
      rw [← printed, textOf_read] at text
      refine ⟨String.toList_inj.1 (by simpa using text), fun closed => ?_⟩
      rw [closed] at text
      exact String.toList_inj.1 (by simpa using text)

/-- The end of `@m{a{b:c;/*d` cuts off a comment in a rule in an at-rule. -/
theorem css_parse_unclosed :
    ∃ document, Document.parse "@m\x7ba\x7bb:c;/*d" = .ok document ∧
      PlainNames (lexemes "@m\x7ba\x7bb:c;/*d".toList) document.items ∧
      document.css = "@m\x7ba\x7bb:c;/*d*/\x7d\x7d" := by
  obtain ⟨document, parsed, computed⟩ := exists_ok_of_any (Document.parse "@m\x7ba\x7bb:c;/*d")
    (fun document => decide (PlainNames (lexemes "@m\x7ba\x7bb:c;/*d".toList) document.items ∧
      document.items.loose (Component.read "@m\x7ba\x7bb:c;/*d".toList) = ⟨true, 2⟩))
    (by decide +kernel)
  obtain ⟨plain, loose⟩ := of_decide_eq_true computed
  refine ⟨document, parsed, plain, (css_parse parsed plain).1.trans ?_⟩
  rw [loose]
  decide +kernel

end ApplyRule
