/-
# ApplyRule.Proofs.Formatting -- no statement hides in the formatting

The formatting of an item is text that is kept only to print it back.  A stylesheet
would print back as it was written even if a part of a statement had ended up there.
It never does (`formatted_of_parse`): in a parsed document

* only blanks and semicolons stand before an item and at the end of a container;
* only blanks stand after an at-rule's name, before a block, and before the semicolon
  of a declaration or an at-rule;
* around a declaration's colon stand spaces before it and blanks after it;
* a rule's own semicolon has only blanks before it.

Blanks are the white space of stylesheets.  Spaces are the white space of Unicode,
which is more: a property is trimmed of them.
-/
import ApplyRule.Proofs.Origin
import ApplyRule.Proofs.Outcome

namespace ApplyRule

set_option autoImplicit false

open Text Component

/-- The text is white space. -/
def Blank (text : String) : Prop :=
  ∀ c ∈ text.toList, isBlank c = true

/-- The text is made of white space and semicolons. -/
def Filling (text : String) : Prop :=
  ∀ c ∈ text.toList, isBlank c = true ∨ c = ';'

/-- The text has a colon, with spaces before it and blanks after it. -/
def AroundColon (text : String) : Prop :=
  ∃ spaces blanks, text.toList = spaces ++ ':' :: blanks ∧ (∀ c ∈ spaces, isSpace c = true) ∧
    ∀ c ∈ blanks, isBlank c = true

/-- The text is a semicolon with blanks before it. -/
def BeforeSemicolon (text : String) : Prop :=
  ∃ blanks, text.toList = blanks ++ [';'] ∧ ∀ c ∈ blanks, isBlank c = true

/-- The formatting of an item holds nothing but what separates statements. -/
structure Item.Formatted (item : Item) : Prop where
  before : Filling item.raws.before
  afterName : Blank item.raws.afterName
  between : item.kind.isDeclaration = false → Blank item.raws.between
  colon : item.kind.isDeclaration = true → AroundColon item.raws.between
  after : item.kind.isContainer = false → Blank item.raws.after
  ending : item.kind.isContainer = true → Filling item.raws.after
  ownSemicolon : ∀ text, item.raws.ownSemicolon = some text → BeforeSemicolon text

theorem blank_empty : Blank "" :=
  fun _ member => nomatch member

theorem filling_empty : Filling "" :=
  fun _ member => nomatch member

/-! ## Components that separate statements -/

namespace Component

variable {source : List Char} {components : List Component} {component : Component} {c : Char}

theorem mem_textOf (member : c ∈ textOf components) : ∃ component ∈ components,
    c ∈ component.text := by
  induction components with
  | nil => cases member
  | cons first rest ih =>
      rcases List.mem_append.mp member with own | later
      · exact ⟨first, List.mem_cons_self, own⟩
      · obtain ⟨other, among, inside⟩ := ih later
        exact ⟨other, List.mem_cons_of_mem first among, inside⟩

/-- A leaf of a mark is that one character. -/
theorem Sound.text_mark {token : Token} {m : Char} (sound : component.Sound (lexemes source))
    (leaf : component.isLeaf token = true) (marked : token.mark? = some m) :
    component.text = [m] := by
  cases sound with
  | leaf own =>
      have same := of_decide_eq_true leaf
      exact (written_of_mem_lexemes own).mark m (same ▸ marked)
  | block own closed inside => cases leaf

theorem Sound.text_blank (sound : component.Sound (lexemes source))
    (blank : component.isBlank = true) : ∀ c ∈ component.text, Text.isBlank c = true := by
  cases sound with
  | leaf own => exact blank_of_mem_lexemes own (of_decide_eq_true blank)
  | block own closed inside => cases blank

variable (sound : ∀ component ∈ components, component.Sound (lexemes source))

include sound

theorem textOf_blank (blank : ∀ component ∈ components, component.isBlank = true) :
    Blank (String.ofList (textOf components)) := by
  intro c member
  obtain ⟨component, among, inside⟩ := mem_textOf (String.toList_ofList ▸ member)
  exact (sound component among).text_blank (blank component among) c inside

theorem textOf_filling (fillers : ∀ component ∈ components, component.isFiller = true) :
    Filling (String.ofList (textOf components)) := by
  intro c member
  obtain ⟨component, among, inside⟩ := mem_textOf (String.toList_ofList ▸ member)
  rcases Bool.or_eq_true_iff.mp (fillers component among) with blank | semicolon
  · exact .inl ((sound component among).text_blank blank c inside)
  · rw [(sound component among).text_mark semicolon rfl, List.mem_singleton] at inside
    exact .inr inside

end Component

/-! ## What trimming leaves -/

theorem Trimmed.isBlank_of_mem_lead {components : List Component} {c : Component}
    (member : c ∈ (read components).lead) : c.isBlank = true := by
  unfold read at member
  split at member
  · cases member
  · exact List.mem_takeWhile_imp member

section Trimmed

variable {source : List Char} {components : List Component}
  (sound : ∀ component ∈ components, component.Sound (lexemes source))

include sound

theorem Trimmed.lead_blank : Blank (String.ofList (textOf (read components).lead)) := by
  refine textOf_blank (fun c member => sound c ?_) fun c => isBlank_of_mem_lead
  rw [← append_read components]
  exact List.mem_append_left _ member

theorem Trimmed.trail_blank : Blank (String.ofList (textOf (read components).trail)) :=
  textOf_blank (fun c member => sound c ((trail_suffix components).subset member))
    fun _ => isBlank_of_mem_trail

theorem takeEnd_blank : Blank (String.ofList (textOf (takeEnd Component.isBlank components))) :=
  textOf_blank (fun c member => sound c (List.mem_of_mem_drop member)) fun _ => mem_takeEnd

theorem Parts.trail_blank {parts : Parts} (found : read? components = some parts) :
    Blank (String.ofList (textOf parts.trail)) :=
  textOf_blank (fun c member => sound c ((trail_suffix found).subset member))
    fun _ => isBlank_of_mem_trail found

theorem Parts.aroundColon {parts : Parts} (found : read? components = some parts) :
    AroundColon (String.ofList parts.between) := by
  unfold read? at found
  split at found
  · cases found
  · rename_i colon tail split_
    cases found
    obtain ⟨whole, isColon⟩ := eq_takeWhile_append split_
    have own : ∀ c ∈ colon :: tail, c.Sound (lexemes source) := fun c member =>
      sound c (whole ▸ List.mem_append_right _ member)
    have written := (own colon List.mem_cons_self).text_mark isColon rfl
    refine ⟨takeEnd isSpace (textOf (components.takeWhile fun c => !c.isLeaf .colon)),
      textOf (Trimmed.read tail).lead, ?_, fun c => mem_takeEnd, fun c member => ?_⟩
    · rw [String.toList_ofList, written, List.append_assoc]
      rfl
    · refine Trimmed.lead_blank (fun c member => own c (List.mem_cons_of_mem colon member)) c ?_
      rwa [String.toList_ofList]

theorem ownSemicolon_blank {kind : Kind} {text : String}
    (own : (ownSemicolon kind components).1 = some text) : BeforeSemicolon text := by
  unfold ownSemicolon at own
  split at own
  · cases own
  · split at own
    · cases own
    · rename_i component rest split_
      split at own
      · rename_i semicolon
        cases own
        have member : component ∈ components :=
          (split_ ▸ List.dropWhile_suffix _ : component :: rest <:+ components).subset
            List.mem_cons_self
        have blank := textOf_blank
          (fun c member => sound c ((List.takeWhile_sublist _).subset member))
          fun c (member : c ∈ components.takeWhile Component.isBlank) =>
            List.mem_takeWhile_imp member
        refine ⟨textOf (components.takeWhile Component.isBlank), ?_, fun c among => ?_⟩
        · rw [String.toList_ofList, (sound component member).text_mark semicolon rfl]
        · exact blank c (by rwa [String.toList_ofList])
      · cases own

end Trimmed

/-! ## Items -/

/-- What follows the items of a body is made of fillers. -/
theorem Body.Reading.after_eq {semicolon : Bool} {components : List Component} {body : Body}
    (reading : Body.Reading semicolon components body) :
    ∃ fillers, fillers <:+ components ∧ (∀ c ∈ fillers, c.isFiller = true) ∧
      body.after = textOf fillers := by
  induction reading with
  | done fillers => exact ⟨_, List.suffix_refl _, fillers, rfl⟩
  | simple _ _ cut _ ih =>
      obtain ⟨fillers, suffix, all, same⟩ := ih
      exact ⟨fillers, suffix.trans (cut.suffix.trans (List.suffix_append _ _)), all, same⟩
  | @block _ _ _ next _ _ kind _ _ _ _ _ cut _ _ _ ih =>
      obtain ⟨fillers, suffix, all, same⟩ := ih
      exact ⟨fillers, suffix.trans ((ownSemicolon_suffix kind next).trans
        (cut.suffix.trans (List.suffix_append _ _))), all, same⟩

theorem Body.Reading.after_filling {source : List Char} {semicolon : Bool}
    {components : List Component} {body : Body}
    (reading : Body.Reading semicolon components body)
    (sound : ∀ c ∈ components, c.Sound (lexemes source)) :
    Filling (String.ofList body.after) := by
  obtain ⟨fillers, suffix, all, same⟩ := reading.after_eq
  rw [same]
  exact textOf_filling (fun c member => sound c (suffix.subset member)) all

theorem Item.Origin.formatted {source : List Char} {item : Item}
    (origin : Item.Origin (Within · (Component.read source)) item) : item.Formatted := by
  cases origin with
  | @simple lead rest next component kind raws ended place fillers cut =>
      have sound := place.sound (sound_read source)
      have before : Filling (String.ofList (textOf lead)) :=
        textOf_filling (fun c member => sound c (List.mem_append_left _ member)) fillers
      replace sound : ∀ c ∈ component :: rest, c.Sound (lexemes source) :=
        fun c member => sound c (List.mem_append_right lead member)
      cases cut with
      | comment token =>
          exact ⟨before, blank_empty, fun _ => blank_empty, nofun, fun _ => blank_empty, nofun,
            nofun⟩
      | openAtRule token within =>
          have params := fun c member => sound c (List.mem_cons_of_mem _ member)
          exact ⟨before, Trimmed.lead_blank params, fun _ => blank_empty, nofun,
            fun _ => blank_empty, nofun, nofun⟩
      | atRule token split within ends =>
          have params := fun c member =>
            sound c (List.mem_cons_of_mem _ (split ▸ List.mem_append_left _ member))
          exact ⟨before, Trimmed.lead_blank params, fun _ => Trimmed.trail_blank params, nofun,
            fun _ => blank_empty, nofun, nofun⟩
      | openDeclaration within found =>
          exact ⟨before, blank_empty, nofun, fun _ => Parts.aroundColon sound found,
            fun _ => blank_empty, nofun, nofun⟩
      | declaration split within found ends =>
          have whole := fun c member => sound c (split ▸ List.mem_append_left _ member)
          exact ⟨before, blank_empty, nofun, fun _ => Parts.aroundColon whole found,
            fun _ => Parts.trail_blank whole found, nofun, nofun⟩
  | @block lead rest next inner component kind raws body place fillers cut inside =>
      have sound := place.sound (sound_read source)
      have before : Filling (String.ofList (textOf lead)) :=
        textOf_filling (fun c member => sound c (List.mem_append_left _ member)) fillers
      replace sound : ∀ c ∈ component :: rest, c.Sound (lexemes source) :=
        fun c member => sound c (List.mem_append_right lead member)
      have own (text : String) : (ownSemicolon kind next).1 = some text → BeforeSemicolon text :=
        ownSemicolon_blank fun c member => sound c (cut.suffix.subset member)
      obtain ⟨opener, closer, suffix⟩ := cut.block_mem
      have ending := inside.after_filling
        ((Within.block (.last suffix)).sound sound)
      cases cut with
      | blockAtRule token split within opens =>
          have params := fun c member =>
            sound c (List.mem_cons_of_mem _ (split ▸ List.mem_append_left _ member))
          exact ⟨before, Trimmed.lead_blank params, fun _ => Trimmed.trail_blank params, nofun,
            nofun, fun _ => ending, own⟩
      | rule split within opens ends =>
          have whole := fun c member => sound c (split ▸ List.mem_append_left _ member)
          exact ⟨before, blank_empty, fun _ => takeEnd_blank whole, nofun, nofun, fun _ => ending,
            own⟩

/-- Nothing that was written is a root. -/
theorem Item.Origin.isRoot {place : List Component → Prop} {item : Item}
    (origin : Item.Origin place item) : item.kind.isRoot = false := by
  cases origin with
  | simple place fillers cut => exact cut.isRoot_simple
  | block place fillers cut inside => exact cut.isContainer_block.1

/-! ## Documents -/

/-- **No statement hides in the formatting** of a parsed document, only containers have
children, and only the root is a root. -/
theorem formatted_of_parse {css : String} {document : Document} {id : NodeId} {item : Item}
    {children : Forest Node} (parsed : Document.parse css = .ok document)
    (found : document.find? id = some (item, children)) :
    item.Formatted ∧ (item.kind.isContainer = false → children = .nil) ∧
      (item.kind = .root ↔ id = document.root) := by
  have housed := Forest.housed_of_find? (Document.sound_of_parse parsed).housed found
  have bare : item.kind.isContainer = false → children = .nil := fun bare => by
    rcases housed.1 with empty | container
    · exact empty
    · rw [bare] at container
      cases container
  rcases Document.origin_of_parse parsed found with
    ⟨isRoot, body, reading, rfl⟩ | ⟨notRoot, origin⟩
  · refine ⟨?_, bare, fun _ => isRoot, fun _ => rfl⟩
    exact ⟨filling_empty, blank_empty, fun _ => blank_empty, nofun, nofun,
      fun _ => reading.after_filling (sound_read css.toList), nofun⟩
  · refine ⟨origin.formatted, bare, fun isRoot => ?_, fun same => absurd same notRoot⟩
    have other := origin.isRoot
    rw [isRoot] at other
    cases other

/-- A rule with a semicolon of its own, after a free one. -/
theorem formatted_of_parse_rule :
    ∃ document item children, Document.parse " ; a \x7b b : c ; \x7d ;" = .ok document ∧
      document.find? ⟨2⟩ = some (item, children) ∧ item.raws.before = " ; " ∧
      item.raws.ownSemicolon = some " ;" ∧ item.Formatted ∧
      (item.kind.isContainer = false → children = .nil) ∧
      (item.kind = .root ↔ (⟨2⟩ : NodeId) = document.root) := by
  obtain ⟨document, parsed, computed⟩ := exists_ok_of_any
    (Document.parse " ; a \x7b b : c ; \x7d ;")
    (fun document => (document.find? ⟨2⟩).any fun node =>
      node.1.raws.before = " ; " && node.1.raws.ownSemicolon = some " ;")
    (by decide +kernel)
  obtain ⟨⟨item, children⟩, found, raws⟩ := (Option.any_eq_true ..).mp computed
  simp only [Bool.and_eq_true, decide_eq_true_eq] at raws
  exact ⟨document, item, children, parsed, found, raws.1, raws.2, formatted_of_parse parsed found⟩

end ApplyRule
