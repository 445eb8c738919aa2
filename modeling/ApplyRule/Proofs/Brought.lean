/-
# ApplyRule.Proofs.Brought -- all that a value brings is read

The definitions in a value wait in a queue: those in the text after a block are put behind
all that wait, and with as many rounds as the value has characters the queue runs empty.
So a value is read only if every definition that it brings is (`expandAll_brought`): each
has a closed block, a body that can be parsed, and a text after the block that can be
parsed, and all items of that text that define no set are among those of the expansion.

A text after a block is not parsed if it is blank.  Parsing it would come to the same where
it succeeds, for whatever an item is read from has a character that is no white space
(`trailing?_of_parse`).
-/
import ApplyRule.Proofs.Expanding
import ApplyRule.Proofs.UnclosedBody

namespace ApplyRule

set_option autoImplicit false

open Text Component Scan

/-! ## Blank texts -/

/-- A token that items of some kind are read from. -/
def Token.startsItem : Token → Bool
  | .comment _ => true
  | .atKeyword _ => true
  | .colon => true
  | .opening .curly => true
  | _ => false

theorem Token.startsItem_ite {test : Prop} {_ : Decidable test} {one other : Token × Nat}
    (passed : one.1.startsItem = false) (failed : other.1.startsItem = false) :
    (if test then one else other).1.startsItem = false := by
  split
  · exact passed
  · exact failed

theorem startsItem_numeric (text : List Char) : (numeric text).1.startsItem = false := by
  unfold numeric
  dsimp only
  split
  · rfl
  · split <;> rfl

theorem startsItem_urlToken? {text : List Char} {token : Token} {length : Nat}
    (found : urlToken? text = some (token, length)) : token.startsItem = false := by
  unfold urlToken? at found
  dsimp only at found
  split at found
  · cases found; rfl
  · split at found
    · cases found
    · split at found <;> cases found <;> rfl

theorem startsItem_identLike (text : List Char) : (identLike text).1.startsItem = false := by
  unfold identLike
  dsimp only
  split
  · split
    · split
      · rename_i found
        exact startsItem_urlToken? found
      · rfl
    · rfl
  · rfl

/-- No item starts with white space. -/
theorem Token.startsItem_read {c : Char} {rest : List Char} (space : isSpace c = true) :
    (Token.read c rest).1.startsItem = false := by
  have notAt : c ≠ '@' := by rintro rfl; cases space
  have notSlash : c ≠ '/' := by rintro rfl; cases space
  unfold Token.read
  simp only [notAt, notSlash, decide_false, Bool.false_and, Bool.false_eq_true, if_false]
  refine startsItem_ite rfl (startsItem_ite ?_ (startsItem_ite ?_ (startsItem_ite rfl
    (startsItem_ite ?_ (startsItem_ite rfl (startsItem_ite ?_ ?_))))))
  · dsimp only
    split <;> rfl
  · split
    · rfl
    · split <;> rfl
  · exact startsItem_numeric (c :: rest)
  · exact startsItem_identLike (c :: rest)
  · split
    · rename_i found
      unfold matcher? at found
      split at found <;> cases found <;> rfl
    · unfold single
      split <;> first | rfl | cases space

theorem visible_of_mem_lexemes {here : Location} {text : List Char} {lexeme : Lexeme}
    (found : lexeme ∈ lexemesFrom here text) (starts : lexeme.token.startsItem = true) :
    ∃ c ∈ lexeme.text, isSpace c = false := by
  fun_induction lexemesFrom here text with
  | case1 => cases found
  | case2 here c rest token length read own ih =>
      rcases List.mem_cons.1 found with rfl | later
      · refine ⟨c, List.mem_cons_self, Bool.eq_false_iff.mpr fun space => ?_⟩
        have other : (Token.read c rest).1.startsItem = false := Token.startsItem_read space
        rw [read] at other
        exact Bool.false_ne_true (other.symm.trans starts)
      · exact ih later

theorem mem_textOf_of_mem {component : Component} {components : List Component}
    (member : component ∈ components) {c : Char} (inside : c ∈ component.text) :
    c ∈ textOf components := by
  obtain ⟨before, after, rfl⟩ := List.append_of_mem member
  simp [textOf, inside]

/-- A component whose token starts an item has a character that is no white space. -/
theorem Component.Sound.visible {text : List Char} {component : Component}
    (sound : component.Sound (lexemes text)) (starts : component.token.startsItem = true) :
    ∃ c ∈ component.text, isSpace c = false := by
  cases sound with
  | leaf own => exact visible_of_mem_lexemes own starts
  | block own closed inside =>
      obtain ⟨c, member, visible⟩ := visible_of_mem_lexemes own starts
      exact ⟨c, by simp [Component.text, member], visible⟩

/-- Every item is read from a component whose token starts one. -/
theorem Piece.Cut.startsItem {components next : List Component} {piece : Piece}
    (cut : Piece.Cut components piece next) :
    ∃ component ∈ components, component.token.startsItem = true := by
  have parts {components : List Component} {parts : Parts}
      (found : Parts.read? components = some parts) :
      ∃ component ∈ components, component.token.startsItem = true := by
    unfold Parts.read? at found
    split at found
    · cases found
    · rename_i colon tail split_
      obtain ⟨whole, isColon⟩ := eq_takeWhile_append split_
      refine ⟨colon, by rw [whole]; simp, ?_⟩
      cases colon with
      | leaf lexeme =>
          rw [Component.token, Component.head, of_decide_eq_true isColon]
          rfl
      | block => cases isColon
  have block {opener : Lexeme} {body rest before : List Component} {closer : Option Lexeme}
      (opens : opener.token = .opening .curly) :
      ∃ component ∈ before ++ .block opener body closer :: rest,
        component.token.startsItem = true :=
    ⟨_, List.mem_append_right _ List.mem_cons_self,
      by rw [Component.token, Component.head, opens]; rfl⟩
  cases cut with
  | comment token =>
      exact ⟨_, List.mem_cons_self, by rw [Component.token, Component.head, token]; rfl⟩
  | openAtRule token =>
      exact ⟨_, List.mem_cons_self, by rw [Component.token, Component.head, token]; rfl⟩
  | atRule token =>
      exact ⟨_, List.mem_cons_self, by rw [Component.token, Component.head, token]; rfl⟩
  | blockAtRule token =>
      exact ⟨_, List.mem_cons_self, by rw [Component.token, Component.head, token]; rfl⟩
  | openDeclaration within found => exact parts found
  | declaration split within found ends =>
      obtain ⟨component, member, starts⟩ := parts found
      exact ⟨component, by rw [split]; simp [member], starts⟩
  | rule split within opens ends => exact split ▸ block opens

/-- White space is no item. -/
theorem items_eq_nil_of_blank {text : List Char} {body : Body}
    (parsed : Body.parse (String.ofList text) = .ok body) (blank : ∀ c ∈ text, isSpace c = true) :
    body.items = .nil := by
  have reading := reading_of_parse parsed
  have sound := sound_read (String.ofList text).toList
  rw [String.toList_ofList] at reading sound
  have whole := textOf_read text
  generalize Component.read text = components at reading sound whole
  have none_ {lead rest next : List Component} {component : Component} {piece : Piece}
      (shape : components = lead ++ component :: rest)
      (cut : Piece.Cut (component :: rest) piece next) : False := by
    obtain ⟨one, member, starts⟩ := cut.startsItem
    have among : one ∈ components := shape ▸ List.mem_append_right lead member
    obtain ⟨c, inside, visible⟩ := (sound one among).visible starts
    exact Bool.false_ne_true
      (visible.symm.trans (blank c (whole ▸ mem_textOf_of_mem among inside)))
  cases reading with
  | done => rfl
  | simple fillers first cut later => exact (none_ rfl cut).elim
  | block fillers first cut inside later => exact (none_ rfl cut).elim

theorem isSpace_of_trim {text : List Char} (blank : (trim text).isEmpty = true) :
    ∀ c ∈ text, isSpace c = true := by
  rw [List.isEmpty_iff] at blank
  have tail := dropEnd_eq_nil blank
  have none_ : text.dropWhile isSpace = [] := by
    cases rest : text.dropWhile isSpace with
    | nil => rfl
    | cons c rest' =>
        have solid := List.head?_dropWhile_not isSpace text
        rw [rest] at tail solid
        simp [tail c List.mem_cons_self] at solid
  exact List.dropWhile_eq_nil_iff.mp none_

/-- Where the text after a block can be parsed, its items are those that are parsed. -/
theorem trailing?_of_parse {after : List Char} {body : Body}
    (parsed : Body.parse (String.ofList after) = .ok body) : trailing? after = some body.items := by
  unfold trailing?
  split
  · rename_i blank
    rw [items_eq_nil_of_blank parsed (isSpace_of_trim blank)]
  · rw [parsed]
    rfl

/-! ## The queue -/

section Queue

variable {source : Option Location} {name value held : String}

/-- A definition that is brought is the one itself, or it is brought by one in the text after
its block. -/
theorem Brings.first (brought : Brings value held) :
    held = value ∨ ∃ split body item next, split? .curly value.toList = some split ∧
      Body.parse (String.ofList split.after) = .ok body ∧ item ∈ body.items.roots ∧
      item.kind.definition? = some next ∧ Brings next.2 held := by
  induction brought with
  | own => exact .inl rfl
  | later _ cut parsed member definition ih =>
      right
      rcases ih with rfl | ⟨split, body, item, next, cut', parsed', member', definition', more⟩
      · exact ⟨_, _, _, _, cut, parsed, member, definition, .own⟩
      · exact ⟨split, body, item, next, cut', parsed', member', definition',
          more.later cut parsed member definition⟩

/-- A definition with the value `held` can be read: its block is closed, its body and the text
after its block can be parsed, and what defines no set there is among `items`. -/
def ReadInto (source : Option Location) (held : String) (items : Forest Item) : Prop :=
  ∃ split body after, split? .curly held.toList = some split ∧
    Body.parse (String.ofList split.body) = .ok body ∧ trailing? split.after = some after ∧
    ∀ item ∈ after.roots, item.kind.definition? = none → item.stamp source ∈ items.roots

theorem ReadInto.mono {items more : Forest Item} (read : ReadInto source held items)
    (wider : ∀ item ∈ items.roots, item ∈ more.roots) : ReadInto source held more := by
  obtain ⟨split, body, after, cut, parsed, trails, among⟩ := read
  exact ⟨split, body, after, cut, parsed, trails, fun item inside plain =>
    wider _ (among item inside plain)⟩

theorem mem_roots_undefining {items : Forest Item} {item : Item} (member : item ∈ items.roots)
    (plain : item.kind.definition? = none) : item ∈ items.undefining.roots := by
  induction items with
  | nil => cases member
  | cons first children rest _ ih =>
      rw [Forest.undefining]
      rcases List.mem_cons.mp member with rfl | later
      · rw [plain, Option.isSome_none, if_neg Bool.false_ne_true]
        exact List.mem_cons_self
      · split
        · exact ih later
        · exact List.mem_cons_of_mem _ (ih later)

/-- **Every definition that is brought is read.**  With more rounds than characters wait, the
queue runs empty, and each of them has come up. -/
theorem expandAll_brought {rounds : Nat} {pending : List (String × String)} {expansion : Expansion}
    (enough : waiting pending < rounds) (read : expandAll source rounds pending = .ok expansion)
    {first : String × String} (member : first ∈ pending) (brought : Brings first.2 held) :
    ReadInto source held expansion.items := by
  induction rounds generalizing pending expansion first with
  | zero => cases enough
  | succ rounds ih =>
      cases pending with
      | nil => cases member
      | cons head pending =>
          obtain ⟨one, more, first', later, rfl⟩ := exists_of_expandAll read
          have whole : (one.items ++ more.items).roots =
              one.items.roots ++ more.items.roots := Forest.roots_append ..
          -- What waits behind, or comes from the text after the block, is read later.
          have behind : ∀ next : String × String, next ∈ pending ++ one.pending →
              Brings next.2 held → ReadInto source held (one.items ++ more.items) :=
            fun next waits brought => (ih (waiting_round first' enough) later waits brought).mono
              fun item inside => whole ▸ List.mem_append_right _ inside
          rcases List.mem_cons.mp member with rfl | waits
          · obtain ⟨split, body, after, cut, parsed, trails, rfl⟩ := exists_of_expandOne first'
            rcases brought.first with rfl | ⟨_, rest, item, next, cut', parsed', among,
              definition, more'⟩
            · refine ⟨split, body, after, cut, parsed, trails, fun item inside plain => ?_⟩
              refine whole ▸ List.mem_append_left _ (mem_roots_undefining ?_ plain)
              rw [Forest.roots_map]
              exact List.mem_map_of_mem inside
            · cases cut.symm.trans cut'
              cases trails.symm.trans (trailing?_of_parse parsed')
              refine behind next (List.mem_append_right _ ?_) more'
              show next ∈ (rest.items.map (·.stamp source)).pending
              rw [pending_stamp]
              exact List.mem_filterMap.mpr ⟨item, among, definition⟩
          · exact behind first (List.mem_append_left _ waits) brought

theorem expand_brought {expansion : Expansion} (read : expand source name value = .ok expansion)
    (brought : Brings value held) : ReadInto source held expansion.items := by
  have enough : waiting [(name, value)] < value.length + 1 := Nat.lt_succ_self _
  exact expandAll_brought enough read List.mem_cons_self brought

end Queue

end ApplyRule
