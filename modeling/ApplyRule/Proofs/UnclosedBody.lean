/-
# ApplyRule.Proofs.UnclosedBody -- the body of a set that is never closed

A value that starts with a block is split around the block where the text closes it, and
there is no split only if the block is still open where the text ends
(`split_value_of_parse`).

A definition brings others with it, those in the text after its block (`Brings`).  Where its
value cannot be read, that is because it or one of them is `Malformed` (`expand_malformed`).
It is reported as unclosed only if one of them cannot be split (`Malformed.exists_unclosed`),
as no text that cannot be parsed has that fault (`Body.fault_parse_ne`).  Such a value ends
inside its block, and so does every text around it (`Brings.endsOpen`), up to the text of the
document.
-/
import ApplyRule.Pass.Definition
import ApplyRule.Proofs.BodyEnd
import ApplyRule.Proofs.Outcome

namespace ApplyRule

set_option autoImplicit false

open Text Component

/-! ## Definitions in a value -/

/-- A value that starts with a block has a component for it. -/
theorem exists_block {source : List Char} {components after : List Component}
    (place : Within (components ++ after) (Component.read source))
    (first : (textOf components).head? = some '{') :
    ∃ opener body closer rest, components = .block opener body closer :: rest ∧
      opener.token = .opening .curly := by
  cases components with
  | nil => cases first
  | cons component rest =>
      have among : component ∈ component :: rest ++ after := List.mem_cons_self
      have sound := place.sound (sound_read source) component among
      have front : component.text.head? = some '{' := by
        cases text : component.text with
        | nil => exact absurd text (text_ne_nil (fun _ => written_of_mem_lexemes) sound)
        | cons c more => simpa [textOf, text] using first
      have token := sound.token_eq rfl front
      have curly := (place.placed (placed_read source)).isCurlyBlock among token
      cases component with
      | leaf lexeme => cases curly
      | block opener body closer => exact ⟨opener, body, closer, rest, rfl, token⟩

/-- A definition brings itself, and the definitions in the text after the block of each that it
brings. -/
inductive Brings (value : String) : String → Prop where
  | own : Brings value value
  | later {held : String} {split : Split} {body : Body} {item : Item} {next : String × String}
      (brought : Brings value held) (cut : split? .curly held.toList = some split)
      (parsed : Body.parse (String.ofList split.after) = .ok body)
      (member : item ∈ body.items.roots) (definition : item.kind.definition? = some next) :
      Brings value next.2

/-- Why a value cannot be read: for some definition that it brings, the block is not closed, or
the text in the block or the text after it cannot be parsed.  Of white space after a block
nothing is parsed. -/
inductive Malformed (source : Option Location) (value : String) : ParseError → Prop where
  | unclosed {held : String} (brought : Brings value held)
      (unsplit : split? .curly held.toList = none) :
      Malformed source value ⟨.unclosedBody, source.getD ⟨0, 0⟩⟩
  | body {held : String} {split : Split} {error : ParseError} (brought : Brings value held)
      (cut : split? .curly held.toList = some split)
      (failed : Body.parse (String.ofList split.body) = .error error) :
      Malformed source value error
  | after {held : String} {split : Split} {error : ParseError} (brought : Brings value held)
      (cut : split? .curly held.toList = some split) (written : (trim split.after).isEmpty = false)
      (failed : Body.parse (String.ofList split.after) = .error error) :
      Malformed source value error

/-- The text after a block is the text of the components after it. -/
theorem Split.exists_after {bracket : Bracket} {components : List Component} {split : Split}
    (cut : Split.ofComponents? bracket components = some split) :
    ∃ rest, rest <:+ components ∧ split.after = textOf rest := by
  obtain ⟨front, opener, body, closer, rest, rfl, -, -, rfl⟩ := ofComponents?_eq_some.mp cut
  exact ⟨rest, ⟨front ++ [.block opener body (some closer)], by simp⟩, rfl⟩

section EndsOpen

variable {text last : List Char}

/-- If the text after a block ends inside a block, so does the whole text. -/
theorem endsOpen_of_after {split : Split} (cut : split? .curly text = some split)
    (open_ : EndsOpen (Component.read split.after) last) : EndsOpen (Component.read text) last := by
  obtain ⟨rest, ⟨front, whole⟩, after⟩ := Split.exists_after cut
  have place : Within (rest ++ []) (Component.read text) := by
    rw [List.append_nil]
    exact .last ⟨front, whole⟩
  rw [after] at open_
  rw [← whole]
  exact (place.endsOpen_of_read open_).2.2.prepend front

/-- If the value of a definition ends inside a block, so does the text that it was written in. -/
theorem endsOpen_of_definition {css name value : String} {body : Body} {item : Item}
    (parsed : Body.parse css = .ok body) (member : item ∈ body.items.roots)
    (definition : item.kind.definition? = some (name, value))
    (open_ : EndsOpen (Component.read value.toList) last) :
    EndsOpen (Component.read css.toList) last := by
  obtain ⟨property, kind⟩ := Kind.eq_declaration definition
  obtain ⟨lead, before, core, after, ⟨front, whole⟩, -, -, held⟩ :=
    ((reading_of_parse parsed).origin_roots item member).exists_value kind
  rw [← List.append_assoc, ← List.append_assoc, ← List.append_assoc] at whole
  have place : Within (core ++ after) (Component.read css.toList) :=
    .last ⟨front ++ lead ++ before, by rw [← whole]; simp⟩
  rw [← held] at open_
  obtain ⟨rfl, -, ends⟩ := place.endsOpen_of_read open_
  rw [← whole, List.append_nil]
  exact ends.prepend _

/-- If a definition that is brought ends inside a block, so does the one that brings it. -/
theorem Brings.endsOpen {value held : String} (brought : Brings value held)
    (open_ : EndsOpen (Component.read held.toList) last) :
    EndsOpen (Component.read value.toList) last := by
  induction brought with
  | own => exact open_
  | later brought cut parsed member definition ih =>
      have text := endsOpen_of_definition parsed member definition open_
      rw [String.toList_ofList] at text
      exact ih (endsOpen_of_after cut text)

/-- Every definition that is brought starts with a block. -/
theorem Brings.head? {value held : String} (brought : Brings value held)
    (starts : value.toList.head? = some '{') : held.toList.head? = some '{' := by
  cases brought with
  | own => exact starts
  | later _ _ _ _ definition => exact Kind.head?_of_definition definition

/-- A text that starts with a block and cannot be split around it ends inside it. -/
theorem endsOpen_of_unsplit (starts : text.head? = some '{') (unsplit : split? .curly text = none) :
    EndsOpen (Component.read text) text := by
  have place : Within (Component.read text ++ []) (Component.read text) := by
    rw [List.append_nil]
    exact .last (List.suffix_refl _)
  obtain ⟨opener, body, closer, rest, read, curly⟩ := exists_block place (by rwa [textOf_read])
  cases closer with
  | none =>
      rw [read, List.append_nil] at place
      have alone : Within ([] ++ .block opener body none :: rest) (Component.read text) := by
        rw [read]
        exact .last (List.suffix_refl _)
      obtain ⟨rfl, -⟩ := alone.ends_open
      exact ⟨[], opener, body, read, curly, by rw [← read, textOf_read]⟩
  | some last =>
      have opens : opener.token.opens? = some .curly := by rw [curly]; rfl
      rw [split?, read, Split.ofComponents?, if_pos opens] at unsplit
      cases unsplit

end EndsOpen

/-! ### What cannot be read -/

/-- A piece is never at fault for an unclosed body. -/
theorem Piece.fault_ne {component : Component} {rest : List Component} {error : ParseError}
    (found : (Piece.read component rest).1 = .fault error) : error.fault ≠ .unclosedBody := by
  unfold Piece.read at found
  split at found
  · cases found
  · cases found
    exact Fault.noConfusion
  · unfold Piece.atRule at found
    dsimp only at found
    split at found
    · cases found
    · cases found
    · split at found
      · cases found
      · cases found
        exact Fault.noConfusion
  · unfold Piece.statement at found
    dsimp only at found
    split at found
    · split at found
      · cases found
        exact Fault.noConfusion
      · cases found
    · cases found
    · split at found
      · split at found
        · cases found
          exact Fault.noConfusion
        · cases found
      · cases found
        exact Fault.noConfusion

theorem Failure.fault_leave_ne {block : Location} {rest : List Component} {failure : Failure}
    (own : failure.error.fault ≠ .unclosedBody) :
    (failure.leave block rest).error.fault ≠ .unclosedBody := by
  unfold Failure.leave
  split
  · exact own
  · exact Fault.noConfusion

theorem Body.fault_ne {semicolon : Bool} {components : List Component} {failure : Failure}
    (read : Body.read semicolon components = .error failure) :
    failure.error.fault ≠ .unclosedBody := by
  induction semicolon, components using Body.read.induct generalizing failure with
  | case1 semicolon components filled =>
      rw [Body.read_done filled] at read
      cases read
  | case2 semicolon components component rest filled next error =>
      rename_i found
      rw [Body.read_fault filled found] at read
      cases read
      exact Piece.fault_ne found
  | case3 semicolon components component rest filled next kind raws ended found =>
      rename_i ih
      rw [Body.read_simple filled found] at read
      cases later : Body.read (ended.getD semicolon) (Piece.read component rest).2 with
      | ok more => rw [later] at read; cases read
      | error inner =>
          rw [later] at read
          cases read
          exact ih later
  | case4 semicolon components component rest filled next kind raws inner found ihInner =>
      rename_i ihRest
      rw [Body.read_block filled found] at read
      cases inside : Body.read false inner with
      | error own =>
          rw [inside] at read
          cases read
          exact Failure.fault_leave_ne (ihInner inside)
      | ok body =>
          rw [inside] at read
          cases later : Body.read false (ownSemicolon kind (Piece.read component rest).2).2 with
          | ok more => simp [later, Except.mapError, Except.bind, Except.map] at read
          | error own =>
              simp only [later, Except.mapError, Except.bind, Except.map,
                Except.error.injEq] at read
              exact read ▸ ihRest later

/-- A text that cannot be parsed has no unclosed body. -/
theorem Body.fault_parse_ne {text : String} {error : ParseError}
    (parsed : Body.parse text = .error error) : error.fault ≠ .unclosedBody := by
  unfold Body.parse at parsed
  cases read : Body.read false (Component.read text.toList) with
  | ok body => rw [read] at parsed; cases parsed
  | error failure =>
      rw [read] at parsed
      cases parsed
      exact Body.fault_ne read

/-! ### One definition after the other -/

section One

variable {source : Option Location} {name value held : String} {error : ParseError}

/-- What one definition fails with is why the value that brings it cannot be read. -/
theorem Brings.malformed (brought : Brings value held)
    (failed : expandOne source name held = .error error) : Malformed source value error := by
  unfold expandOne at failed
  cases cut : split? .curly held.toList with
  | none =>
      rw [cut] at failed
      cases failed
      exact .unclosed brought cut
  | some split =>
      simp only [cut, bind, Except.bind] at failed
      cases inside : Body.parse (String.ofList split.body) with
      | error own =>
          rw [inside] at failed
          cases failed
          exact .body brought cut inside
      | ok body =>
          rw [inside] at failed
          dsimp only at failed
          split at failed
          · cases failed
          · rename_i written
            cases following : Body.parse (String.ofList split.after) with
            | error own =>
                rw [following] at failed
                cases failed
                exact .after brought cut ((Bool.not_eq_true _).mp written) following
            | ok after =>
                rw [following] at failed
                cases failed

/-- What waits after a definition was written after its block. -/
theorem expandOne_pending {one : Expanded} (expanded : expandOne source name value = .ok one)
    {next : String × String} (member : next ∈ one.pending) :
    ∃ split after, split? .curly value.toList = some split ∧
      Body.parse (String.ofList split.after) = .ok after ∧
      ∃ item ∈ after.items.roots, item.kind.definition? = some next := by
  obtain ⟨split, _, items, cut, -, trails, rfl⟩ := exists_of_expandOne expanded
  change next ∈ (items.map (·.stamp source)).pending at member
  rw [pending_stamp] at member
  rcases exists_of_trailing trails with rfl | ⟨after, parsed, rfl⟩
  · cases member
  · exact ⟨split, after, cut, parsed, List.mem_filterMap.mp member⟩

end One

/-- Reading definitions fails only if one of them cannot be read. -/
theorem expandAll_malformed {source : Option Location} {value : String} (rounds : Nat)
    {pending : List (String × String)} (brought : ∀ next ∈ pending, Brings value next.2)
    {error : ParseError} (failed : expandAll source rounds pending = .error error) :
    Malformed source value error := by
  induction rounds generalizing pending with
  | zero => cases pending <;> cases failed
  | succ rounds ih =>
      cases pending with
      | nil => cases failed
      | cons first pending =>
          have known := brought first List.mem_cons_self
          simp only [expandAll, bind, Except.bind] at failed
          cases expanded : expandOne source first.1 first.2 with
          | error stopped =>
              rw [expanded] at failed
              cases failed
              exact known.malformed expanded
          | ok one =>
              rw [expanded] at failed
              dsimp only at failed
              cases later : expandAll source rounds (pending ++ one.pending) with
              | ok more => rw [later] at failed; cases failed
              | error stopped =>
                  rw [later] at failed
                  cases failed
                  refine ih (fun next member => ?_) later
                  rcases List.mem_append.mp member with before | after
                  · exact brought next (List.mem_cons_of_mem first before)
                  · obtain ⟨split, body, cut, parsed, item, among, definition⟩ :=
                      expandOne_pending expanded after
                    exact known.later cut parsed among definition

section Value

variable {source : Option Location} {name value : String} {error : ParseError}

theorem expand_malformed (failed : expand source name value = .error error) :
    Malformed source value error :=
  expandAll_malformed (value.length + 1) (fun next member => by
    rw [List.mem_singleton.mp member]
    exact .own) failed

/-- Only a definition that cannot be split is reported as unclosed. -/
theorem Malformed.exists_unclosed (malformed : Malformed source value error)
    (unclosed : error.fault = .unclosedBody) :
    ∃ held, Brings value held ∧ split? .curly held.toList = none := by
  cases malformed with
  | unclosed brought unsplit => exact ⟨_, brought, unsplit⟩
  | body _ _ failed => exact absurd unclosed (Body.fault_parse_ne failed)
  | after _ _ _ failed => exact absurd unclosed (Body.fault_parse_ne failed)

end Value

/-! ## Documents -/

/-- The block that a declaration's value starts with, where it stands in the text.  The
statement starts with `before`, up to the block, and `rest` is what the value holds after
the block. -/
structure BodyBlock (source : List Char) (item : Item) (property value : String)
    (before : List Component) (opener : Lexeme) (body : List Component) (closer : Option Lexeme)
    (rest : List Component) : Prop where
  place : ∃ after, Within (before ++ .block opener body closer :: (rest ++ after))
    (Component.read source)
  start : item.source = before.head?.map Component.start
  front : textOf before = property.toList ++ item.raws.between.toList
  value : value.toList = textOf (.block opener body closer :: rest)

/-- The text ends inside a block in curly brackets that is the last of the components and is
written as `held`. -/
def EndsInside (source : List Char) (components : List Component) (held : String) : Prop :=
  textOf components <:+ source ∧ EndsOpen components held.toList

/-- **Where the body of a set ends.**  A value that starts with a curly bracket starts with a
block of the text.  If the block is closed there, the value is split around it at the same
bracket.  If not, there is no split, and the text ends inside the block.  And if a definition
with this value is reported as unclosed, its own body or that of a definition that it brings
cannot be split off, and the text ends inside that body. -/
theorem split_value_of_parse {css : String} {document : Document} {id : NodeId} {item : Item}
    {children : Forest Node} {property value : String}
    (parsed : Document.parse css = .ok document)
    (found : document.find? id = some (item, children))
    (kind : item.kind = .declaration property value) (starts : value.toList.head? = some '{') :
    ∃ before opener body closer rest,
      BodyBlock css.toList item property value before opener body closer rest ∧
      (∀ bracket, closer = some bracket →
        value.toList = '{' :: (textOf body ++ '}' :: textOf rest) ∧
          split? .curly value.toList = some ⟨[], textOf body, textOf rest⟩) ∧
      (closer = none → split? .curly value.toList = none ∧
        EndsInside css.toList (.block opener body closer :: rest) value) ∧
      ∀ name error, expand item.source name value = .error error → error.fault = .unclosedBody →
        ∃ held, Brings value held ∧ split? .curly held.toList = none ∧
          EndsInside css.toList (.block opener body closer :: rest) held := by
  have origin : Item.Origin (Within · (Component.read css.toList)) item := by
    rcases Document.origin_of_parse parsed found with ⟨-, body, -, rfl⟩ | ⟨-, origin⟩
    · cases kind
    · exact origin
  obtain ⟨lead, before, core, after, place, start, front, written⟩ := origin.exists_value kind
  have stands := place.suffix (List.suffix_append lead _)
  have own := stands.suffix (List.suffix_append before _)
  -- Whatever ends inside a block on its own does so in the text.
  have inside {held : String} (brought : Brings value held)
      (unsplit : split? .curly held.toList = none) : EndsInside css.toList core held := by
    have open_ := brought.endsOpen (endsOpen_of_unsplit (brought.head? starts) unsplit)
    rw [← written] at open_
    obtain ⟨-, suffix, ends⟩ := own.endsOpen_of_read open_
    exact ⟨suffix, ends⟩
  obtain ⟨opener, body, closer, rest, rfl, curly⟩ := exists_block own (written ▸ starts)
  refine ⟨before, opener, body, closer, rest, ⟨⟨after, stands⟩, start, front, written.symm⟩, ?_,
    ?_, fun name error failed unclosed => ?_⟩
  · rintro bracket rfl
    obtain ⟨whole, split⟩ := split?_closed own curly
    rw [written] at whole split
    exact ⟨whole, split⟩
  · rintro rfl
    have alone : Within ([] ++ .block opener body none :: (rest ++ after))
        (Component.read css.toList) := own
    obtain ⟨last, -⟩ := alone.ends_open
    obtain ⟨rfl, -⟩ := List.append_eq_nil_iff.mp last
    have unsplit : split? .curly value.toList = none := by
      rw [← written]
      exact split?_unclosed own
    exact ⟨unsplit, inside .own unsplit⟩
  · obtain ⟨held, brought, unsplit⟩ := (expand_malformed failed).exists_unclosed unclosed
    exact ⟨held, brought, unsplit, inside brought unsplit⟩

/-- A value whose block is closed, and which is reported as unclosed for the definition after
it, and a value whose block is still open where the text ends. -/
theorem split_value_of_parse_both :
    (∃ document item children before opener body bracket rest held,
      Document.parse ":root\x7b--a:\x7bb:c\x7d--d:\x7be" = .ok document ∧
      document.find? ⟨3⟩ = some (item, children) ∧
      BodyBlock ":root\x7b--a:\x7bb:c\x7d--d:\x7be".toList item "--a" "\x7bb:c\x7d--d:\x7be" before
        opener body (some bracket) rest ∧
      split? .curly "\x7bb:c\x7d--d:\x7be".toList = some ⟨[], textOf body, textOf rest⟩ ∧
      Brings "\x7bb:c\x7d--d:\x7be" held ∧ split? .curly held.toList = none ∧
      EndsInside ":root\x7b--a:\x7bb:c\x7d--d:\x7be".toList
        (.block opener body (some bracket) :: rest) held) ∧
    ∃ document item children before opener body rest,
      Document.parse ":root\x7b--a:\x7bb:c" = .ok document ∧
      document.find? ⟨3⟩ = some (item, children) ∧
      BodyBlock ":root\x7b--a:\x7bb:c".toList item "--a" "\x7bb:c" before opener body none rest ∧
      EndsInside ":root\x7b--a:\x7bb:c".toList (.block opener body none :: rest) "\x7bb:c" := by
  constructor
  · obtain ⟨document, parsed, computed⟩ := exists_ok_of_any
      (Document.parse ":root\x7b--a:\x7bb:c\x7d--d:\x7be")
      (fun document => (document.find? ⟨3⟩).any fun node =>
        node.1.kind = .declaration "--a" "\x7bb:c\x7d--d:\x7be" &&
          ((expand node.1.source "a" "\x7bb:c\x7d--d:\x7be").map fun _ => ()).mapError
            ParseError.fault = .error .unclosedBody)
      (by decide +kernel)
    obtain ⟨⟨item, children⟩, found, holds⟩ := (Option.any_eq_true ..).mp computed
    simp only [Bool.and_eq_true, decide_eq_true_eq] at holds
    obtain ⟨before, opener, body, closer, rest, block, closed, open_, reported⟩ :=
      split_value_of_parse parsed found holds.1 rfl
    cases failed : expand item.source "a" "\x7bb:c\x7d--d:\x7be" with
    | ok expansion =>
        rw [failed] at holds
        cases holds.2
    | error error =>
        rw [failed] at holds
        obtain ⟨held, brought, unsplit, inside⟩ :=
          reported "a" error failed (Except.error.inj holds.2)
        cases closer with
        | none =>
            have some_ : split? .curly "\x7bb:c\x7d--d:\x7be".toList ≠ none := by decide +kernel
            exact absurd (open_ rfl).1 some_
        | some bracket =>
            exact ⟨document, item, children, before, opener, body, bracket, rest, held, parsed,
              found, block, (closed bracket rfl).2, brought, unsplit, inside⟩
  · obtain ⟨document, parsed, computed⟩ := exists_ok_of_any
      (Document.parse ":root\x7b--a:\x7bb:c")
      (fun document => (document.find? ⟨3⟩).any fun node =>
        node.1.kind = .declaration "--a" "\x7bb:c")
      (by decide +kernel)
    obtain ⟨⟨item, children⟩, found, kind⟩ := (Option.any_eq_true ..).mp computed
    obtain ⟨before, opener, body, closer, rest, block, closed, open_, -⟩ :=
      split_value_of_parse parsed found (of_decide_eq_true kind) rfl
    cases closer with
    | none =>
        exact ⟨document, item, children, before, opener, body, rest, parsed, found, block,
          (open_ rfl).2⟩
    | some bracket =>
        have none_ : split? .curly "\x7bb:c".toList = none := by decide +kernel
        have some_ := (closed bracket rfl).2
        rw [none_] at some_
        cases some_

end ApplyRule
