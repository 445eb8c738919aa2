/-
# ApplyRule.Proofs.Malformed -- definitions that cannot be read

A value can be read exactly if no definition that it brings is malformed
(`exists_expand_error_iff`).  By the time that one of them turns out to be, those before it
have been read: fragments were planted, their children moved below new rules or taken out one
by one, and some of it is gone again.

`Linking.expand` does that to an arena, link by link, and it follows `Edit.expand`
(`follows_expand`).  Whatever was made goes when the reading fails.  So a malformed definition
is reported, and every slot, the registry and all else stay as they were
(`collect_malformed`); only identities were given out.
-/
import ApplyRule.Proofs.Brought
import ApplyRule.Proofs.Expanding
import ApplyRule.Proofs.Reached
import ApplyRule.Proofs.WellLinked

namespace ApplyRule

set_option autoImplicit false

open Document Text

/-! ## Values that cannot be read -/

section Value

variable {source : Option Location} {name value : String} {error : ParseError}

/-- In a value that can be read, no definition is malformed. -/
theorem not_malformed_of_expand {expansion : Expansion}
    (read : expand source name value = .ok expansion) : ¬ Malformed source value error := by
  intro malformed
  cases malformed with
  | unclosed brought unsplit =>
      obtain ⟨_, _, _, cut, -⟩ := expand_brought read brought
      cases unsplit.symm.trans cut
  | body brought cut failed =>
      obtain ⟨_, _, _, cut', parsed, -⟩ := expand_brought read brought
      cases cut.symm.trans cut'
      cases failed.symm.trans parsed
  | after brought cut written failed =>
      obtain ⟨_, _, _, cut', -, trails, -⟩ := expand_brought read brought
      cases cut.symm.trans cut'
      rw [trailing?, written, if_neg Bool.false_ne_true, failed] at trails
      cases trails

/-- **Which values cannot be read.** -/
theorem exists_expand_error_iff (source : Option Location) (name value : String) :
    (∃ error, expand source name value = .error error) ↔ ∃ error, Malformed source value error := by
  constructor
  · rintro ⟨error, failed⟩
    exact ⟨error, expand_malformed failed⟩
  · rintro ⟨error, malformed⟩
    cases read : expand source name value with
    | ok expansion => exact absurd malformed (not_malformed_of_expand read)
    | error other => exact ⟨other, rfl⟩

end Value

/-! ## Reading a value, link by link -/

namespace Linking

/-- Move the children of a fragment below a new rule for a set. -/
def buildSet (name : String) (fragment : NodeId) (source : Option Location) :
    Linking NodeId := do
  let item := (← slot fragment).item
  let set ← create ⟨.rule (writtenName name),
    { semicolon := item.raws.semicolon, after := item.raws.after }, source⟩
  let children := (← slot fragment).children
  children.forM (append set)
  destroy fragment
  return set

/-- Take nodes out of their places.  Those that define sets go, and the others stand
apart from then on. -/
def sortOut (source : Option Location) :
    List NodeId → Linking (List NodeId × List (String × String))
  | [] => return ([], [])
  | node :: rest => do
      detach node
      restamp node source
      let arena ← get
      match ((arena.slots node).map fun slot => slot.item.kind).bind Kind.definition? with
      | some definition => do
          destroy node
          let (items, pending) ← sortOut source rest
          return (items, definition :: pending)
      | none => do
          let (items, pending) ← sortOut source rest
          return (node :: items, pending)

/-- A rule for a set, from the text of its body. -/
def plantBody (name text : String) (source : Option Location) :
    Linking (Except ParseError NodeId) := do
  match ← parseFragment text with
  | .error error => return .error error
  | .ok body => return .ok (← buildSet name body source)

/-- A rule for a set, from the text of its body, all of which has the rule's source. -/
def plantText (name text : String) (source : Option Location) :
    Linking (Except ParseError NodeId) := do
  match ← plantBody name text source with
  | .error error => return .error error
  | .ok set =>
      restamp set source
      return .ok set

/-- The items in the text after a block, and the definitions there. -/
def readTrailing (text : String) (source : Option Location) :
    Linking (Except ParseError (List NodeId × List (String × String))) := do
  match ← parseFragment text with
  | .error error => return .error error
  | .ok fragment =>
      let sorted ← sortOut source (← slot fragment).children
      destroy fragment
      return .ok sorted

/-- Read one definition.  What is made is added to what was made before, also if
something cannot be read; the answer is the definitions after the block. -/
def expandOne (source : Option Location) (name value : String) (made : Made) :
    Linking (Except ParseError (List (String × String)) × Made) := do
  match split? .curly value.toList with
  | none => return (.error ⟨.unclosedBody, source.getD ⟨0, 0⟩⟩, made)
  | some split =>
      match ← plantText name (String.ofList split.body) source with
      | .error error => return (.error error, made)
      | .ok set =>
          let made := { made with sets := made.sets ++ [(name, set)] }
          if (trim split.after).isEmpty then return (.ok [], made)
          match ← readTrailing (String.ofList split.after) source with
          | .error error => return (.error error, made)
          | .ok (items, pending) => return (.ok pending, { made with items := made.items ++ items })

/-- Read definitions and those that follow from them, in order, in at most `rounds`
rounds, until one cannot be read. -/
def expandAll (source : Option Location) :
    Nat → List (String × String) → Made → Linking (Except ParseError Unit × Made)
  | _, [], made => return (.ok (), made)
  | 0, _, made => return (.ok (), made)
  | rounds + 1, (name, value) :: pending, made => do
      match ← expandOne source name value made with
      | (.error error, made) => return (.error error, made)
      | (.ok next, made) => expandAll source rounds (pending ++ next) made

/-- Read all that a definition's value defines.  If some part cannot be read, what was
made goes again. -/
def expand (source : Option Location) (name value : String) :
    Linking (Except ParseError Made) := do
  match ← expandAll source (value.length + 1) [(name, value)] {} with
  | (.ok (), made) => return .ok made
  | (.error error, made) => do
      made.ids.forM destroy
      return .error error

end Linking

section Follows

variable {document : Document} (source : Option Location)

theorem follows_buildSet (numbered : document.Numbered) (name : String) (fragment : NodeId) :
    Follows (Linking.buildSet name fragment source) (Edit.buildSet name fragment source)
      document := by
  refine Follows.ask numbered (document.item?_eq_slots fragment) fun slot _ => ?_
  refine (follows_create numbered _).bind fun set after _ numbered => ?_
  refine Follows.ask numbered (after.children?_eq_slots fragment) fun slot _ => ?_
  refine (Follows.forM _ numbered fun node _ _ numbered =>
    follows_append numbered set node).bind fun _ _ _ numbered => ?_
  refine (follows_destroy numbered fragment).bind fun _ _ _ numbered => ?_
  exact Follows.pure numbered set

theorem follows_sortOut (numbered : document.Numbered) (nodes : List NodeId) :
    Follows (Linking.sortOut source nodes) (Edit.sortOut source nodes) document := by
  induction nodes generalizing document with
  | nil => exact Follows.pure numbered _
  | cons node rest ih =>
      refine (follows_detach numbered node).bind fun _ _ _ numbered => ?_
      refine (follows_restamp numbered node source).bind fun _ after _ numbered => ?_
      refine Follows.get ?_
      rw [after.kind?_eq_slots]
      cases ((after.arena.slots node).map fun slot => slot.item.kind).bind Kind.definition? with
      | some definition =>
          refine (follows_destroy numbered node).bind fun _ _ _ numbered => ?_
          exact (ih numbered).bind fun _ _ _ numbered => Follows.pure numbered _
      | none => exact (ih numbered).bind fun _ _ _ numbered => Follows.pure numbered _

theorem follows_plantText (numbered : document.Numbered) (name text : String) :
    Follows (Linking.plantText name text source) (Edit.plantText name text source) document := by
  have planted : Follows (Linking.plantBody name text source) (Edit.plantBody name text source)
      document := by
    refine (follows_parseFragment numbered text).bind fun read _ _ numbered => ?_
    cases read with
    | error error => exact Follows.pure numbered _
    | ok body =>
        exact (follows_buildSet source numbered name body).bind fun _ _ _ numbered =>
          Follows.pure numbered _
  refine planted.bind fun made _ _ numbered => ?_
  cases made with
  | error error => exact Follows.pure numbered _
  | ok set =>
      exact (follows_restamp numbered set source).bind fun _ _ _ numbered =>
        Follows.pure numbered _

theorem follows_readTrailing (numbered : document.Numbered) (text : String) :
    Follows (Linking.readTrailing text source) (Edit.readTrailing text source) document := by
  refine (follows_parseFragment numbered text).bind fun read after _ numbered => ?_
  cases read with
  | error error => exact Follows.pure numbered _
  | ok fragment =>
      refine Follows.ask numbered (after.children?_eq_slots fragment) fun slot _ => ?_
      refine (follows_sortOut source numbered slot.children).bind fun _ _ _ numbered => ?_
      refine (follows_destroy numbered fragment).bind fun _ _ _ numbered => ?_
      exact Follows.pure numbered _

theorem follows_expandOne (numbered : document.Numbered) (name value : String) (made : Made) :
    Follows (Linking.expandOne source name value made) (Edit.expandOne source name value made)
      document := by
  unfold Linking.expandOne Edit.expandOne
  cases split? .curly value.toList with
  | none => exact Follows.pure numbered _
  | some split =>
      refine (follows_plantText source numbered name _).bind fun planted _ _ numbered => ?_
      cases planted with
      | error error => exact Follows.pure numbered _
      | ok set =>
          dsimp only
          split
          · exact Follows.pure numbered _
          · refine (follows_readTrailing source numbered _).bind fun read _ _ numbered => ?_
            cases read with
            | error error => exact Follows.pure numbered _
            | ok sorted => exact Follows.pure numbered _

theorem follows_expandAll (numbered : document.Numbered) (rounds : Nat)
    (pending : List (String × String)) (made : Made) :
    Follows (Linking.expandAll source rounds pending made)
      (Edit.expandAll source rounds pending made) document := by
  induction rounds generalizing document pending made with
  | zero => cases pending <;> exact Follows.pure numbered _
  | succ rounds ih =>
      cases pending with
      | nil => exact Follows.pure numbered _
      | cons definition pending =>
          obtain ⟨name, value⟩ := definition
          have first := follows_expandOne source numbered name value made
          refine first.bind fun answer _ _ numbered => ?_
          obtain ⟨read, made⟩ := answer
          cases read with
          | error error => exact Follows.pure numbered _
          | ok next => exact ih numbered (pending ++ next) made

/-- Reading a value link by link follows reading it node by node. -/
theorem follows_expand (numbered : document.Numbered) (name value : String) :
    Follows (Linking.expand source name value) (Edit.expand source name value) document := by
  refine (follows_expandAll source numbered _ _ _).bind fun answer _ _ numbered => ?_
  obtain ⟨read, made⟩ := answer
  cases read with
  | error error =>
      refine (Follows.forM _ numbered fun node _ _ numbered =>
        follows_destroy numbered node).bind fun _ _ _ numbered => ?_
      exact Follows.pure numbered _
  | ok _ => exact Follows.pure numbered _

end Follows

/-! ## Passes -/

/-- A definition in its scope that cannot be read is reported, and that is all. -/
theorem Step.collectDeclaration_error {pass : Pass} {scope id : NodeId} {item : Item}
    {name value : String} {error : ParseError}
    (defines : pass.document.DefinesIn scope id item name value)
    (failed : expand item.source name value = .error error) :
    collectDeclaration id pass = .ok ()
      { pass with warnings := pass.warnings ++ [⟨.malformedSet name error, item.source⟩] } := by
  have known : (pass.document.kind? id).bind Kind.definition? = some (name, value) := by
    rw [kind?, defines.found, Option.map_some, Option.bind_some, defines.definition]
  have stamped : source id pass = .ok item.source pass := by
    rw [source, bind_ok (ask_ok defines.found)]
    rfl
  unfold collectDeclaration
  rw [bind_ok document_ok, known]
  simp only
  rw [bind_ok (ask_ok defines.parent)]
  simp only
  rw [bind_ok (acceptScope_accepted name defines.isScope)]
  simp only [if_true]
  rw [bind_ok stamped, failed]
  rfl

/-- **A malformed definition changes nothing.**  In every pass that can be reached, a
definition in a rule for the document root that is malformed, itself or in what its value
brings, is reported by one warning that says why, and the document and the registry stay as
they are.  Read link by link, what was made of its value before it failed goes again: every
slot is as it was. -/
theorem collect_malformed {css : String} {document : Document} {options : Options} {pass : Pass}
    {scope id : NodeId} {item : Item} {name value : String}
    (parsed : Document.parse css = .ok document)
    (reached : Pass.Reached { document, options } pass)
    (defines : pass.document.DefinesIn scope id item name value)
    (malformed : ∃ error, Malformed item.source value error) :
    ∃ error, Malformed item.source value error ∧
      Step.collectDeclaration id pass = .ok ()
        { pass with warnings := pass.warnings ++ [⟨.malformedSet name error, item.source⟩] } ∧
      ∃ fresh, Edit.expand item.source name value pass.document =
          .ok (.error error) { pass.document with fresh } ∧
        Linking.expand item.source name value pass.document.arena =
          some (.ok (.error error), { pass.document.arena with fresh }) := by
  have tidy := reached.tidy (Pass.tidy_of_parse parsed options)
  have numbered := tidy.sound.numbered
  obtain ⟨error, failed⟩ := (exists_expand_error_iff item.source name value).mpr malformed
  obtain ⟨fresh, ran, -⟩ := Edit.expand_error numbered failed
  exact ⟨error, expand_malformed failed, Step.collectDeclaration_error defines failed, fresh, ran,
    ((follows_expand item.source numbered name value).ok ran).2⟩

/-- The pole of `collect_malformed`: a definition and a rule that can be read, before one whose
body cannot. -/
theorem collect_malformed_chained :
    ∃ document error,
      Document.parse ":root\x7b--a:\x7bx:y\x7d p\x7bq:r\x7d --b:\x7bz\x7d\x7d" =
        .ok document ∧
      document.DefinesIn ⟨2⟩ ⟨3⟩ ⟨.declaration "--a" "\x7bx:y\x7d p\x7bq:r\x7d --b:\x7bz\x7d",
        { between := ":" }, some ⟨1, 7⟩⟩ "a" "\x7bx:y\x7d p\x7bq:r\x7d --b:\x7bz\x7d" ∧
      Malformed (some ⟨1, 7⟩) "\x7bx:y\x7d p\x7bq:r\x7d --b:\x7bz\x7d" error ∧
      Step.collectDeclaration ⟨3⟩ { document, options := {} } = .ok ()
        { document, options := {}, warnings := [⟨.malformedSet "a" error, some ⟨1, 7⟩⟩] } ∧
      ∃ fresh, Linking.expand (some ⟨1, 7⟩) "a" "\x7bx:y\x7d p\x7bq:r\x7d --b:\x7bz\x7d"
        document.arena = some (.ok (.error error), { document.arena with fresh }) := by
  obtain ⟨document, parsed, holds⟩ := exists_ok_of_any
    (Document.parse ":root\x7b--a:\x7bx:y\x7d p\x7bq:r\x7d --b:\x7bz\x7d\x7d")
    (fun document => decide (document.DefinesIn ⟨2⟩ ⟨3⟩
      ⟨.declaration "--a" "\x7bx:y\x7d p\x7bq:r\x7d --b:\x7bz\x7d", { between := ":" },
        some ⟨1, 7⟩⟩ "a" "\x7bx:y\x7d p\x7bq:r\x7d --b:\x7bz\x7d"))
    (by decide +kernel)
  have defines := of_decide_eq_true holds
  obtain ⟨why, failed⟩ := exists_error_of_isNone
    (expand (some ⟨1, 7⟩) "a" "\x7bx:y\x7d p\x7bq:r\x7d --b:\x7bz\x7d") (by decide +kernel)
  have reached : Pass.Reached { document, options := {} } { document, options := {} } := .start
  obtain ⟨error, malformed, ran, fresh, -, linked⟩ :=
    collect_malformed parsed reached defines ⟨why, expand_malformed failed⟩
  exact ⟨document, error, parsed, defines, malformed, ran, fresh, linked⟩

end ApplyRule
