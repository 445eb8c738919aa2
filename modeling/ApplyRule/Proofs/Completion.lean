/-
# ApplyRule.Proofs.Completion -- what stops a run

A run has to be refused where a text cannot be read, and may be refused at any edit.
Only the stylesheet itself and the sets that the options give refuse one
(`process_completes`): a set that is misplaced, unknown, unreadable or part of a loop is
reported, and no edit is refused.

Reading a stylesheet, a body or a definition's value is said at once.  Node by node, in
any document, it is not refused either, and fails with the same error (`Edit.Reads`), so
no error of a reading stands for an edit that was refused.  Putting a set in the place of
a reference is said at once too; a run does it in tidy passes, and there it comes to the
same node by node (`Step.Nodewise`).
-/
import ApplyRule.Proofs.Expanding
import ApplyRule.Proofs.Operations
import ApplyRule.Proofs.Replacing
import ApplyRule.Proofs.Effects

namespace ApplyRule

set_option autoImplicit false

open Document Text

/-! ## Reading node by node -/

/-- An edit that reads is refused in no document, and succeeds or fails as `read` does,
with the same error. -/
def Edit.Reads {α β : Type} (edit : Edit (Except ParseError α)) (read : Except ParseError β) :
    Prop :=
  ∀ document : Document, document.Numbered → ∃ answer after,
    edit document = .ok answer after ∧ answer.map (fun _ => ()) = read.map fun _ => ()

namespace Edit

theorem reads_parse (css : String) : (parse css).Reads (Document.parse css) := by
  intro document _
  cases parsed : Document.parse css with
  | ok _ => exact ⟨.ok (), _, by rw [parse_eq, parsed], rfl⟩
  | error error => exact ⟨.error error, _, by rw [parse_eq, parsed], rfl⟩

theorem reads_plantBody (name text : String) (source : Option Location) :
    (plantBody name text source).Reads (Body.parse text) := by
  intro document numbered
  cases parsed : Body.parse text with
  | ok body =>
      obtain ⟨_, _, _, ran, -⟩ := plantBody_ok name source numbered parsed
      exact ⟨_, _, ran, rfl⟩
  | error error =>
      obtain ⟨_, -, ran⟩ := plantBody_error name source numbered parsed
      exact ⟨_, _, ran, rfl⟩

theorem reads_expand (source : Option Location) (name value : String) :
    (expand source name value).Reads (ApplyRule.expand source name value) := by
  intro document numbered
  cases read : ApplyRule.expand source name value with
  | ok expansion =>
      obtain ⟨_, _, ran, -⟩ := expand_ok numbered read
      exact ⟨_, _, ran, rfl⟩
  | error error =>
      obtain ⟨_, ran, -⟩ := expand_error numbered read
      exact ⟨_, _, ran, rfl⟩

end Edit

/-! ## Runs -/

/-- Where a reference gives way to a registered set node by node, no edit is refused, and
what is left is the same. -/
def Step.Nodewise (pass : Pass) : Prop :=
  ∀ reference ∈ pass.document.forest.ids, reference ∉ pass.document.root :: pass.registry.ids →
    ∀ set ∈ pass.registry.ids, ∃ after,
      edit (Edit.substitute reference set) pass = .ok () after ∧
        substitute reference set pass = .ok () after

theorem Step.nodewise_of_tidy {pass : Pass} (tidy : pass.Tidy [] []) : Nodewise pass := by
  intro reference live apart set registered
  obtain ⟨_, _, found⟩ := Forest.exists_find? live
  exact substitute_nodewise tidy found (by simpa using apart) registered

/-- A run is refused for a set that the options give, or not at all. -/
theorem Step.completes_run {pass : Pass} (tidy : pass.Tidy [] []) :
    Outcome run pass (fun _ after => after.Tidy [] [])
      (fun error _ => pass.options.Refuses error) := by
  refine keeps_run ?_
  obtain ⟨rootItem, below, rootFound, -⟩ := tidy.sound.root
  refine (collect_registerPredefined tidy rootFound).imp ?_ fun _ _ => And.left
  rintro _ after ⟨_, collected⟩
  exact collected.tidy

/-- How processing a stylesheet may end. -/
inductive Ends (css : String) (options : Options) : Except Error Processed → Prop where
  | unread {error : ParseError} (failed : Document.parse css = .error error) :
      Ends css options (.error (.parse error))
  | refused {document : Document} {error : Error} (parsed : Document.parse css = .ok document)
      (refuses : options.Refuses error) : Ends css options (.error error)
  | done {document : Document} {processed : Processed}
      (parsed : Document.parse css = .ok document)
      (genuine : ∀ warning ∈ processed.warnings, warning.Genuine) :
      Ends css options (.ok processed)

theorem ends_process (css : String) (options : Options) :
    Ends css options (process css options) := by
  cases parsed : Document.parse css with
  | error error =>
      rw [process_unread parsed]
      exact .unread parsed
  | ok document =>
      have reports := Step.reports_run { document, options }
      rcases (Step.completes_run (Pass.tidy_of_parse parsed options)).cases with
        ⟨_, after, ran, -⟩ | ⟨error, _, ran, refuses⟩
      · rw [Outcome, ran] at reports
        obtain ⟨raised, warnings, genuine⟩ := reports
        rw [process_ok parsed ran]
        refine .done parsed fun warning member => genuine warning ?_
        rwa [show after.warnings = raised from warnings] at member
      · rw [process_error parsed ran]
        exact .refused parsed refuses

/-- **Problems with sets never stop a run.**  Processing fails with the error of the
stylesheet, or for a set that the options give; it succeeds if the stylesheet can be read
and all those sets are valid, and it is never refused an edit.

Nor is an edit refused where the stylesheet, a set that the options give or a definition
is read node by node, so that no error which is returned or reported is one of an edit,
and where, after any operations, a reference gives way to a set node by node. -/
theorem process_completes (css : String) (options : Options) :
    Ends css options (process css options) ∧
      (∀ document, Document.parse css = .ok document → options.Valid →
        ∃ processed, process css options = .ok processed) ∧
      (∀ cause, process css options ≠ .error (.tree cause)) ∧
      (Edit.parse css).Reads (Document.parse css) ∧
      (∀ name text source, (Edit.plantBody name text source).Reads (Body.parse text)) ∧
      (∀ source name value, (Edit.expand source name value).Reads (expand source name value)) ∧
      ∀ document, Document.parse css = .ok document → ∀ operations,
        Step.Nodewise (Pass.operate { document, options } operations) := by
  have ends := ends_process css options
  refine ⟨ends, fun document parsed valid => ?_, fun cause same => ?_, Edit.reads_parse css,
    Edit.reads_plantBody, Edit.reads_expand, fun document parsed operations => ?_⟩
  · generalize process css options = result at ends
    cases ends with
    | unread failed => cases parsed.symm.trans failed
    | refused _ refuses => exact absurd refuses valid.not_refuses
    | @done _ processed _ _ => exact ⟨processed, rfl⟩
  · rw [same] at ends
    cases ends with
    | refused _ refuses => cases refuses
  · exact Step.nodewise_of_tidy
      (Pass.tidy_operate operations (Pass.tidy_of_parse parsed options))

/-- The pole of `process_completes`: the stylesheet has a set that cannot be read and a
reference to it, and the options give a set that refers to itself. -/
theorem process_completes_unreadable :
    ∃ processed,
      process ":root\x7b--a:\x7bb\x7d\x7d.c\x7b@apply --a;@apply --t\x7d"
        { sets := ⟨[("--t", "@apply --t;d:e")]⟩ } = .ok processed ∧
      processed.warnings.map (·.cause.label) =
        ["malformed-set", "circular-apply", "unknown-set"] := by
  obtain ⟨document, parsed, -⟩ := exists_ok_of_any
    (Document.parse ":root\x7b--a:\x7bb\x7d\x7d.c\x7b@apply --a;@apply --t\x7d")
    (fun _ => true) (by decide +kernel)
  have valid : ({ sets := ⟨[("--t", "@apply --t;d:e")]⟩ } : Options).Valid :=
    Options.valid_of_computed (by decide +kernel)
  obtain ⟨processed, ran⟩ := (process_completes _ _).2.1 document parsed valid
  refine ⟨processed, ran, ?_⟩
  obtain ⟨other, ranToo, labels⟩ := exists_ok_of_any
    (process ":root\x7b--a:\x7bb\x7d\x7d.c\x7b@apply --a;@apply --t\x7d"
      { sets := ⟨[("--t", "@apply --t;d:e")]⟩ })
    (fun processed => decide (processed.warnings.map (·.cause.label) =
      ["malformed-set", "circular-apply", "unknown-set"])) (by decide +kernel)
  cases ran.symm.trans ranToo
  exact of_decide_eq_true labels

end ApplyRule
