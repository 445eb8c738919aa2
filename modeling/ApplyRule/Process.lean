/-
# ApplyRule.Process -- a stylesheet with its references resolved

The whole of it: a text and options in, a text and warnings out.
-/
import ApplyRule.Pass.Reference

namespace ApplyRule

set_option autoImplicit false

/-- A stylesheet after a run, and what was reported. -/
structure Processed where
  css : String
  warnings : List Warning

/-- Resolve all references in a stylesheet. -/
def process (css : String) (options : Options) : Except Error Processed := do
  let document ← (Document.parse css).mapError .parse
  match Step.run { document, options } with
  | .ok _ pass => return ⟨pass.document.css, pass.warnings⟩
  | .error error _ => throw error

/-- Resolve all references in the stylesheet at a path. -/
def processFile (file : File) (options : Options) : Except Error Processed := do
  process (← file.text.mapError .file) options

/-- The options that a text gives. -/
def Options.parse (text : String) : Except Error Options :=
  match Options.parse? text with
  | some options => .ok options
  | none => .error .options

/-- The options at a path. -/
def Options.load (file : File) : Except Error Options := do
  Options.parse (← file.text.mapError .file)

end ApplyRule
