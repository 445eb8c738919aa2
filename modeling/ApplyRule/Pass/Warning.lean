/-
# ApplyRule.Pass.Warning -- what a run reports

A warning has a cause and the place of the node it is about.  Nothing that is
reported stops a run.
-/
import ApplyRule.SetName
import ApplyRule.Stylesheet.Fault

namespace ApplyRule

set_option autoImplicit false

/-- Why a definition or a reference is reported. -/
inductive Cause where
  /-- A set is defined elsewhere than in a rule for the document root, and in a
  rule if a selector is given. -/
  | misplacedSet (name : String) (selector : Option String)
  /-- A reference names a set that nothing defines. -/
  | unknownSet (name : String)
  /-- A reference stands outside all rules. -/
  | orphanedReference
  /-- The last of these sets, each of which refers to the next, comes earlier in
  the list too. -/
  | circularReference (names : List String)
  /-- The text of a set cannot be read. -/
  | malformedSet (name : String) (error : ParseError)
  deriving DecidableEq

namespace Cause

/-- The class of the cause, as reports are counted by. -/
def label : Cause → String
  | .misplacedSet _ _ => "misplaced-set"
  | .unknownSet _ => "unknown-set"
  | .orphanedReference => "orphaned-apply"
  | .circularReference _ => "circular-apply"
  | .malformedSet _ _ => "malformed-set"

/-- The classes that there are. -/
def labels : List String :=
  ["misplaced-set", "unknown-set", "orphaned-apply", "circular-apply", "malformed-set"]

/-- What the report says. -/
def text : Cause → String
  | .misplacedSet name selector =>
      "Custom property set ignored: not scoped to top-level `:root` (" ++ writtenName name ++
        (selector.map (" declared in " ++ ·)).getD "" ++ ")"
  | .unknownSet name => "No custom property set declared for `" ++ name ++ "`."
  | .orphanedReference => "The @apply rule can only be declared inside Rule type nodes."
  | .circularReference names =>
      "Circular @apply ignored: " ++ " -> ".intercalate (names.map writtenName)
  | .malformedSet name error =>
      "Custom property set ignored: " ++ writtenName name ++ " could not be parsed (" ++
        error.message ++ ")"

end Cause

/-- A cause, and where the node stands that it is about. -/
structure Warning where
  cause : Cause
  source : Option Text.Location
  deriving DecidableEq

/-- The whole report, on one line. -/
def Warning.message (warning : Warning) : String :=
  match warning.source with
  | some source => "css-apply: " ++ source.text ++ ": " ++ warning.cause.text
  | none => "css-apply: " ++ warning.cause.text

end ApplyRule
