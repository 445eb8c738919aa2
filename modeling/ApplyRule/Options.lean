/-
# ApplyRule.Options -- what a run is told beforehand

The options say whether definitions in rule form stay in the stylesheet, and give
sets that are there before the stylesheet is read.  They are written as a table
with the keys `preserve` and `sets`; other keys mean nothing.
-/
import ApplyRule.NameMap
import ApplyRule.Toml.Reader

namespace ApplyRule

set_option autoImplicit false

structure Options where
  preserve : Bool := false
  sets : NameMap String := .empty

namespace Options

/-- The key of the one entry that a date-time has where a table is wanted. -/
def dateTimeKey : String := "$__toml_private_datetime"

/-- The entries of a value that is a table.  A date-time counts as a table of one
entry, its text. -/
def entries? : Toml.Value → Option Toml.Entries
  | .table _ entries => some entries
  | .dateTime value => some [(dateTimeKey, .string value.text)]
  | _ => none

/-- The sets in a table of texts. -/
def sets? (value : Toml.Value) : Option (NameMap String) := do
  let entries ← entries? value
  let texts ← entries.mapM fun (name, value) =>
    match value with
    | .string text => some (name, text)
    | _ => none
  return .ofList texts

/-- The options that a table gives. -/
def ofEntries? (entries : Toml.Entries) : Option Options := do
  let preserve ←
    match NameMap.find? "preserve" entries with
    | none => some false
    | some (.boolean value) => some value
    | some _ => none
  let sets ←
    match NameMap.find? "sets" entries with
    | none => some .empty
    | some value => sets? value
  return { preserve, sets }

/-- The options that a text gives. -/
def parse? (text : String) : Option Options := do
  ofEntries? (← Toml.parse? text)

end Options

end ApplyRule
