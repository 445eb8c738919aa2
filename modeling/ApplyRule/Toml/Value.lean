/-
# ApplyRule.Toml.Value -- values and the tables they stand in

A table remembers how it came about, because that decides what may still be added
to it: an inline table is complete, a table with a header of its own has no second
header, and keys with dots only extend tables that keys with dots made.

`descend` follows a path of keys from a table, makes the tables that are missing,
and changes the table at its end.
-/
import ApplyRule.NameMap
import ApplyRule.Toml.DateTime
import ApplyRule.Toml.Number

namespace ApplyRule.Toml

set_option autoImplicit false

/-- How a table came about. -/
inductive Origin where
  /-- It is written in curly brackets. -/
  | inline
  /-- It has a header of its own. -/
  | header
  /-- The header of a table below it implies it. -/
  | implied
  /-- Keys with dots made it. -/
  | dotted
  deriving DecidableEq

inductive Value where
  | string (text : String)
  | integer (value : Int)
  | float (value : Float)
  | boolean (value : Bool)
  | dateTime (value : DateTime)
  | array (values : List Value)
  | table (origin : Origin) (entries : List (String × Value))
  /-- Tables that each have a header in double brackets. -/
  | tables (all : List (List (String × Value)))

/-- The entries of a table, in order. -/
abbrev Entries := List (String × Value)

open NameMap (find? put)

/-- Follow `path` from a table with `entries`, make the tables that are missing,
and change the one at its end as `change` says.  `dotted` says whether the path is
part of a key or of a header. -/
def descend (dotted : Bool) (change : Origin → Entries → Option Entries) :
    List String → Origin → Entries → Option Entries
  | [], origin, entries => change origin entries
  | key :: path, _, entries => do
      match find? key entries with
      | none =>
          let origin := if dotted then .dotted else .implied
          let inner ← descend dotted change path origin []
          return put key (.table origin inner) entries
      | some (.table origin inner) =>
          guard (origin ≠ .inline && !(dotted && origin = .header))
          let inner ← descend dotted change path origin inner
          return put key (.table origin inner) entries
      | some (.tables all) =>
          let inner ← descend dotted change path .header (all.getLast?.getD [])
          return put key (.tables (all.dropLast ++ [inner])) entries
      | some _ => none

/-- A table with one more value, at a path of keys with dots.  A path may only lead
to a table that such keys made, and no key may come twice. -/
def insertDotted (path : List String) (key : String) (value : Value) (origin : Origin)
    (entries : Entries) : Option Entries :=
  descend true (fun origin entries => do
      guard (path.isEmpty || origin = .dotted)
      guard (find? key entries).isNone
      return put key value entries)
    path origin entries

/-- The root with one more value, in the table that `header` names. -/
def insertAt (header path : List String) (key : String) (value : Value) (root : Entries) :
    Option Entries :=
  descend false (insertDotted path key value) header .header root

/-- The root with the table of a header, which must be new or only implied. -/
def openTable (path : List String) (key : String) (root : Entries) : Option Entries :=
  descend false (fun _ entries =>
      match find? key entries with
      | none => some (put key (.table .header []) entries)
      | some (.table .implied inner) => some (put key (.table .header inner) entries)
      | some _ => none)
    path .header root

/-- The root with one more table of a header in double brackets. -/
def openElement (path : List String) (key : String) (root : Entries) : Option Entries :=
  descend false (fun _ entries =>
      match find? key entries with
      | none => some (put key (.tables [[]]) entries)
      | some (.tables all) => some (put key (.tables (all ++ [[]])) entries)
      | some _ => none)
    path .header root

end ApplyRule.Toml
