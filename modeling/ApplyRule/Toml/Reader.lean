/-
# ApplyRule.Toml.Reader -- tables from their text

A text is a sequence of lines: headers, and keys with their values.  A reader takes
characters from the front of the text and fails where they are not what it reads.

Brackets may be nested less than eighty deep, and a key has fewer than eighty
parts.  Repetitions count down the characters that are left; each round takes one
or more of them, so the count never stops a repetition short.
-/
import ApplyRule.Toml.Quoted
import ApplyRule.Toml.Value

namespace ApplyRule.Toml

set_option autoImplicit false

/-- A reader of the front of a text. -/
abbrev Reader (α : Type) := StateT (List Char) Option α

namespace Reader

/-- How deep brackets may be nested, and how many parts a key may have. -/
def depthLimit : Nat := 79

def peek : Reader (Option Char) := do
  return (← get).head?

/-- Whether the text goes on with these characters. -/
def startsWith (text : List Char) : Reader Bool := do
  return text.isPrefixOf (← get)

/-- Take so many characters. -/
def skip (count : Nat) : Reader Unit :=
  modify (·.drop count)

/-- Take a character if it is next. -/
def accept (c : Char) : Reader Bool := do
  match ← get with
  | [] => return false
  | next :: rest =>
      if next = c then
        set rest
        return true
      else return false

/-- Take a character that must be next. -/
def expect (c : Char) : Reader Unit := do
  unless ← accept c do failure

/-- Take the characters of a class at the front. -/
def takeWhile (p : Char → Bool) : Reader (List Char) := do
  let text ← get
  set (text.dropWhile p)
  return text.takeWhile p

def blanks : Reader Unit := do
  let _ ← takeWhile isBlank

/-- Take a comment if one is next. -/
def comment : Reader Unit := do
  if ← accept '#' then
    let _ ← takeWhile isPlain

/-- Take the end of a line, or the end of the text. -/
def lineEnd : Reader Unit := do
  let text ← get
  unless text.isEmpty do
    let length := newlineLength text
    guard (length ≠ 0)
    skip length

/-- Take what may follow a value or a header on its line. -/
def lineRest : Reader Unit := do
  blanks
  comment
  lineEnd

/-- Take blanks, newlines and comments that end their line. -/
def gap : Nat → Reader Unit
  | 0 => return
  | count + 1 => do
      blanks
      if (← peek) = some '#' then
        comment
        guard (newlineLength (← get) ≠ 0)
      let length := newlineLength (← get)
      if length ≠ 0 then
        skip length
        gap count

/-- The number of characters that are left. -/
def remaining : Reader Nat := do
  return (← get).length

/-- One or more of an item, with a mark between two of them. -/
def separated {α : Type} (item : Reader α) (mark : Char) : Nat → Reader (List α)
  | 0 => failure
  | count + 1 => do
      let first ← item
      if ← accept mark then
        return first :: (← separated item mark count)
      else return [first]

/-! ## Keys -/

def isKeyChar (c : Char) : Bool :=
  c.isAlphanum || c = '_' || c = '-'

/-- A string on one line. -/
def quotedKey (read? : List Char → Option (List Char × List Char)) : Reader String := do
  skip 1
  let (value, rest) ← (read? (← get))
  set rest
  return String.ofList value

/-- One part of a key. -/
def keyPart : Reader String := do
  let next ← peek
  if next = some mark then quotedKey basic?
  else if next = some apostrophe then quotedKey literal?
  else
    let name ← takeWhile isKeyChar
    guard !name.isEmpty
    return String.ofList name

/-- A key: the parts before its last one, and that. -/
def key : Reader (List String × String) := do
  let parts ← separated (do blanks; let part ← keyPart; blanks; return part) '.' ((← remaining) + 1)
  guard (parts.length ≤ depthLimit)
  match parts.getLast? with
  | none => failure
  | some last => return (parts.dropLast, last)

/-! ## Values -/

/-- A character of a number, a truth value or a date-time. -/
def isScalarChar (c : Char) : Bool :=
  c.isAlphanum || c = '+' || c = '-' || c = '.' || c = ':' || c = '_'

/-- The characters of a number, a truth value or a date-time.  A space may divide
a date from a time. -/
def scalarText : Reader (List Char) := do
  let text ← takeWhile isScalarChar
  match Date.read? text, ← get with
  | some (_, []), ' ' :: c :: _ =>
      if c.isDigit then
        skip 1
        let time ← takeWhile isScalarChar
        return text ++ ' ' :: time
      else return text
  | _, _ => return text

/-- The value that is all of a text without quotation marks and brackets. -/
def scalar? (text : List Char) : Option Value :=
  if text = ['t', 'r', 'u', 'e'] then some (.boolean true)
  else if text = ['f', 'a', 'l', 's', 'e'] then some (.boolean false)
  else
    ((DateTime.read? text).map .dateTime).or
      (((float? text).map .float).or ((integer? text).map .integer))

/-- A string, or a value without brackets. -/
def simple : Reader Value := do
  let text ← get
  let next := text.head?
  if next = some mark || next = some apostrophe then
    let (value, rest) ← (string? text)
    set rest
    return .string value
  else (scalar? (← scalarText))

/-- What stands in an array: values with commas between them, and possibly one
after the last. -/
def elements (value : Reader Value) : Nat → Reader (List Value)
  | 0 => failure
  | count + 1 => do
      gap ((← remaining) + 1)
      if ← accept ']' then return []
      let first ← value
      gap ((← remaining) + 1)
      if ← accept ',' then
        return first :: (← elements value count)
      expect ']'
      return [first]

/-- What stands in an inline table. -/
def pairs (value : Reader Value) : Reader Entries := do
  blanks
  if ← accept '}' then return []
  let pair : Reader (List String × String × Value) := do
    let (path, last) ← key
    expect '='
    blanks
    let value ← value
    blanks
    return (path, last, value)
  let all ← separated pair ',' ((← remaining) + 1)
  expect '}'
  (all.foldlM (fun entries (path, last, value) => insertDotted path last value .inline entries) [])

/-- A value with brackets nested at most `depth` deep. -/
def value : Nat → Reader Value
  | 0 => do
      guard ((← peek) ≠ some '[' && (← peek) ≠ some '{')
      simple
  | depth + 1 => do
      if ← accept '[' then return .array (← elements (value depth) ((← remaining) + 1))
      else if ← accept '{' then return .table .inline (← pairs (value depth))
      else simple

/-! ## Lines -/

/-- The tables that were read, and the header that the next keys belong to. -/
structure State where
  root : Entries
  header : List String

/-- A line with a header. -/
def header (state : State) : Reader State := do
  expect '['
  let double ← accept '['
  let (path, last) ← key
  expect ']'
  if double then expect ']'
  lineRest
  let root ← (if double then openElement path last state.root else openTable path last state.root)
  return ⟨root, path ++ [last]⟩

/-- A line with a key and its value. -/
def pair (state : State) : Reader State := do
  let (path, last) ← key
  expect '='
  blanks
  let value ← value depthLimit
  lineRest
  let root ← (insertAt state.header path last value state.root)
  return { state with root }

/-- All lines of a text. -/
def lines : Nat → State → Reader State
  | 0, _ => failure
  | count + 1, state => do
      blanks
      match ← peek with
      | none => return state
      | some '[' => lines count (← header state)
      | some '#' => do
          lineRest
          lines count state
      | some c =>
          if c = '\n' || c = '\r' then
            lineEnd
            lines count state
          else lines count (← pair state)

end Reader

/-- The table that a text stands for, which a byte order mark may precede. -/
def parse? (text : String) : Option Entries := do
  let characters := text.toList
  let characters := if characters.head? = some '\uFEFF' then characters.tail else characters
  let (state, _) ← (Reader.lines (characters.length + 1) ⟨[], []⟩).run characters
  return state.root

end ApplyRule.Toml
