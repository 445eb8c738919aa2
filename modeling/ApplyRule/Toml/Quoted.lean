/-
# ApplyRule.Toml.Quoted -- strings

A basic string stands between quotation marks and knows escapes; a literal string
stands between apostrophes and means what it says.  Between three marks a string
may run over lines: a newline directly after the opening marks is left out, every
newline is read as a line feed, and in a basic string a backslash at the end of a
line leaves out all white space up to the next character.  Up to two marks may
stand directly before the closing ones.

The functions read what follows the opening mark, and return the string and what
follows it.
-/
import ApplyRule.Toml.Number

namespace ApplyRule.Toml

set_option autoImplicit false

def isBlank (c : Char) : Bool :=
  c = ' ' || c = '\t'

/-- A character that may stand in a comment or a string: no control but the
tab. -/
def isPlain (c : Char) : Bool :=
  c = '\t' || (0x20 ≤ c.toNat && c.toNat ≠ 0x7F)

/-- The length of the newline at the front. -/
def newlineLength : List Char → Nat
  | '\n' :: _ => 1
  | '\r' :: '\n' :: _ => 2
  | _ => 0

def mark : Char := '\x22'
def apostrophe : Char := '\x27'

/-! ## Escapes -/

/-- The character whose code point is written in `count` hexadecimal digits at the
front, and their number. -/
def codePoint? (count : Nat) (text : List Char) : Option (Char × Nat) :=
  let digits := text.take count
  let value := ofBase 16 digits
  if digits.length = count ∧ digits.all isHex ∧ value.isValidChar then
    some (Char.ofNat value, count)
  else none

/-- The character that is escaped by what follows a backslash, and the length of
that. -/
def escape? : List Char → Option (Char × Nat)
  | [] => none
  | c :: rest =>
      if c = 'b' then some ('\x08', 1)
      else if c = 't' then some ('\t', 1)
      else if c = 'n' then some ('\n', 1)
      else if c = 'f' then some ('\x0c', 1)
      else if c = 'r' then some ('\r', 1)
      else if c = mark then some (mark, 1)
      else if c = '\\' then some ('\\', 1)
      else if c = 'u' then (codePoint? 4 rest).map fun (c, n) => (c, n + 1)
      else if c = 'U' then (codePoint? 8 rest).map fun (c, n) => (c, n + 1)
      else none

/-- The length of the white space and newlines at the front. -/
def gapLength : List Char → Nat
  | ' ' :: rest => gapLength rest + 1
  | '\t' :: rest => gapLength rest + 1
  | '\n' :: rest => gapLength rest + 1
  | '\r' :: '\n' :: rest => gapLength rest + 2
  | _ => 0

/-- The length of what follows a backslash that ends its line, with all the white
space after it; zero if the line does not end there. -/
def lineEndLength (text : List Char) : Nat :=
  let blanks := (text.takeWhile isBlank).length
  let rest := text.drop blanks
  if newlineLength rest = 0 then 0 else blanks + gapLength rest

/-! ## Strings -/

/-- A string on one line. -/
def basic? (text : List Char) : Option (List Char × List Char) :=
  match text with
  | [] => none
  | c :: rest =>
      if c = mark then some ([], rest)
      else if c = '\\' then
        match escape? rest with
        | none => none
        | some (escaped, length) =>
            (basic? (rest.drop length)).map fun (value, rest) => (escaped :: value, rest)
      else if isPlain c then (basic? rest).map fun (value, rest) => (c :: value, rest)
      else none
termination_by text.length
decreasing_by all_goals (simp only [List.length_drop, List.length_cons]; omega)

/-- A literal string on one line. -/
def literal? : List Char → Option (List Char × List Char)
  | [] => none
  | c :: rest =>
      if c = apostrophe then some ([], rest)
      else if isPlain c then (literal? rest).map fun (value, rest) => (c :: value, rest)
      else none

/-- A string over lines that three `quote`s close; `escapes` says whether it knows
escapes. -/
def multiline? (quote : Char) (escapes : Bool) (text : List Char) :
    Option (List Char × List Char) :=
  match text with
  | [] => none
  | c :: rest =>
      if c = quote then
        let more := (rest.takeWhile (· = quote)).length
        if more < 2 then (multiline? quote escapes rest).map fun (value, rest) => (c :: value, rest)
        else if more < 5 then some (List.replicate (more - 2) quote, rest.drop more)
        else none
      else if newlineLength (c :: rest) ≠ 0 then
        (multiline? quote escapes (rest.drop (newlineLength (c :: rest) - 1))).map
          fun (value, rest) => ('\n' :: value, rest)
      else if escapes && c = '\\' then
        if lineEndLength rest ≠ 0 then multiline? quote escapes (rest.drop (lineEndLength rest))
        else
          match escape? rest with
          | none => none
          | some (escaped, length) =>
              (multiline? quote escapes (rest.drop length)).map
                fun (value, rest) => (escaped :: value, rest)
      else if isPlain c then
        (multiline? quote escapes rest).map fun (value, rest) => (c :: value, rest)
      else none
termination_by text.length
decreasing_by all_goals (simp only [List.length_drop, List.length_cons]; omega)

/-- The string at the front, on one line or over several. -/
def string? (text : List Char) : Option (String × List Char) :=
  let found :=
    match text with
    | a :: b :: c :: rest =>
        if (a = mark || a = apostrophe) && b = a && c = a then
          multiline? a (a = mark) (rest.drop (newlineLength rest))
        else if a = mark then basic? (b :: c :: rest)
        else if a = apostrophe then literal? (b :: c :: rest)
        else none
    | a :: rest =>
        if a = mark then basic? rest else if a = apostrophe then literal? rest else none
    | [] => none
  found.map fun (value, rest) => (String.ofList value, rest)

end ApplyRule.Toml
