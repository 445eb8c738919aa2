/-
# ApplyRule.Token.Scan -- cutting text into lexemes

`Token.read c rest` names the token at the front of the text `c :: rest` and the
number of characters of `rest` that belong to it.  `lexemes` cuts the text at
these lengths, so the texts of the lexemes are the whole text in order, whatever
the lengths are (`textOf_lexemes`).

The parts of a token are read by functions that return a value and the number of
characters it was read from.
-/
import ApplyRule.Token

namespace ApplyRule

set_option autoImplicit false

open Text

/-- What stands for a character that cannot be had. -/
def replacement : Char := '\uFFFD'

/-- A null character is read as the replacement character. -/
def cleaned (c : Char) : Char :=
  if c = '\x00' then replacement else c

namespace Scan

/-! ## Escapes -/

/-- The value of a hexadecimal digit. -/
def hexDigit? (c : Char) : Option Nat :=
  if c.isDigit then some (c.toNat - '0'.toNat)
  else if 'a' ≤ c && c ≤ 'f' then some (c.toNat - 'a'.toNat + 10)
  else if 'A' ≤ c && c ≤ 'F' then some (c.toNat - 'A'.toNat + 10)
  else none

def isHexDigit (c : Char) : Bool := (hexDigit? c).isSome

/-- The number that hexadecimal digits stand for. -/
def ofHexDigits (digits : List Char) : Nat :=
  digits.foldl (fun n c => n * 16 + (hexDigit? c).getD 0) 0

/-- The character with a code point, or the replacement character if there is
none or if it is null. -/
def ofCodePoint (n : Nat) : Char :=
  if n ≠ 0 ∧ n.isValidChar then Char.ofNat n else replacement

/-- The length of the newline at the front. -/
def newlineLength : List Char → Nat
  | '\r' :: '\n' :: _ => 2
  | c :: _ => if isNewline c then 1 else 0
  | [] => 0

/-- The length of the one white space at the front that ends a hexadecimal
escape. -/
def blankLength : List Char → Nat
  | [] => 0
  | c :: rest => if c = ' ' || c = '\t' then 1 else newlineLength (c :: rest)

/-- The character that is escaped by what follows a backslash. -/
def escape : List Char → Char × Nat
  | [] => (replacement, 0)
  | c :: rest =>
      if isHexDigit c then
        let digits := ((c :: rest).take 6).takeWhile isHexDigit
        (ofCodePoint (ofHexDigits digits),
          digits.length + blankLength ((c :: rest).drop digits.length))
      else (cleaned c, 1)

/-- Whether the front of the text starts a new line, so that a backslash before
it escapes nothing. -/
def startsLine : List Char → Bool
  | [] => false
  | c :: _ => isNewline c

/-! ## Names -/

/-- A character that starts a name. -/
def isNameStart (c : Char) : Bool :=
  c.isAlpha || c = '_' || c = '\x00' || c.toNat ≥ 0x80

/-- A character that continues a name. -/
def isNameChar (c : Char) : Bool :=
  isNameStart c || c.isDigit || c = '-'

/-- Whether an identifier stands at the front. -/
def startsIdent : List Char → Bool
  | [] => false
  | '-' :: rest =>
      match rest with
      | [] => false
      | c :: _ => isNameStart c || c = '-' || c = '\\'
  | '\\' :: rest => !startsLine rest
  | c :: _ => isNameStart c

/-- The name at the front. -/
def name (text : List Char) : List Char × Nat :=
  match text with
  | [] => ([], 0)
  | c :: rest =>
      if c = '\\' then
        if startsLine rest then ([], 0)
        else
          let (escaped, length) := escape rest
          let (more, moreLength) := name (rest.drop length)
          (escaped :: more, moreLength + length + 1)
      else if isNameChar c then
        let (more, moreLength) := name rest
        (cleaned c :: more, moreLength + 1)
      else ([], 0)
termination_by text.length
decreasing_by all_goals (simp only [List.length_drop, List.length_cons]; omega)

/-! ## Comments and strings -/

/-- The text of a comment, and its length with the end mark. -/
def commentText : List Char → List Char × Nat
  | [] => ([], 0)
  | '*' :: '/' :: _ => ([], 2)
  | c :: rest =>
      let (more, length) := commentText rest
      (c :: more, length + 1)

/-- What was read of a string or a URL: its value, its length, and whether it
came to a proper end. -/
structure Run where
  value : List Char
  length : Nat
  sound : Bool

/-- A run with one more character in front, read from `length` characters. -/
def Run.cons (c : Char) (length : Nat) (run : Run) : Run :=
  { run with value := c :: run.value, length := run.length + length }

/-- A run after `length` characters without a value. -/
def Run.skip (length : Nat) (run : Run) : Run :=
  { run with length := run.length + length }

/-- The string that `mark` ends.  A newline breaks it off, an escaped newline is
left out, and the end of the text ends it. -/
def quoted (mark : Char) (text : List Char) : Run :=
  match text with
  | [] => ⟨[], 0, true⟩
  | c :: rest =>
      if c = mark then ⟨[], 1, true⟩
      else if isNewline c then ⟨[], 0, false⟩
      else if c = '\\' then
        if rest.isEmpty then ⟨[], 1, true⟩
        else if startsLine rest then
          (quoted mark (rest.drop (newlineLength rest))).skip (newlineLength rest + 1)
        else
          let (escaped, length) := escape rest
          (quoted mark (rest.drop length)).cons escaped (length + 1)
      else (quoted mark rest).cons (cleaned c) 1
termination_by text.length
decreasing_by all_goals (simp only [List.length_drop, List.length_cons]; omega)

/-! ## URLs -/

def quotationMark : Char := '\x22'
def apostrophe : Char := '\x27'

/-- A control character, which no URL may hold. -/
def isControl (c : Char) : Bool :=
  let n := c.toNat
  (1 ≤ n && n ≤ 8) || n = 0x0B || (0x0E ≤ n && n ≤ 0x1F) || n = 0x7F

/-- The URL at the front, up to the closing bracket.  White space may only stand
before the bracket; a run that is not sound ends with the character that spoils
it. -/
def url (text : List Char) : Run :=
  match text with
  | [] => ⟨[], 0, true⟩
  | c :: rest =>
      if c = ')' then ⟨[], 1, true⟩
      else if isBlank c then
        let gap := (rest.takeWhile isBlank).length
        match rest.dropWhile isBlank with
        | [] => ⟨[], gap + 1, true⟩
        | next :: _ => ⟨[], gap + 2, next = ')'⟩
      else if c = quotationMark || c = apostrophe || c = '(' || isControl c then ⟨[], 1, false⟩
      else if c = '\\' then
        if startsLine rest then ⟨[], 1, false⟩
        else
          let (escaped, length) := escape rest
          (url (rest.drop length)).cons escaped (length + 1)
      else (url rest).cons (cleaned c) 1
termination_by text.length
decreasing_by all_goals (simp only [List.length_drop, List.length_cons]; omega)

/-- The number of characters before the bracket that ends a spoilt URL.  A
bracket or a backslash after a backslash does not end it. -/
def urlRemains : List Char → Nat
  | [] => 0
  | '\\' :: ')' :: rest => urlRemains rest + 2
  | '\\' :: '\\' :: rest => urlRemains rest + 2
  | c :: rest => if c = ')' then 0 else urlRemains rest + 1

/-- The URL token for what follows the opening bracket; `none` if a quotation
mark comes first, so that the bracket opens an ordinary function. -/
def urlToken? (text : List Char) : Option (Token × Nat) :=
  let gap := (text.takeWhile isBlank).length
  match text.dropWhile isBlank with
  | [] => some (.unquotedUrl "", gap)
  | c :: rest =>
      if c = quotationMark || c = apostrophe then none
      else
        let run := url (c :: rest)
        if run.sound then some (.unquotedUrl (String.ofList run.value), gap + run.length)
        else
          let length := run.length + urlRemains ((c :: rest).drop run.length)
          let closed := ((c :: rest).drop length).length.min 1
          some (.badUrl (String.ofList ((c :: rest).take length)), gap + length + closed)

/-! ## Numbers -/

/-- The decimal digits at the front. -/
def digits (text : List Char) : List Nat :=
  (text.takeWhile Char.isDigit).map fun c => c.toNat - '0'.toNat

/-- Whether a digit stands at the front. -/
def startsDigit : List Char → Bool
  | [] => false
  | c :: _ => c.isDigit

/-- Whether the digits of a number stand at the front. -/
def startsMagnitude : List Char → Bool
  | '.' :: rest => startsDigit rest
  | text => startsDigit text

/-- Whether a number stands at the front. -/
def startsNumeral : List Char → Bool
  | '+' :: rest => startsMagnitude rest
  | '-' :: rest => startsMagnitude rest
  | text => startsMagnitude text

/-- The sign at the front: whether it is a minus, and its length. -/
def sign : List Char → Bool × Nat
  | '+' :: _ => (false, 1)
  | '-' :: _ => (true, 1)
  | _ => (false, 0)

/-- The digits after the point at the front, and their length with the point. -/
def fraction : List Char → List Nat × Nat
  | '.' :: rest => if startsDigit rest then (digits rest, (digits rest).length + 1) else ([], 0)
  | _ => ([], 0)

/-- The exponent at the front. -/
def exponent : List Char → Option Exponent × Nat
  | [] => (none, 0)
  | c :: rest =>
      let (negative, length) := sign rest
      let magnitude := rest.drop length
      if (c = 'e' || c = 'E') && startsDigit magnitude then
        (some ⟨negative, digits magnitude⟩, (digits magnitude).length + length + 1)
      else (none, 0)

/-- The number at the front. -/
def numeral (text : List Char) : Numeral × Nat :=
  let (negative, signLength) := sign text
  let afterSign := text.drop signLength
  let whole := digits afterSign
  let afterWhole := afterSign.drop whole.length
  let (fraction, fractionLength) := fraction afterWhole
  let (exponent, exponentLength) := exponent (afterWhole.drop fractionLength)
  (⟨signLength = 1, negative, whole, fraction, exponent⟩,
    signLength + whole.length + fractionLength + exponentLength)

/-- The number, percentage or dimension at the front. -/
def numeric (text : List Char) : Token × Nat :=
  let (value, length) := numeral text
  let rest := text.drop length
  match rest with
  | '%' :: _ => (.percentage value, length + 1)
  | _ =>
      if startsIdent rest then
        let (unit, unitLength) := name rest
        (.dimension value (String.ofList unit), length + unitLength)
      else (.number value, length)

/-! ## Tokens -/

/-- The identifier, function or URL at the front. -/
def identLike (text : List Char) : Token × Nat :=
  let (value, length) := name text
  match text.drop length with
  | '(' :: rest =>
      let function := (Token.function (String.ofList value), length + 1)
      if value.map Char.toLower = ['u', 'r', 'l'] then
        match urlToken? rest with
        | some (token, urlLength) => (token, length + 1 + urlLength)
        | none => function
      else function
  | _ => (.ident (String.ofList value), length)

/-- The match operator that the character and an equals sign make. -/
def matcher? : Char → Option Token
  | '~' => some .includeMatch
  | '|' => some .dashMatch
  | '^' => some .prefixMatch
  | '$' => some .suffixMatch
  | '*' => some .substringMatch
  | _ => none

/-- The token that a character makes on its own. -/
def single : Char → Token
  | '(' => .opening .round
  | '[' => .opening .square
  | '{' => .opening .curly
  | ')' => .closing .round
  | ']' => .closing .square
  | '}' => .closing .curly
  | ':' => .colon
  | ';' => .semicolon
  | ',' => .comma
  | c => .delim c

/-- Whether `mark` is the front of the text. -/
def startsWith (mark text : List Char) : Bool :=
  mark.isPrefixOf text

end Scan

open Scan

/-- The token at the front of `c :: rest`, and how many characters of `rest`
belong to it. -/
def Token.read (c : Char) (rest : List Char) : Token × Nat :=
  if isBlank c then (.whitespace, (rest.takeWhile isBlank).length)
  else if c = quotationMark || c = apostrophe then
    let run := quoted c rest
    let value := String.ofList run.value
    (if run.sound then .quotedString value else .badString value, run.length)
  else if c = '#' then
    if startsIdent rest then
      let (value, length) := name rest
      (.idHash (String.ofList value), length)
    else if startsDigit rest || startsWith ['-'] rest then
      let (value, length) := name rest
      (.hash (String.ofList value), length)
    else (.delim '#', 0)
  else if c = '@' && startsIdent rest then
    let (value, length) := name rest
    (.atKeyword (String.ofList value), length)
  else if c = '/' && startsWith ['*'] rest then
    let (text, length) := commentText (rest.drop 1)
    (.comment (String.ofList text), length + 1)
  else if c = '<' && startsWith ['!', '-', '-'] rest then (.commentOpen, 3)
  else if startsNumeral (c :: rest) then
    let (token, length) := numeric (c :: rest)
    (token, length - 1)
  else if c = '-' && startsWith ['-', '>'] rest then (.commentClose, 2)
  else if startsIdent (c :: rest) then
    let (token, length) := identLike (c :: rest)
    (token, length - 1)
  else
    match matcher? c, rest with
    | some token, '=' :: _ => (token, 1)
    | _, _ => (single c, 0)

/-- The lexemes of a text that starts at `here`. -/
def lexemesFrom (here : Location) (text : List Char) : List Lexeme :=
  match text with
  | [] => []
  | c :: rest =>
      let (token, length) := Token.read c rest
      let lexeme : Lexeme := ⟨token, c :: rest.take length, here⟩
      lexeme :: lexemesFrom lexeme.stop (rest.drop length)
termination_by text.length
decreasing_by simp only [List.length_drop, List.length_cons]; omega

/-- The lexemes of a text. -/
def lexemes (text : List Char) : List Lexeme :=
  lexemesFrom .first text

/-- The text that lexemes were read from. -/
def Lexeme.textOf (lexemes : List Lexeme) : List Char :=
  lexemes.flatMap Lexeme.text

/-- No character is lost and none is read twice. -/
theorem textOf_lexemesFrom (here : Location) (text : List Char) :
    Lexeme.textOf (lexemesFrom here text) = text := by
  fun_induction lexemesFrom here text with
  | case1 => rfl
  | case2 here c rest token length read lexeme ih =>
      simp only [Lexeme.textOf] at ih
      simp [Lexeme.textOf, ih, lexeme]

theorem textOf_lexemes (text : List Char) : Lexeme.textOf (lexemes text) = text :=
  textOf_lexemesFrom .first text

end ApplyRule
