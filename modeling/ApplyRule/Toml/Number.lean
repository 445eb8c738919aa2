/-
# ApplyRule.Toml.Number -- integers and floats

A number is written in decimal digits, an integer also in hexadecimal, octal or
binary ones, and an underscore may stand between two digits.  An integer must fit
into 64 bits, and a float must not exceed the greatest double.
-/

namespace ApplyRule.Toml

set_option autoImplicit false

/-- Digits of a class without the underscores between them; `none` unless the
text is one digit or more with single underscores between digits. -/
def digitsOf? (isDigit : Char → Bool) : List Char → Option (List Char)
  | [] => none
  | c :: rest =>
      if !isDigit c then none
      else
        match rest with
        | [] => some [c]
        | '_' :: rest => (digitsOf? isDigit rest).map (c :: ·)
        | rest => (digitsOf? isDigit rest).map (c :: ·)

/-- The value of a digit in bases up to sixteen. -/
def digitValue (c : Char) : Nat :=
  if c.isDigit then c.toNat - '0'.toNat
  else c.toLower.toNat - 'a'.toNat + 10

/-- The number that digits stand for in a base. -/
def ofBase (base : Nat) (digits : List Char) : Nat :=
  digits.foldl (fun n c => n * base + digitValue c) 0

def isHex (c : Char) : Bool :=
  c.isDigit || ('a' ≤ c.toLower && c.toLower ≤ 'f')

def isOctal (c : Char) : Bool :=
  '0' ≤ c && c ≤ '7'

def isBinary (c : Char) : Bool :=
  c = '0' || c = '1'

/-- A sign at the front: whether it is a minus, and what follows it. -/
def signed : List Char → Bool × List Char
  | '+' :: rest => (false, rest)
  | '-' :: rest => (true, rest)
  | text => (false, text)

/-- Decimal digits that start with a zero only if that is the only one. -/
def decimal? (text : List Char) : Option (List Char) :=
  match text with
  | '0' :: _ :: _ => none
  | text => digitsOf? Char.isDigit text

/-- The integer that is all of a text. -/
def integer? (text : List Char) : Option Int := do
  let value : Int ←
    match text with
    | '0' :: 'x' :: rest => (digitsOf? isHex rest).map fun ds => Int.ofNat (ofBase 16 ds)
    | '0' :: 'o' :: rest => (digitsOf? isOctal rest).map fun ds => Int.ofNat (ofBase 8 ds)
    | '0' :: 'b' :: rest => (digitsOf? isBinary rest).map fun ds => Int.ofNat (ofBase 2 ds)
    | text =>
        let (negative, rest) := signed text
        (decimal? rest).map fun ds =>
          if negative then -Int.ofNat (ofBase 10 ds) else Int.ofNat (ofBase 10 ds)
  guard (-9223372036854775808 ≤ value && value ≤ 9223372036854775807)
  return value

/-- A float as it is written: `digits * 10 ^ exponent`, or one that is no
number or has no bound. -/
inductive Float where
  | finite (negative : Bool) (digits : Nat) (exponent : Int)
  | infinite (negative : Bool)
  | notANumber
  deriving DecidableEq

/-- Whether a number rounds to more than the greatest double. -/
def overflows (digits : Nat) (exponent : Int) : Bool :=
  let places : Int := (Nat.toDigits 10 digits).length + exponent
  if digits = 0 || places < 300 then false
  else if 400 < places then true
  else
    (Nat.pow 2 1024 - Nat.pow 2 970) * Nat.pow 10 (-exponent).toNat ≤
      digits * Nat.pow 10 exponent.toNat

/-- The exponent that is all of a text after its mark. -/
def exponent? (text : List Char) : Option Int :=
  let (negative, rest) := signed text
  (digitsOf? Char.isDigit rest).map fun ds =>
    if negative then -Int.ofNat (ofBase 10 ds) else Int.ofNat (ofBase 10 ds)

/-- The float with these whole digits that a fraction and an exponent follow. -/
def finite? (negative : Bool) (whole tail : List Char) : Option Float := do
  let isMark (c : Char) : Bool := c = 'e' || c = 'E'
  let (fraction, tail) ←
    match tail with
    | '.' :: rest => do
        let digits ← digitsOf? Char.isDigit (rest.takeWhile (!isMark ·))
        pure (digits, rest.dropWhile (!isMark ·))
    | tail => pure ([], tail)
  let exponent ←
    match tail with
    | [] => pure 0
    | mark :: rest => if isMark mark then exponent? rest else none
  let digits := ofBase 10 (whole ++ fraction)
  let scaled := exponent - fraction.length
  guard (negative || !overflows digits scaled)
  return .finite negative digits scaled

/-- The float that is all of a text. -/
def float? (text : List Char) : Option Float :=
  let (negative, rest) := signed text
  if rest = ['i', 'n', 'f'] then some (.infinite negative)
  else if rest = ['n', 'a', 'n'] then some .notANumber
  else do
    let inWhole (c : Char) : Bool := c.isDigit || c = '_'
    let whole ← decimal? (rest.takeWhile inWhole)
    let tail := rest.dropWhile inWhole
    guard !tail.isEmpty
    finite? negative whole tail

end ApplyRule.Toml
