/-
# ApplyRule.Token.Numeral -- a number as it is written

A numeral keeps its digits, so nothing is rounded while a stylesheet is read.
`Numeral.integer?` is the value of a numeral without fraction and exponent,
`Numeral.toFloat` the value in double precision, digit by digit from the left.
-/

namespace ApplyRule

set_option autoImplicit false

/-- The power of ten after a numeral's digits. -/
structure Exponent where
  negative : Bool
  digits : List Nat
  deriving DecidableEq

/-- A written number: its sign, if one is written, the digits before and after
the point, and the exponent. -/
structure Numeral where
  signed : Bool
  negative : Bool
  whole : List Nat
  fraction : List Nat
  exponent : Option Exponent
  deriving DecidableEq

/-- The natural number that decimal digits stand for. -/
def ofDigits (digits : List Nat) : Nat :=
  digits.foldl (fun n d => n * 10 + d) 0

namespace Numeral

/-- The least and the greatest integer of 32 bits. -/
def leastInteger : Int := -2147483648
def greatestInteger : Int := 2147483647

/-- The value of a numeral that has neither fraction nor exponent, held between
the least and the greatest integer of 32 bits. -/
def integer? (n : Numeral) : Option Int :=
  if n.fraction.isEmpty && n.exponent.isNone then
    let magnitude : Int := ofDigits n.whole
    some (max leastInteger (min greatestInteger (if n.negative then -magnitude else magnitude)))
  else none

/-- The double that digits stand for, from the left. -/
def wholeFloat (digits : List Nat) : Float :=
  digits.foldl (fun n d => n * 10.0 + Float.ofNat d) 0.0

/-- The double that digits after the point stand for: each digit is weighed by a
factor that shrinks by a tenth. -/
def fractionFloat (digits : List Nat) : Float :=
  (digits.foldl (fun (sum, factor) d => (sum + Float.ofNat d * factor, factor * 0.1))
    ((0.0 : Float), (0.1 : Float))).1

/-- The value in double precision. -/
def toFloat (n : Numeral) : Float :=
  let sign : Float := if n.negative then -1.0 else 1.0
  let value := sign * (wholeFloat n.whole + fractionFloat n.fraction)
  match n.exponent with
  | none => value
  | some e =>
      let sign : Float := if e.negative then -1.0 else 1.0
      value * Float.pow 10.0 (sign * wholeFloat e.digits)

end Numeral

end ApplyRule
