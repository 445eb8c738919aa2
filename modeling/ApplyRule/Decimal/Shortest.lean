/-
# ApplyRule.Decimal.Shortest -- the fewest digits that read back

A binary floating-point number `m * 2 ^ q` stands for every real number that
rounds to it.  `Binary.shortest` finds the decimal number with the fewest digits
among these reals, and of two such numbers the nearer one, the greater one on a
tie.  All comparisons are exact, in natural numbers.

`Single.text` writes a number of single precision with these digits: in
positional notation with at least one digit after the point, and with an
exponent from ten to the sixteenth on and below one ten-thousandth.
-/

namespace ApplyRule.Decimal

set_option autoImplicit false

/-- Powers of two and of ten; a negative exponent counts as zero. -/
def twos (exponent : Int) : Nat := Nat.pow 2 exponent.toNat
def tens (exponent : Int) : Nat := Nat.pow 10 exponent.toNat

/-- The decimal number `digits * 10 ^ exponent`. -/
structure Scaled where
  digits : Nat
  exponent : Int

/-- The positive number `mantissa * 2 ^ exponent`.  `wide` says that the number
below is only half as far away as the one above. -/
structure Binary where
  mantissa : Nat
  exponent : Int
  wide : Bool

namespace Binary

/-- The quotient that compares `n * 2 ^ (b.exponent - 2)` with `10 ^ exponent`: a
numerator factor and a denominator. -/
def ratio (b : Binary) (exponent : Int) : Nat × Nat :=
  let quarters := b.exponent - 2
  (twos quarters * tens (-exponent), twos (-quarters) * tens exponent)

/-- The multiple of `10 ^ exponent` that reads back as the number, if there is
one: of the two around the number the nearer, the greater one on a tie. -/
def onGrid? (b : Binary) (exponent : Int) : Option Scaled :=
  let (up, down) := b.ratio exponent
  -- Everything below is in units of a quarter of the last binary place.
  let value := 4 * b.mantissa * up
  let low := (4 * b.mantissa - (if b.wide then 1 else 2)) * up
  let high := (4 * b.mantissa + 2) * up
  let reads (n : Nat) : Bool :=
    let n := n * down
    0 < n && (if b.mantissa % 2 = 0 then low ≤ n && n ≤ high else low < n && n < high)
  let below := value / down
  let above := below + 1
  match reads below, reads above with
  | true, true =>
      if value - below * down < above * down - value then some ⟨below, exponent⟩
      else some ⟨above, exponent⟩
  | true, false => some ⟨below, exponent⟩
  | false, true => some ⟨above, exponent⟩
  | false, false => none

/-- The decimal number with the fewest digits that reads back as the number,
sought on ever finer grids of powers of ten. -/
def shortest (b : Binary) (coarsest : Int) (grids : Nat) : Scaled :=
  ((List.range grids).findSome? fun (i : Nat) => b.onGrid? (coarsest - i)).getD ⟨0, 0⟩

end Binary

/-! ## Single precision -/

namespace Single

/-- The positive number that the exponent and fraction bits of a single stand
for. -/
def decode (exponent fraction : Nat) : Binary :=
  if exponent = 0 then ⟨fraction, -149, false⟩
  else ⟨fraction + twos 23, exponent - 150, fraction = 0 && 1 < exponent⟩

/-- Digits with a point after the `point`-th, and zeros where digits are
missing. -/
def positional (digits : List Char) (point : Int) : String :=
  let zeros (n : Int) : List Char := List.replicate n.toNat '0'
  let whole := if point ≤ 0 then ['0'] else digits.take point.toNat ++ zeros (point - digits.length)
  let fraction := zeros (-point) ++ digits.drop point.toNat
  String.ofList (whole ++ '.' :: (if fraction.isEmpty then ['0'] else fraction))

/-- Digits with a point after the first, and the exponent of that digit. -/
def scientific (digits : List Char) (point : Int) : String :=
  String.ofList (digits.take 1 ++ (if digits.length ≤ 1 then [] else '.' :: digits.drop 1)) ++
    "e" ++ toString (point - 1)

/-- The digits of a number without zeros at the end. -/
def significant (n : Nat) : List Char :=
  ((Nat.toDigits 10 n).reverse.dropWhile (· = '0')).reverse

/-- A positive number in decimal digits. -/
def magnitude (b : Binary) : String :=
  let scaled := b.shortest 40 100
  let point : Int := (Nat.toDigits 10 scaled.digits).length + scaled.exponent
  let digits := significant scaled.digits
  if 16 < point || point < -3 then scientific digits point else positional digits point

/-- The single with the given bits, in decimal digits. -/
def text (bits : UInt32) : String :=
  let bits := bits.toNat
  let sign := if bits / twos 31 = 1 then "-" else ""
  let exponent := bits / twos 23 % twos 8
  let fraction := bits % twos 23
  if exponent = 255 then
    if fraction = 0 then sign ++ "inf" else "NaN"
  else if exponent = 0 && fraction = 0 then sign ++ "0.0"
  else sign ++ magnitude (decode exponent fraction)

end Single

end ApplyRule.Decimal
