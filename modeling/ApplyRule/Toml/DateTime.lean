/-
# ApplyRule.Toml.DateTime -- dates and times

A date-time is a date, a time of day, or both, and with both possibly an offset
from universal time.  `DateTime.read?` takes a written one apart and checks that
it names a day and a time; `DateTime.text` writes it.
-/

namespace ApplyRule.Toml

set_option autoImplicit false

/-- The number that decimal digits stand for; `none` if there is anything else. -/
def natural? (digits : List Char) : Option Nat :=
  if digits.all Char.isDigit then
    some (digits.foldl (fun n c => n * 10 + (c.toNat - '0'.toNat)) 0)
  else none

/-- A number of two digits. -/
def twoDigits (n : Nat) : List Char :=
  if n < 10 then '0' :: Nat.toDigits 10 n else Nat.toDigits 10 n

structure Date where
  year : Nat
  month : Nat
  day : Nat
  deriving DecidableEq

/-- A time of day with at most nine digits of a second's fraction, none of them a
zero at the end. -/
structure Time where
  hour : Nat
  minute : Nat
  second : Nat
  fraction : List Char
  deriving DecidableEq

/-- The time ahead of universal time, or behind it. -/
inductive Offset where
  | universal
  | minutes (behind : Bool) (count : Nat)
  deriving DecidableEq

structure DateTime where
  date : Option Date
  time : Option Time
  offset : Option Offset
  deriving DecidableEq

/-! ## Writing -/

namespace Date

def text (date : Date) : List Char :=
  let year := Nat.toDigits 10 date.year
  List.replicate (4 - year.length) '0' ++ year ++ '-' :: twoDigits date.month ++
    '-' :: twoDigits date.day

def isLeap (year : Nat) : Bool :=
  year % 4 = 0 && (year % 100 ≠ 0 || year % 400 = 0)

def daysIn (year month : Nat) : Nat :=
  if month = 2 then if isLeap year then 29 else 28
  else if month = 4 || month = 6 || month = 9 || month = 11 then 30
  else 31

end Date

def Time.text (time : Time) : List Char :=
  twoDigits time.hour ++ ':' :: twoDigits time.minute ++ ':' :: twoDigits time.second ++
    (if time.fraction.isEmpty then [] else '.' :: time.fraction)

def Offset.text : Offset → List Char
  | .universal => ['Z']
  | .minutes behind count =>
      (if behind && 0 < count then '-' else '+') ::
        (twoDigits (count / 60) ++ ':' :: twoDigits (count % 60))

def DateTime.text (whole : DateTime) : String :=
  let date := (whole.date.map Date.text).getD []
  let mark := if whole.date.isSome && whole.time.isSome then ['T'] else []
  let time := (whole.time.map Time.text).getD []
  let offset := (whole.offset.map Offset.text).getD []
  String.ofList (date ++ mark ++ time ++ offset)

/-! ## Reading -/

/-- A date at the front, as in `1979-05-27`, and what follows. -/
def Date.read? (text : List Char) : Option (Date × List Char) :=
  match text with
  | a :: b :: c :: d :: '-' :: e :: f :: '-' :: g :: h :: rest => do
      let year ← natural? [a, b, c, d]
      let month ← natural? [e, f]
      let day ← natural? [g, h]
      guard (1 ≤ month && month ≤ 12 && 1 ≤ day && day ≤ daysIn year month)
      return (⟨year, month, day⟩, rest)
  | _ => none

/-- A second's fraction at the front, as in `.250`, and what follows. -/
def readFraction? : List Char → Option (List Char × List Char)
  | '.' :: rest =>
      let digits := rest.takeWhile Char.isDigit
      if digits.isEmpty then none
      else
        some (((digits.take 9).reverse.dropWhile (· = '0')).reverse, rest.dropWhile Char.isDigit)
  | rest => some ([], rest)

/-- A time at the front, as in `07:32:00.5`, and what follows. -/
def Time.read? (text : List Char) : Option (Time × List Char) :=
  match text with
  | a :: b :: ':' :: c :: d :: ':' :: e :: f :: rest => do
      let hour ← natural? [a, b]
      let minute ← natural? [c, d]
      let second ← natural? [e, f]
      guard (hour ≤ 23 && minute ≤ 59 && second ≤ 60)
      let (fraction, rest) ← readFraction? rest
      return (⟨hour, minute, second, fraction⟩, rest)
  | _ => none

/-- The offset that is all of a text, which may be empty. -/
def Offset.read? (text : List Char) : Option (Option Offset) :=
  match text with
  | [] => some none
  | ['Z'] => some (some .universal)
  | ['z'] => some (some .universal)
  | [sign, a, b, ':', c, d] => do
      guard (sign = '+' || sign = '-')
      let hours ← natural? [a, b]
      let minutes ← natural? [c, d]
      guard (hours ≤ 23 && minutes ≤ 59)
      return some (.minutes (sign = '-') (hours * 60 + minutes))
  | _ => none

/-- The date-time that is all of a text. -/
def DateTime.read? (text : List Char) : Option DateTime :=
  match Date.read? text with
  | some (date, []) => some ⟨some date, none, none⟩
  | some (date, mark :: rest) => do
      guard (mark = 'T' || mark = 't' || mark = ' ')
      let (time, rest) ← Time.read? rest
      let offset ← Offset.read? rest
      return ⟨some date, some time, offset⟩
  | none =>
      match Time.read? text with
      | some (time, []) => some ⟨none, some time, none⟩
      | _ => none

end ApplyRule.Toml
