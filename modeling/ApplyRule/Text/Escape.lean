/-
# ApplyRule.Text.Escape -- text between quotation marks

Quoted text shows every character: a backslash, the enclosing mark and the
common controls are written with a backslash, and a character without a visible
form of its own by its code point.
-/
import ApplyRule.Text.Unprintable

namespace ApplyRule.Text

set_option autoImplicit false

/-- A code point in hexadecimal digits, as in `\\u` and brackets. -/
def codePoint (c : Char) : String :=
  "\\u\x7b" ++ String.ofList (Nat.toDigits 16 c.toNat) ++ "\x7d"

/-- A character as it is written between two `mark`s. -/
def escaped (mark c : Char) : String :=
  if c = '\x00' then "\\0"
  else if c = '\t' then "\\t"
  else if c = '\r' then "\\r"
  else if c = '\n' then "\\n"
  else if c = '\\' then "\\\\"
  else if c = mark then String.ofList ['\\', mark]
  else if isUnprintable c then codePoint c
  else String.singleton c

/-- Text between quotation marks. -/
def quoted (text : String) : String :=
  "\x22" ++ text.toList.foldl (fun out c => out ++ escaped '\x22' c) "" ++ "\x22"

/-- A character between apostrophes. -/
def quotedChar (c : Char) : String :=
  "\x27" ++ escaped '\x27' c ++ "\x27"

end ApplyRule.Text
