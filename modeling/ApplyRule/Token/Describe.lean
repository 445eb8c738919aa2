/-
# ApplyRule.Token.Describe -- a token in a message

A message names a token and its value.  Numbers are shown in single precision.
-/
import ApplyRule.Token
import ApplyRule.Text.Escape
import ApplyRule.Decimal.Shortest

namespace ApplyRule

set_option autoImplicit false

/-- A double rounded to single precision, in decimal digits. -/
def singleText (value : Float) : String :=
  Decimal.Single.text value.toFloat32.toBits

namespace Numeral

/-- The integer value, or that there is none. -/
def integerText (n : Numeral) : String :=
  match n.integer? with
  | none => "None"
  | some value => "Some(" ++ toString value ++ ")"

/-- The parts of a number: its sign, its value under a name, its integer value. -/
def fields (n : Numeral) (valueName : String) (value : Float) : String :=
  "has_sign: " ++ toString n.signed ++ ", " ++ valueName ++ ": " ++ singleText value ++
    ", int_value: " ++ n.integerText

end Numeral

namespace Token

/-- A name with its parts. -/
def record (name fields : String) : String :=
  name ++ " \x7b " ++ fields ++ " \x7d"

/-- A name with one text. -/
def labelled (name value : String) : String :=
  name ++ "(" ++ Text.quoted value ++ ")"

/-- The token as a message shows it. -/
def describe : Token → String
  | .ident name => labelled "Ident" name
  | .atKeyword name => labelled "AtKeyword" name
  | .hash name => labelled "Hash" name
  | .idHash name => labelled "IDHash" name
  | .quotedString value => labelled "QuotedString" value
  | .badString value => labelled "BadString" value
  | .unquotedUrl value => labelled "UnquotedUrl" value
  | .badUrl text => labelled "BadUrl" text
  | .function name => labelled "Function" name
  | .delim c => "Delim(" ++ Text.quotedChar c ++ ")"
  | .number value => record "Number" (value.fields "value" value.toFloat)
  | .percentage value =>
      record "Percentage" (value.fields "unit_value" (value.toFloat / 100.0))
  | .dimension value unit =>
      record "Dimension" (value.fields "value" value.toFloat ++ ", unit: " ++ Text.quoted unit)
  | .whitespace => "WhiteSpace"
  | .comment text => labelled "Comment" text
  | .colon => "Colon"
  | .semicolon => "Semicolon"
  | .comma => "Comma"
  | .includeMatch => "IncludeMatch"
  | .dashMatch => "DashMatch"
  | .prefixMatch => "PrefixMatch"
  | .suffixMatch => "SuffixMatch"
  | .substringMatch => "SubstringMatch"
  | .commentOpen => "CDO"
  | .commentClose => "CDC"
  | .opening .round => "ParenthesisBlock"
  | .opening .square => "SquareBracketBlock"
  | .opening .curly => "CurlyBracketBlock"
  | .closing .round => "CloseParenthesis"
  | .closing .square => "CloseSquareBracket"
  | .closing .curly => "CloseCurlyBracket"

end Token

end ApplyRule
