/-
# ApplyRule.Token -- the tokens of a stylesheet

A token carries the value of what is written, with escapes resolved.  A `Lexeme`
is a token together with the text it was read from and the place where that text
starts; only the text is ever printed back.

Brackets come in three shapes.  A function token opens a round bracket too.
-/
import ApplyRule.Token.Numeral
import ApplyRule.Text.Location

namespace ApplyRule

set_option autoImplicit false

/-- The shape of a bracket. -/
inductive Bracket where
  | round
  | square
  | curly
  deriving DecidableEq

inductive Token where
  | ident (name : String)
  | atKeyword (name : String)
  /-- A number sign and a name that is not an identifier. -/
  | hash (name : String)
  /-- A number sign and an identifier. -/
  | idHash (name : String)
  | quotedString (value : String)
  /-- A string that a newline breaks off. -/
  | badString (value : String)
  | unquotedUrl (value : String)
  | badUrl (text : String)
  /-- A name and the round bracket that directly follows it. -/
  | function (name : String)
  | delim (char : Char)
  | number (value : Numeral)
  | percentage (value : Numeral)
  | dimension (value : Numeral) (unit : String)
  | whitespace
  | comment (text : String)
  | colon
  | semicolon
  | comma
  | includeMatch
  | dashMatch
  | prefixMatch
  | suffixMatch
  | substringMatch
  | commentOpen
  | commentClose
  | opening (bracket : Bracket)
  | closing (bracket : Bracket)
  deriving DecidableEq

namespace Token

/-- The bracket that the token opens. -/
def opens? : Token → Option Bracket
  | .function _ => some .round
  | .opening bracket => some bracket
  | _ => none

/-- The bracket that the token closes. -/
def closes? : Token → Option Bracket
  | .closing bracket => some bracket
  | _ => none

/-- Whether the token closes the innermost of the open brackets. -/
def closesFirst (token : Token) : List Bracket → Bool
  | [] => false
  | bracket :: _ => token.closes? = some bracket

end Token

/-- A token, the text it was read from, and where that text starts. -/
structure Lexeme where
  token : Token
  text : List Char
  start : Text.Location
  deriving DecidableEq

/-- Where the lexeme's text ends. -/
def Lexeme.stop (lexeme : Lexeme) : Text.Location :=
  lexeme.start.advance lexeme.text

end ApplyRule
