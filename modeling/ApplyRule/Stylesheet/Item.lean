/-
# ApplyRule.Stylesheet.Item -- what a stylesheet is made of

An item is a comment, a declaration, a rule, an at-rule or a root that holds
other items.  Its `Raws` keep the formatting around it, so that text that was
read is printed back as it was written.
-/
import ApplyRule.Text.Location

namespace ApplyRule

set_option autoImplicit false

/-- What an item is. -/
inductive Kind where
  | root
  | rule (selector : String)
  | atRule (name params : String) (hasBlock : Bool)
  | declaration (property value : String)
  | comment (text : String)
  deriving DecidableEq

namespace Kind

/-- Whether an item of this kind may hold others. -/
def isContainer : Kind → Bool
  | .root => true
  | .rule _ => true
  | .atRule _ _ hasBlock => hasBlock
  | .declaration _ _ => false
  | .comment _ => false

def isRoot : Kind → Bool
  | .root => true
  | _ => false

def isRule : Kind → Bool
  | .rule _ => true
  | _ => false

def isDeclaration : Kind → Bool
  | .declaration _ _ => true
  | _ => false

def isComment : Kind → Bool
  | .comment _ => true
  | _ => false

/-- Whether an item of this kind is an at-rule of the given name. -/
def isAtRule (name : String) : Kind → Bool
  | .atRule own _ _ => own = name
  | _ => false

/-- The word for the kind in messages. -/
def word : Kind → String
  | .root => "root"
  | .rule _ => "rule"
  | .atRule _ _ _ => "atrule"
  | .declaration _ _ => "decl"
  | .comment _ => "comment"

end Kind

/-- The formatting of an item. -/
structure Raws where
  /-- Text between the item before and this one. -/
  before : String := ""
  /-- Text around a declaration's colon, before a block, or before the semicolon
  of an at-rule without one. -/
  between : String := ""
  /-- Text between an at-rule's name and its parameters. -/
  afterName : String := ""
  /-- Text at the end of a block or before a declaration's semicolon. -/
  after : String := ""
  /-- Whether the last statement in a container ends with a semicolon. -/
  semicolon : Bool := false
  /-- The semicolon that follows a rule's block, with the blanks before it. -/
  ownSemicolon : Option String := none
  deriving DecidableEq

/-- A kind, its formatting, and where it was written. -/
structure Item where
  kind : Kind
  raws : Raws
  source : Option Text.Location
  deriving DecidableEq

/-- An item with another source. -/
def Item.stamp (source : Option Text.Location) (item : Item) : Item :=
  { item with source := source }

end ApplyRule
