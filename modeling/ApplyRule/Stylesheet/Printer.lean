/-
# ApplyRule.Stylesheet.Printer -- a stylesheet as text

An item is printed from its kind and its raws.  In a container every child is
preceded by its own leading text, and a declaration or an at-rule without a block
is terminated when another statement follows it in the container or when the
container says that its last statement is terminated; comments do not count.
-/
import ApplyRule.Forest
import ApplyRule.Stylesheet.Item

namespace ApplyRule

set_option autoImplicit false

/-- A block in its brackets, given the text of what it holds. -/
def Raws.block (raws : Raws) (body : String) : String :=
  raws.between ++ "\x7b" ++ body ++ raws.after ++ "\x7d"

/-- An item's text without what stands before it, given the text of what it
holds. -/
def Item.print (item : Item) (terminated : Bool) (body : String) : String :=
  match item.kind with
  | .root => body ++ item.raws.after
  | .declaration property value =>
      property ++ item.raws.between ++ value ++
        (if terminated then item.raws.after ++ ";" else "")
  | .comment text => "/*" ++ text ++ "*/"
  | .rule selector =>
      selector ++ item.raws.block body ++ item.raws.ownSemicolon.getD ""
  | .atRule name params hasBlock =>
      "@" ++ name ++ (if params.isEmpty then "" else item.raws.afterName ++ params) ++
        (if hasBlock then item.raws.block body
         else item.raws.between ++ (if terminated then ";" else ""))

/-- Whether some tree of the forest is not a comment. -/
def Forest.hasStatement : Forest Item → Bool
  | .nil => false
  | .cons item _ rest => !item.kind.isComment || rest.hasStatement

/-- The text of a container's children; `terminated` says whether the last
statement is. -/
def Forest.print (terminated : Bool) : Forest Item → String
  | .nil => ""
  | .cons item children rest =>
      item.raws.before ++
        item.print (rest.hasStatement || terminated) (children.print item.raws.semicolon) ++
        rest.print terminated

/-- The text of one tree on its own, without what stands before it. -/
def Item.printTree (item : Item) (children : Forest Item) : String :=
  item.print false (children.print item.raws.semicolon)

end ApplyRule
