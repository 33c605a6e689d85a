/-
Phrases of LPC.

Small trees that occur everywhere, put together from their words: names, types,
identifiers, calls, statements, blocks and conditions.
-/
import LpcSymbols.Tree.Element

namespace LpcSymbols.Phrase

/-- A token of a kind. -/
def word (kind : Kind) (text : String) : Element := .token kind.tag text

/-- A node of a kind. -/
def group (kind : Kind) (children : List Element) : Element := .node kind.tag children

/-- One blank. -/
def blank : Element := word .whitespace " "

/-- One line break. -/
def newline : Element := word .whitespace "\n"

/-- A name: one identifier. -/
def name (text : String) : Element := group .name [word .ident text]

/-- A type keyword, with a star behind it if it is an array. -/
def type (keyword : String) (array : Bool) : Element :=
  group .primitiveType (word .typeKw keyword :: if array then [word .star "*"] else [])

/-- The operand of a bare identifier. -/
def operand (text : String) : Element := group .identExpr [word .ident text]

/-- A bare identifier as an expression. -/
def identifier (text : String) : Element := group .primaryExpr [operand text]

/-- A comma and a blank before each argument but the first. -/
def separated : List Element → List Element
  | [] => []
  | [arg] => [arg]
  | arg :: rest => arg :: word .comma "," :: blank :: separated rest

/-- A call of a function by its name. -/
def call (callee : String) (args : List Element) : Element :=
  let arguments := [word .lParen "("] ++ separated args ++ [word .rParen ")"]
  group .primaryExpr [operand callee, group .methodInvocation [group .argumentList arguments]]

/-- An expression as a statement. -/
def statement (expr : Element) : Element := group .exprStatement [expr, word .semicolon ";"]

/-- A block in braces, with a blank before each item and before the closing brace. -/
def block (items : List Element) : Element :=
  group .block ([word .lCurly "\x7b"] ++ items.flatMap (fun item => [blank, item]) ++
    [blank, word .rCurly "\x7d"])

/-- A condition in parentheses. -/
def condition (expr : Element) : Element :=
  group .condition [word .lParen "(", expr, word .rParen ")"]

end LpcSymbols.Phrase
