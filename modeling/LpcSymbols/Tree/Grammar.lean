/-
The parts of LPC constructs.

Each construct is a node of some kind, and its parts are among its children.  A
tree may come from a file with mistakes in it, so every part may be missing.  When
a part could stand in several places the first one counts, and no search goes on
behind it.
-/
import LpcSymbols.Tree.Placed

namespace LpcSymbols

/-- The two ways to write an inline closure. -/
inductive ClosureShape where
  /-- An expression between `(:` and `:)`. -/
  | expression
  /-- The keyword `function` with parameters and a block. -/
  | function
deriving DecidableEq, Inhabited

/-- Name of the shape. -/
def ClosureShape.name : ClosureShape → String
  | .expression => "Expression"
  | .function => "Function"

namespace Node

/-! ### Directives -/

/-- The line of a macro definition, from its `#` to its end. -/
def defineLine? (n : Node) : Option Token := n.token? .defineLine

/-- What the line of a macro definition begins with, up to the first blank. -/
def defineHead? (n : Node) : Option String :=
  n.defineLine?.map fun line => ((Text.atBlank? line.text).map (·.1)).getD line.text

/-- The macro with its parameters and its body: all that follows the first blank. -/
def defineBody (n : Node) : String :=
  ((n.defineLine?.bind fun line => Text.atBlank? line.text).map (·.2)).getD ""

/-- The range of the macro's name in the line of its definition. -/
def macroNameRange? (line : Token) : Option TextRange := do
  let (head, rest) ← Text.atBlank? line.text
  let length := Text.size (Text.leadingName rest)
  if length = 0 then none
  else some (.ofLength (line.start + Text.size head + 1) length)

/-- The file that an include directive names, with its delimiters. -/
def includeTarget? (n : Node) : Option Token :=
  n.childTokens.find? fun t => t.kind == .stringLit || t.kind == .headerName

/-- The keyword of a directive for conditional compilation. -/
def directiveKeyword? (n : Node) : Option Token := n.token? .ppKeyword

/-! ### Declarations -/

/-- What an inherit statement names. -/
def inheritTarget? (n : Node) : Option Node := n.child? .inheritTarget

/-- The text of what is inherited; there may be none. -/
def targetText? (n : Node) : Option String :=
  if n.significantText.isEmpty then none else some n.significantText

/-- The identifier of a name, or of an identifier expression. -/
def ident? (n : Node) : Option Token := n.token? .ident

/-- The name of a function header, parameter or declarator. -/
def name? (n : Node) : Option Node := n.child? .name

/-- The identifier of the name. -/
def nameIdent? (n : Node) : Option Token := n.name?.bind ident?

/-- The header of a function. -/
def header? (n : Node) : Option Node := n.child? .functionHeader

/-- The identifier that a function is declared with. -/
def functionIdent? (n : Node) : Option Token := n.header?.bind nameIdent?

/-- The type of a parameter or variable declaration. -/
def type? (n : Node) : Option Node := n.child? .primitiveType

/-- The variables of a declaration. -/
def declarators (n : Node) : List Node := n.childrenOf .variableDeclarator

/-! ### Expressions -/

/-- The calls of a primary expression. -/
def invocations (n : Node) : List Node := n.childrenOf .methodInvocation

/-- The primary expression calls something. -/
def hasInvocation (n : Node) : Bool := !n.invocations.isEmpty

/-- The identifier of a primary expression whose operand is a bare name. -/
def operandIdent? (n : Node) : Option Token := (n.child? .identExpr).bind ident?

/-- The name to which an assignment assigns. -/
def assignedName? (n : Node) : Option String := do
  let target ← n.childNodes.head?
  if target.kind = .primaryExpr then target.operandIdent?.map (·.text) else none

/-- The nearest primary expression among the nodes around an identifier. -/
def nearestPrimary? (around : List Node) : Option Node := around.find? (·.kind == .primaryExpr)

/-- How an inline closure is written, by its opening token. -/
def closureShape? (n : Node) : Option ClosureShape :=
  n.childTokens.findSome? fun t =>
    match t.kind with
    | .closureOpen => some .expression
    | .functionKw => some .function
    | _ => none

/-- The name that a node gives to a closure somewhere inside it: that of the variable
it initialises, of the variable it is assigned to, or of the function it is passed to. -/
def givesClosureName? (n : Node) : Option String :=
  match n.kind with
  | .variableDeclarator => n.nameIdent?.map (·.text)
  | .assignExpr => n.assignedName?
  | .primaryExpr => if n.hasInvocation then n.operandIdent?.map (·.text) else none
  | _ => none

/-- The name of a closure, from the nearest node around it that gives one.  The search
ends with the statement. -/
def closureName? (around : List Node) : Option String :=
  (around.takeWhile (!·.kind.endsStatement)).findSome? givesClosureName?

end Node

end LpcSymbols
