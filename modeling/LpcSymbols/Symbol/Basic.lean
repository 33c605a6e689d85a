/-
Symbols.

A symbol stands for a construct of a source file: a definition, a declaration, a
reference, or a region that owns other symbols.  Symbols are numbered; number 0 is
the file itself.  What a construct says of itself is a draft; the draft becomes a
symbol when a table gives it a number and a place below another symbol.
-/
import LpcSymbols.Symbol.Fold
import LpcSymbols.Symbol.ValueType
import LpcSymbols.Tree.Grammar
import LpcSymbols.Tree.Reference

namespace LpcSymbols

/-- The number of a symbol in its table. -/
abbrev SymbolId := Nat

namespace SymbolId

/-- The symbol of the file. -/
def root : SymbolId := 0

/-- How a number is shown. -/
def render (id : SymbolId) : String := "SymbolId(" ++ toString id ++ ")"

/-- Numbers in their order. -/
def sort (ids : List SymbolId) : List SymbolId := ids.mergeSort (· ≤ ·)

end SymbolId

/-- How an identifier is used. -/
inductive Usage where
  | variable
  | function
deriving DecidableEq, Inhabited

/-- Name of the usage. -/
def Usage.name : Usage → String
  | .variable => "Variable"
  | .function => "Function"

/-- The branches of an `if` statement. -/
structure Branches where
  ifBranch : Option SymbolId := none
  elseIfs : List SymbolId := []
  elseBranch : Option SymbolId := none
deriving DecidableEq, Inhabited

namespace Branches

/-- All branches in the order in which they are tried. -/
def toList (b : Branches) : List SymbolId := b.ifBranch.toList ++ b.elseIfs ++ b.elseBranch.toList

/-- One more branch.  Of several first or last branches the earliest stays. -/
def add (b : Branches) (branch : Branch) (id : SymbolId) : Branches :=
  match branch with
  | .ifBranch => { b with ifBranch := b.ifBranch.or (some id) }
  | .elseIf => { b with elseIfs := b.elseIfs ++ [id] }
  | .elseBranch => { b with elseBranch := b.elseBranch.or (some id) }

end Branches

/-- What a symbol stands for. -/
inductive SymbolKind where
  | file
  | define
  | includeFile
  | inheritFile
  | variable
  | parameter
  | method
  | ifStatement
  | selection
  | inlineClosure
  | reference
  | preprocessor
  | expression
deriving DecidableEq, Inhabited

namespace SymbolKind

/-- Name of the kind. -/
def name : SymbolKind → String
  | .file => "File"
  | .define => "Define"
  | .includeFile => "Include"
  | .inheritFile => "Inherit"
  | .variable => "Variable"
  | .parameter => "Parameter"
  | .method => "Method"
  | .ifStatement => "If"
  | .selection => "Selection"
  | .inlineClosure => "InlineClosure"
  | .reference => "IdentifierReference"
  | .preprocessor => "Preprocessor"
  | .expression => "Expression"

/-- Symbols of the kind own other symbols. -/
def isScope : SymbolKind → Bool
  | .file | .method | .ifStatement | .selection | .inlineClosure | .preprocessor | .expression => true
  | .define | .includeFile | .inheritFile | .variable | .parameter | .reference => false

end SymbolKind

/-- What a symbol stands for, and what is known of it. -/
inductive SymbolData where
  /-- The file. -/
  | file
  /-- A macro: its name with parameters and body, as written. -/
  | define (body : String)
  | includeFile (target : String)
  | inheritFile (target : String)
  | variable (type : ValueType)
  | parameter (type : ValueType)
  | method (fold : Fold)
  | ifStatement (branches : Branches)
  /-- One branch of an `if` statement. -/
  | selection (branch : Branch) (fold : Fold)
  | inlineClosure (displayName : Option String) (shape : Option ClosureShape) (fold : Fold)
  | reference (usage : Usage)
  /-- A region of conditional compilation. -/
  | preprocessor (keyword : String)
  /-- A primary expression. -/
  | expression
deriving DecidableEq, Inhabited

namespace SymbolData

/-- What the symbol stands for. -/
def kind : SymbolData → SymbolKind
  | .file => .file
  | .define _ => .define
  | .includeFile _ => .includeFile
  | .inheritFile _ => .inheritFile
  | .variable _ => .variable
  | .parameter _ => .parameter
  | .method _ => .method
  | .ifStatement _ => .ifStatement
  | .selection _ _ => .selection
  | .inlineClosure _ _ _ => .inlineClosure
  | .reference _ => .reference
  | .preprocessor _ => .preprocessor
  | .expression => .expression

/-- The type of a variable or parameter. -/
def type? : SymbolData → Option ValueType
  | .variable type | .parameter type => some type
  | _ => none

/-- The fold of a construct that has one. -/
def fold? : SymbolData → Option Fold
  | .method fold | .selection _ fold | .inlineClosure _ _ fold => some fold
  | _ => none

end SymbolData

/-- All that a construct says of the symbol it becomes. -/
structure Draft where
  name : String
  data : SymbolData
  /-- The node of the construct. -/
  node : NodeRef
  span : Span
  /-- The range of the name, if the construct has one. -/
  nameRange : Option TextRange := none
deriving DecidableEq, Inhabited

/-- The lines of the draft are words: unsigned in its span, signed in its fold. -/
def Draft.fits (d : Draft) : Bool := d.span.fits && d.data.fold?.all Fold.fits

/-- A symbol of a table. -/
structure Symbol extends Draft where
  id : SymbolId
  /-- The symbol that owns this one; only the file has none. -/
  parent : Option SymbolId
  /-- The symbols that this one owns, in the order of their creation. -/
  children : List SymbolId
deriving DecidableEq, Inhabited

namespace Symbol

/-- What the symbol stands for. -/
def kind (s : Symbol) : SymbolKind := s.data.kind

/-- The symbol may own others. -/
def isScope (s : Symbol) : Bool := s.kind.isScope

/-- The range of the symbol's node. -/
def range (s : Symbol) : TextRange := s.node.range

end Symbol

end LpcSymbols
