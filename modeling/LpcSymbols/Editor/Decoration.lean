/-
What an editor draws over the text of a file.

The names in the file are highlighted, each with the class of what it names, and
the insides of functions, branches and closures can be folded.  Both are listed from
the top of the file to its bottom.
-/
import LpcSymbols.Analysis.Model

namespace LpcSymbols

/-! ### Highlights -/

/-- The class of a highlighted name. -/
inductive NameClass where
  | namespaceName
  | functionName
  | variableName
  | parameterName
  | macroName
deriving DecidableEq, Inhabited

namespace NameClass

/-- Name of the class. -/
def name : NameClass → String
  | .namespaceName => "Namespace"
  | .functionName => "Function"
  | .variableName => "Variable"
  | .parameterName => "Parameter"
  | .macroName => "Macro"

/-- The number by which editors know the class. -/
def index : NameClass → Nat
  | .namespaceName => 0
  | .functionName => 1
  | .variableName => 2
  | .parameterName => 3
  | .macroName => 4

/-- The class of a symbol's name. -/
def ofData? : SymbolData → Option NameClass
  | .method _ => some .functionName
  | .variable _ => some .variableName
  | .parameter _ => some .parameterName
  | .define _ => some .macroName
  | .includeFile _ | .inheritFile _ => some .namespaceName
  | .reference .function => some .functionName
  | .reference .variable => some .variableName
  | _ => none

end NameClass

/-- A highlighted name. -/
structure Highlight where
  place : LineCol
  /-- Length of the name, in bytes. -/
  length : Nat
  nameClass : NameClass
deriving DecidableEq, Inhabited

namespace Highlight

/-- By line, then by column. -/
def startsBefore (a b : Highlight) : Bool :=
  a.place.line < b.place.line || (a.place.line == b.place.line && a.place.col ≤ b.place.col)

/-- The highlight of a symbol that has a name with a place and a class. -/
def ofSymbol? (lines : LineMap) (s : Symbol) : Option Highlight := do
  let range ← s.nameRange
  let nameClass ← NameClass.ofData? s.data
  return ⟨lines.lineCol range.start, range.length, nameClass⟩

end Highlight

/-- The highlights of a file, by their place. -/
def FileModel.highlights (m : FileModel) : List Highlight :=
  (m.table.toList.filterMap (Highlight.ofSymbol? m.lines)).mergeSort Highlight.startsBefore

/-! ### Folds -/

/-- The folds of all symbols, by their start. -/
def FileModel.folds (m : FileModel) : List Fold :=
  (m.table.toList.filterMap (·.data.fold?)).mergeSort Fold.startsBefore

end LpcSymbols
