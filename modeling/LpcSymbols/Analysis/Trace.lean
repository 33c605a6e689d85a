/-
The trace of an analysis, and its statistics.

The trace tells in order which symbols were opened and closed, how deep they were
nested, and which constructs were left out.
-/
import LpcSymbols.Analysis.Omission
import LpcSymbols.Source.File
import LpcSymbols.Symbol.Basic

namespace LpcSymbols

/-- Something that happens in an analysis. -/
inductive TraceEvent where
  /-- The analysis of a file begins. -/
  | began (file : FileId)
  /-- A symbol was opened; `depth` symbols are open now. -/
  | entered (scope : SymbolId) (depth : Nat)
  /-- The latest open symbol was closed; `depth` symbols are open now. -/
  | left (scope : SymbolId) (depth : Nat)
  /-- A construct gives no symbol. -/
  | omitted (node : NodeRef) (reason : Omission)
  /-- The analysis ended with these numbers of symbols, imports and omissions, and this
  greatest depth. -/
  | ended (symbols imports omissions maxDepth : Nat)
deriving DecidableEq, Inhabited

namespace TraceEvent

/-- How much the event matters. -/
def level : TraceEvent → String
  | .began _ => "INFO"
  | .entered _ _ | .left _ _ => "TRACE"
  | .omitted _ _ | .ended _ _ _ _ => "DEBUG"

/-- What happened. -/
def message : TraceEvent → String
  | .began _ => "build_symbols"
  | .entered _ _ => "enter scope"
  | .left _ _ => "leave scope"
  | .omitted _ _ => "skipped symbol"
  | .ended _ _ _ _ => "built symbol table"

/-- The particulars, by name. -/
def fields : TraceEvent → List (String × String)
  | .began file => [("file", file.render)]
  | .entered scope depth => [("scope", scope.render), ("depth", toString depth)]
  | .left scope depth => [("scope", "Some(" ++ scope.render ++ ")"), ("depth", toString depth)]
  | .omitted node reason =>
    [("kind", reason.construct.render), ("range", node.range.render), ("error", reason.message)]
  | .ended symbols imports omissions maxDepth =>
    [("symbols", toString symbols), ("imports", toString imports),
     ("skipped", toString omissions), ("max_depth", toString maxDepth)]

/-- The event is an omission. -/
def isOmission : TraceEvent → Bool
  | .omitted _ _ => true
  | _ => false

end TraceEvent

/-- The numbers of an analysis. -/
structure Stats where
  /-- Symbols opened. -/
  opened : Nat := 0
  /-- Symbols closed. -/
  closed : Nat := 0
  /-- The most symbols open at a time. -/
  maxDepth : Nat := 0
  /-- Constructs that give no symbol. -/
  omissions : Nat := 0
deriving DecidableEq, Inhabited

/-- What was opened was closed. -/
def Stats.isBalanced (s : Stats) : Bool := s.opened == s.closed

end LpcSymbols
