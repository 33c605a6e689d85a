/-
Requests that have no answer.

Most operations of the library are total.  The few that are not say why they
failed: a number left its machine width, a symbol was asked for that the table
does not have, a tree was built from calls that do not fit together, symbols were
not closed as they were opened.
-/

namespace LpcSymbols

/-- Why a request has no answer. -/
inductive Fault where
  /-- A number does not fit its machine width. -/
  | overflow
  /-- The table has no symbol of this number. -/
  | unknownSymbol (id : Nat)
  /-- A symbol was to be created below one that owns no children. -/
  | parentNotScope (parent : Nat)
  /-- A node was to be finished and none is open. -/
  | noOpenNode
  /-- A finished tree has to be one node. -/
  | notOneNode
  /-- Token starts have to ascend. -/
  | startsNotAscending
  /-- A node reference leads to no node of the tree. -/
  | danglingReference
  /-- A symbol was to be closed and none was open, or one was still open at the end. -/
  | unbalancedScopes
deriving DecidableEq, Inhabited

/-- What is said of a fault. -/
def Fault.message : Fault → String
  | .overflow => "number out of range"
  | .unknownSymbol id => "no symbol SymbolId(" ++ toString id ++ ")"
  | .parentNotScope parent => "parent SymbolId(" ++ toString parent ++ ") is not a scope"
  | .noOpenNode => "no open node to finish"
  | .notOneNode => "a finished tree has to be one node"
  | .startsNotAscending => "token starts have to ascend"
  | .danglingReference => "node reference leads nowhere"
  | .unbalancedScopes => "scopes are not closed as they were opened"

end LpcSymbols
