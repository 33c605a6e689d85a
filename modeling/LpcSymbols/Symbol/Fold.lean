/-
Folds.

A fold hides the inside of a construct, so it ends one line above the line on
which the construct ends.  Lines count from zero here and may fall below zero.
They are signed words: the word of a span is read as a signed one, and what is
subtracted from it has to stay a signed word.
-/
import LpcSymbols.Source.Position

namespace LpcSymbols

/-- The lines and columns that a fold covers. -/
structure Fold where
  startLine : Int
  startCol : Nat
  endLine : Int
  endCol : Nat
deriving DecidableEq, Inhabited

namespace Fold

/-- The fold of a span. -/
def ofSpan (s : Span) : Fold :=
  ⟨Word.toSigned s.start.line - 1, s.start.column, Word.toSigned s.stop.line - 2, s.stop.column⟩

/-- Its lines are signed words. -/
def fits (f : Fold) : Bool := Word.fitsSigned f.startLine && Word.fitsSigned f.endLine

/-- The fold of a span, if its lines are signed words. -/
def ofSpan? (s : Span) : Except Fault Fold :=
  if (ofSpan s).fits then .ok (ofSpan s) else .error .overflow

/-- There is more than one line to hide. -/
def isCollapsible (f : Fold) : Bool := f.endLine > f.startLine

/-- By first line, then by first column. -/
def startsBefore (a b : Fold) : Bool :=
  a.startLine < b.startLine || (a.startLine == b.startLine && a.startCol ≤ b.startCol)

end Fold

end LpcSymbols
