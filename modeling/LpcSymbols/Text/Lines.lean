/-
Lines and columns.

A line map holds the offset of each line's first byte.  A line ends at its
newline, which still belongs to it, so every offset of the text has one line and
one column, and the offset is found again from the two.  Lines and columns count
from zero; people count from one, which is where a word can overflow.

A region is a range of the text as an editor wants it, from place to place.
-/
import LpcSymbols.Text.Cut
import LpcSymbols.Text.Range
import LpcSymbols.Word

namespace LpcSymbols

/-- A place in a text: line, and byte within the line, both from zero. -/
structure LineCol where
  line : Nat
  col : Nat
deriving DecidableEq, Inhabited

namespace LineCol

/-- The line as people count it, from one. -/
def lineNumber (p : LineCol) : Except Fault Nat := Word.succ p.line

/-- Written form, as people count: `1:1` is the start of the text. -/
def render (p : LineCol) : Except Fault String := do
  let line ← p.lineNumber
  let col ← Word.succ p.col
  return toString line ++ ":" ++ toString col

end LineCol

/-- From one place of a text to another. -/
structure Region where
  start : LineCol
  stop : LineCol
deriving DecidableEq, Inhabited

/-- The start of every line of a text, and the length of the text. -/
structure LineMap where
  starts : List Nat
  size : Nat
deriving DecidableEq

namespace LineMap

/-- The map of no text at all: it has no line, not even an empty one. -/
def empty : LineMap := ⟨[], 0⟩

/-- The line starts after the newlines of `cs`, whose first byte is at `offset`. -/
def startsAfter (offset : Nat) : List Char → List Nat
  | [] => []
  | c :: cs =>
    let next := offset + c.utf8Size
    if c = '\n' then next :: startsAfter next cs else startsAfter next cs

/-- The lines of a text.  There is always a first one, at offset zero. -/
def ofText (text : String) : LineMap := ⟨0 :: startsAfter 0 text.toList, Text.size text⟩

/-- Number of lines. -/
def count (m : LineMap) : Nat := m.starts.length

/-- There is no line. -/
def isEmpty (m : LineMap) : Bool := m.starts.isEmpty

/-- The place of an offset: its line is the last one that starts at or before it. -/
def lineCol (m : LineMap) (offset : Nat) : LineCol :=
  let line := (m.starts.takeWhile (· ≤ offset)).length - 1
  ⟨line, offset - m.starts[line]?.getD 0⟩

/-- The offset of a place, if the line exists and reaches that far.  The last column
of a line is the one of its newline. -/
def offset? (m : LineMap) (p : LineCol) : Option Nat := do
  let start ← m.starts[p.line]?
  let stop := (m.starts[p.line + 1]?.map (· - 1)).getD m.size
  if start + p.col ≤ stop then some (start + p.col) else none

/-- A range of the text in lines and columns. -/
def region (m : LineMap) (r : TextRange) : Region := ⟨m.lineCol r.start, m.lineCol r.stop⟩

end LineMap

end LpcSymbols
