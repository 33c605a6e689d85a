/-
Positions and spans in tokens.

A position is that of a token: its line, counted from one, its column, and its
number among the tokens of the file, which is a word.  A span goes from the first to
the last significant token of a construct.  One span lies inside another by the
numbers of its tokens alone; lines and columns are for people.
-/
import LpcSymbols.Word

namespace LpcSymbols

/-- Where a token starts. -/
structure TokenPos where
  /-- Line, from one. -/
  line : Nat
  /-- Byte within the line, from zero. -/
  column : Nat
  /-- How many tokens start earlier, modulo 2^32. -/
  index : Nat
deriving DecidableEq, Inhabited

namespace TokenPos

/-- By line, then by column, then by number. -/
def compare (a b : TokenPos) : Ordering :=
  ((Ord.compare a.line b.line).then (Ord.compare a.column b.column)).then
    (Ord.compare a.index b.index)

/-- Written form: line and column. -/
def render (p : TokenPos) : String := toString p.line ++ ":" ++ toString p.column

end TokenPos

/-- From the first to the last significant token of a construct. -/
structure Span where
  start : TokenPos
  stop : TokenPos
deriving DecidableEq, Inhabited

namespace Span

/-- The span of a file without significant tokens. -/
def zero : Span := ⟨⟨0, 0, 0⟩, ⟨0, 0, 0⟩⟩

/-- Its lines are unsigned words. -/
def fits (s : Span) : Bool := Word.fits s.start.line && Word.fits s.stop.line

/-- The other span's tokens are tokens of this one. -/
def contains (s other : Span) : Bool :=
  s.start.index ≤ other.start.index && other.stop.index ≤ s.stop.index

/-- Written form: start and stop. -/
def render (s : Span) : String := s.start.render ++ ".." ++ s.stop.render

end Span

end LpcSymbols
