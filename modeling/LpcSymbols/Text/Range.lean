/-
Ranges of a text, in bytes.

A range has a start and a stop, and the stop is not part of it.  Two kinds of
membership matter: a range inside a range, and an offset touching a range, which
it also does at the stop, as a cursor behind the last character still touches the
word.
-/

namespace LpcSymbols

/-- The bytes from `start` up to, and without, `stop`. -/
structure TextRange where
  start : Nat
  stop : Nat
deriving DecidableEq, Inhabited

namespace TextRange

/-- The range that starts at `start` and holds `length` bytes. -/
def ofLength (start length : Nat) : TextRange := ⟨start, start + length⟩

/-- Number of bytes. -/
def length (r : TextRange) : Nat := r.stop - r.start

/-- The other range lies inside this one. -/
def contains (r other : TextRange) : Bool := r.start ≤ other.start && other.stop ≤ r.stop

/-- The offset lies in the range or at its stop. -/
def touches (r : TextRange) (offset : Nat) : Bool := r.start ≤ offset && offset ≤ r.stop

/-- Written form, as in `3..8`. -/
def render (r : TextRange) : String := toString r.start ++ ".." ++ toString r.stop

end TextRange

end LpcSymbols
