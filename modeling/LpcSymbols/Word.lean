/-
Machine words.

Positions and counters are unsigned numbers of 32 bits, and the lines of a fold
are signed ones.  Sums are checked: one that leaves the width is a fault.  Reading
an unsigned number as a signed one is not checked, it takes the number modulo
2^32 into the signed range.
-/
import LpcSymbols.Fault

namespace LpcSymbols.Word

/-- Unsigned words are below this bound. -/
def bound : Nat := 4294967296

/-- The number is an unsigned word. -/
def fits (n : Nat) : Bool := n < bound

/-- One more, if that is still an unsigned word. -/
def succ (n : Nat) : Except Fault Nat :=
  if fits (n + 1) then .ok (n + 1) else .error .overflow

/-- The number is a signed word. -/
def fitsSigned (z : Int) : Bool := -2147483648 ≤ z && z < 2147483648

/-- An unsigned word read as a signed one. -/
def toSigned (n : Nat) : Int := Int.bmod n bound

end LpcSymbols.Word
