/-
The numbering of tokens.

A token's number is how many tokens start before it.  Tokens without text share
the number of the next token that has some.  Numbers are words, and the count is
taken modulo 2^32 without a check, so tokens are told apart by their numbers only
in a file with fewer tokens than there are words.
-/
import LpcSymbols.Word

namespace LpcSymbols

/-- The offsets at which the tokens of a file start. -/
structure TokenStarts where
  starts : List Nat
deriving DecidableEq, Inhabited

namespace TokenStarts

/-- No number is less than the one before it. -/
def ascends : List Nat → Bool
  | a :: b :: rest => a ≤ b && ascends (b :: rest)
  | _ => true

/-- The starts of tokens in the order of the text. -/
def ofList (starts : List Nat) : Except Fault TokenStarts :=
  if ascends starts then .ok ⟨starts⟩ else .error .startsNotAscending

/-- Number of tokens. -/
def count (s : TokenStarts) : Nat := s.starts.length

/-- There is no token. -/
def isEmpty (s : TokenStarts) : Bool := s.starts.isEmpty

/-- How many tokens start before an offset. -/
def before (s : TokenStarts) (offset : Nat) : Nat := (s.starts.takeWhile (· < offset)).length

/-- The number of the first token at an offset or behind it, as a word. -/
def rank (s : TokenStarts) (offset : Nat) : Nat := s.before offset % Word.bound

end TokenStarts

end LpcSymbols
