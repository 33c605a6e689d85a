/-
Cutting texts.

The rest of the library takes texts apart in four ways: at the first blank of a
directive line, at the end of a macro name, at a final character, and by removing
a pair of delimiters.  All of them work on lists of characters, so that a cut is
a `takeWhile`, a `dropWhile` or a `dropLast`.  Lengths are in bytes of UTF-8, the
unit of every offset of the library.
-/
import LpcSymbols.Text.Blank

namespace LpcSymbols.Text

/-- Length in bytes of UTF-8. -/
def size (s : String) : Nat := s.utf8ByteSize

/-- What stands before the first blank, and what stands after it.  There is nothing
to tell apart in a text without a blank. -/
def atBlank? (s : String) : Option (String × String) :=
  match s.toList.dropWhile (· != ' ') with
  | [] => none
  | _ :: rest => some (String.ofList (s.toList.takeWhile (· != ' ')), String.ofList rest)

/-- A macro name ends at an opening parenthesis or at white space. -/
def endsName (c : Char) : Bool := c == '(' || isBlank c

/-- The macro name that a text starts with; empty if it starts with none. -/
def leadingName (s : String) : String := String.ofList (s.toList.takeWhile (!endsName ·))

/-- The text without its final character, if that is `last`. -/
def dropFinal? (last : Char) (cs : List Char) : Option (List Char) :=
  if cs.getLast? = some last then some cs.dropLast else none

/-- What stands between two delimiters that enclose the whole text.  The two are
different characters of the text, even when they are the same delimiter. -/
def between? (first last : Char) : List Char → Option (List Char)
  | [] => none
  | c :: rest => if c = first then dropFinal? last rest else none

end LpcSymbols.Text
