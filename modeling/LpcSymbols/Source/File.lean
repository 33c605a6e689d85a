/-
Files and dialects.

A file is known to the library by a number; what path the number stands for is
the caller's business.  LPC has two dialects, LDMud and FluffOS.  Whoever built
the tree knows which of them it follows, and the library passes that on.
-/

namespace LpcSymbols

/-- The number of a source file. -/
structure FileId where
  index : Nat
deriving DecidableEq, Inhabited

namespace FileId

/-- How a file is shown. -/
def render (f : FileId) : String := "file#" ++ toString f.index

/-- How the number of a file is shown. -/
def renderNumber (f : FileId) : String := "FileId(" ++ toString f.index ++ ")"

/-- Files in the order of their numbers. -/
def sort (files : List FileId) : List FileId := files.mergeSort (·.index ≤ ·.index)

end FileId

/-- The dialects that a tree follows. -/
structure Dialect where
  ldmud : Bool := false
  fluffos : Bool := false
deriving DecidableEq, Inhabited

/-- Name of the dialect. -/
def Dialect.name (d : Dialect) : String :=
  match d.ldmud, d.fluffos with
  | true, false => "LDMud"
  | false, true => "FluffOS"
  | true, true => "mixed"
  | false, false => "unspecified"

end LpcSymbols
