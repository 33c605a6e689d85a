/-
The tree of a source file.

The root of a tree is a node, whatever its kind; the tree belongs to a file and
follows a dialect.  It is made of elements or from the events that report it.
-/
import LpcSymbols.Source.File
import LpcSymbols.Tree.Event

namespace LpcSymbols

/-- The syntax tree of a file: the tag of its root and the elements below it. -/
structure SourceTree where
  file : FileId
  dialect : Dialect
  tag : Nat
  children : List Element
deriving DecidableEq, Inhabited

namespace SourceTree

/-- A tree of top-level items below the root of a source file. -/
def ofItems (file : FileId) (dialect : Dialect) (items : List Element) : SourceTree :=
  ⟨file, dialect, Kind.sourceFile.tag, items⟩

/-- The tree that a sequence of events reports. -/
def ofEvents (file : FileId) (dialect : Dialect) (events : List TreeEvent) :
    Except Fault SourceTree := do
  let (tag, children) ← TreeEvent.assemble events
  return ⟨file, dialect, tag, children⟩

/-- The root as an element. -/
def root (t : SourceTree) : Element := .node t.tag t.children

/-- The source text. -/
def text (t : SourceTree) : String := t.root.text

/-- Length of the source text, in bytes. -/
def size (t : SourceTree) : Nat := t.root.size

end SourceTree

end LpcSymbols
