/-
Moving about in a file.

The imports of a file are links, to be followed from where they are written.

A selection at a place starts with the innermost symbol there and grows to the
symbols around it.  A symbol that covers no more than the one before it is no
step.
-/
import LpcSymbols.Analysis.Model

namespace LpcSymbols

/-! ### Links -/

/-- A link to an imported file. -/
structure Link where
  region : Region
  kind : ImportKind
  /-- The target as it is written. -/
  target : String
deriving DecidableEq, Inhabited

namespace Link

/-- The target without the quotes or angle brackets around it. -/
def path (l : Link) : String :=
  let cs := l.target.toList
  match (Text.between? '"' '"' cs).or (Text.between? '<' '>' cs) with
  | some inner => String.ofList inner
  | none => l.target

/-- The target is looked for where the system keeps its files. -/
def isSystem (l : Link) : Bool := l.target.toList.head? == some '<'

end Link

/-- The links of a file, one for each import. -/
def FileModel.links (m : FileModel) : List Link :=
  m.imports.filterMap fun entry =>
    (m.table.get? entry.symbol).map fun s =>
      ⟨m.lines.region (s.nameRange.getD s.range), entry.kind, entry.target⟩

/-! ### Selections -/

/-- The regions to select at a place, innermost first.  There are none at a place
outside the file. -/
def FileModel.selection (m : FileModel) (place : LineCol) : Except Fault (List Region) :=
  match m.lines.offset? place with
  | none => return []
  | some offset => do
    let id := m.table.symbolAt offset
    let innermost ← m.table.get id
    let chain := innermost :: m.table.ancestors id
    return (chain.map fun s => m.lines.region s.range).eraseReps

end LpcSymbols
