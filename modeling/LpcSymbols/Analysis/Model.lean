/-
The model of a file: all that the library knows of it after an analysis.

An analysis lays out the tree, finds what is in it, and records it below the symbol
of the file, which is open the whole time.  Files are analysed one by one and do
not influence each other.
-/
import LpcSymbols.Analysis.Recorder

namespace LpcSymbols

/-- The symbols of a file and what goes with them. -/
structure FileModel where
  file : FileId
  dialect : Dialect
  table : SymbolTable
  imports : List Import
  stats : Stats
  lines : LineMap
deriving DecidableEq

/-- An analysis: the model of the file, and how it came about. -/
structure Analysis where
  model : FileModel
  trace : List TraceEvent
deriving DecidableEq

namespace Analysis

/-- The recorder at the start: a table with the symbol of the file.  The span of a
file without significant tokens is all zeros. -/
def start (t : SourceTree) (l : Layout) : Except Fault Recorder :=
  let span := (l.span? t.node).getD .zero
  if span.fits then
    .ok { table := .ofRoot t.file.render t.node.ref span, trace := #[.began t.file] }
  else .error .overflow

/-- Analyse a source tree. -/
def ofTree (t : SourceTree) : Except Fault Analysis := do
  let l ← Layout.ofTree t
  let r ← start t l
  let r ← r.enter SymbolId.root
  let r ← r.recordAll (Finding.ofRoot l t.node)
  let r ← r.leave
  let r ← r.finish
  let r := r.note (.ended r.table.size r.imports.size r.stats.omissions r.stats.maxDepth)
  let model : FileModel :=
    { file := t.file, dialect := t.dialect, table := r.table, imports := r.imports.toList,
      stats := r.stats, lines := l.lines }
  return ⟨model, r.trace.toList⟩

end Analysis

namespace FileModel

/-- The model of a source tree. -/
def ofTree (t : SourceTree) : Except Fault FileModel := do
  let analysis ← Analysis.ofTree t
  return analysis.model

/-- The models of several source trees, in their order. -/
def ofTrees (trees : List SourceTree) : Except Fault (List FileModel) := trees.mapM ofTree

end FileModel

end LpcSymbols
