/-
Recording findings.

A recorder takes findings one after the other.  It creates the symbols in its
table, each below the symbol that was opened last, lists the imports, keeps the
statistics and writes the trace.  The open symbols are a stack: a symbol that owns
others is put on it, what is inside it is recorded, and it is taken off again.  At
the end of an analysis nothing may be open.

Counters are words, and so are the lines of a symbol; recording fails where they
do not fit.
-/
import LpcSymbols.Analysis.Finding
import LpcSymbols.Analysis.Import
import LpcSymbols.Analysis.Trace
import LpcSymbols.Symbol.Table

namespace LpcSymbols

/-- What has been recorded so far. -/
structure Recorder where
  table : SymbolTable
  imports : Array Import := #[]
  stats : Stats := {}
  trace : Array TraceEvent := #[]
  /-- The open symbols, the latest first. -/
  scopes : List SymbolId := []

namespace Recorder

/-- The symbol below which symbols are created: the one opened last, or that of the file. -/
def current (r : Recorder) : SymbolId := r.scopes.headD SymbolId.root

/-- Write an event to the trace. -/
def note (r : Recorder) (event : TraceEvent) : Recorder := { r with trace := r.trace.push event }

/-- Take over the table in which the draft became symbol `id`, and list the symbol if it
is an import or a branch of its parent. -/
def accept (r : Recorder) (d : Draft) (id : SymbolId) (table : SymbolTable) : Recorder :=
  { r with
    table := match d.data with
      | .selection branch _ => table.addBranch r.current branch id
      | _ => table
    imports := r.imports ++ (Import.ofData? d.data id).toArray }

/-- Create a symbol below the current one, which has to exist and to own symbols. -/
def declare (r : Recorder) (d : Draft) : Except Fault (SymbolId × Recorder) :=
  if d.fits then do
    let (id, table) ← r.table.create d r.current
    return (id, r.accept d id table)
  else .error .overflow

/-- Open a symbol. -/
def enter (r : Recorder) (scope : SymbolId) : Except Fault Recorder := do
  let scopes := scope :: r.scopes
  let opened ← Word.succ r.stats.opened
  let stats := { r.stats with opened, maxDepth := max r.stats.maxDepth scopes.length }
  return { r with stats, scopes }.note (.entered scope scopes.length)

/-- Close the symbol opened last. -/
def leave (r : Recorder) : Except Fault Recorder :=
  match r.scopes with
  | [] => .error .unbalancedScopes
  | scope :: scopes => do
    let closed ← Word.succ r.stats.closed
    return { r with stats := { r.stats with closed }, scopes }.note (.left scope scopes.length)

/-- Nothing is open any more. -/
def finish (r : Recorder) : Except Fault Recorder :=
  if r.scopes.isEmpty then .ok r else .error .unbalancedScopes

/-- Count a construct that gives no symbol. -/
def leaveOut (r : Recorder) (node : NodeRef) (reason : Omission) : Except Fault Recorder := do
  let omissions ← Word.succ r.stats.omissions
  return { r with stats := { r.stats with omissions } }.note (.omitted node reason)

mutual

/-- Record a finding below the current symbol. -/
def record (r : Recorder) : Finding → Except Fault Recorder
  | .leaf draft => do
    let (_, r) ← r.declare draft
    return r
  | .scope draft inside => do
    let (id, r) ← r.declare draft
    let r ← r.enter id
    let r ← recordAll r inside
    r.leave
  | .omitted node reason => r.leaveOut node reason

/-- Record findings in order. -/
def recordAll (r : Recorder) : List Finding → Except Fault Recorder
  | [] => return r
  | f :: rest => do
    let r ← record r f
    recordAll r rest

end

end Recorder

end LpcSymbols
