/-
Symbol tables.

A table holds the symbols of one file in the order of their creation, the file's
own symbol first.  A symbol is created below one that exists, so a parent's number
is less than its children's, and following parents or children ends after at most
as many steps as there are symbols.  That number of steps is what the searches
below are given.
-/
import LpcSymbols.Symbol.Basic

namespace LpcSymbols

/-- The symbols of a file, each at the place of its number. -/
structure SymbolTable where
  symbols : Array Symbol
deriving DecidableEq, Inhabited

namespace SymbolTable

/-- The table of a file in which nothing has been found yet. -/
def ofRoot (name : String) (node : NodeRef) (span : Span) : SymbolTable :=
  ⟨#[{ name, data := .file, node, span, id := SymbolId.root, parent := none, children := [] }]⟩

/-- Number of symbols. -/
def size (t : SymbolTable) : Nat := t.symbols.size

/-- There is no symbol. -/
def isEmpty (t : SymbolTable) : Bool := t.symbols.isEmpty

/-- The symbols in the order of their numbers. -/
def toList (t : SymbolTable) : List Symbol := t.symbols.toList

/-- The symbol of a number. -/
def get? (t : SymbolTable) (id : SymbolId) : Option Symbol := t.symbols[id]?

/-- The symbol of a number that should exist. -/
def get (t : SymbolTable) (id : SymbolId) : Except Fault Symbol :=
  match t.get? id with
  | some s => .ok s
  | none => .error (.unknownSymbol id)

/-- The draft as a new symbol below `parent`, which gets it as its last child.  Its number
is the size of the table, as it would be in a word as long as there are fewer than 2^32
symbols. -/
def append (t : SymbolTable) (d : Draft) (parent : SymbolId) : SymbolTable :=
  let id := t.size
  ⟨(t.symbols.modify parent fun s => { s with children := s.children ++ [id] }).push
    { d with id, parent := some parent, children := [] }⟩

/-- Create a symbol below `parent`, which has to exist and to own symbols.  The answer
is the new symbol's number and the new table.  That `parent` owns symbols is a debug
assertion: it is a duty of the caller, and a fault here if the caller neglects it. -/
def create (t : SymbolTable) (d : Draft) (parent : SymbolId) :
    Except Fault (SymbolId × SymbolTable) := do
  let owner ← t.get parent
  if owner.isScope then .ok (t.size, t.append d parent)
  else .error (.parentNotScope parent)

/-- Note that symbol `id` is a branch of the `if` statement `owner`. -/
def addBranch (t : SymbolTable) (owner : SymbolId) (branch : Branch) (id : SymbolId) :
    SymbolTable :=
  ⟨t.symbols.modify owner fun s =>
    match s.data with
    | .ifStatement branches => { s with data := .ifStatement (branches.add branch id) }
    | _ => s⟩

/-! ### The tree of symbols -/

/-- The owner of a symbol. -/
def parent? (t : SymbolTable) (id : SymbolId) : Option SymbolId := (t.get? id).bind (·.parent)

/-- The symbols that a symbol owns. -/
def children (t : SymbolTable) (id : SymbolId) : List SymbolId :=
  ((t.get? id).map (·.children)).getD []

/-- The owners of a symbol, nearest first, up to `steps` of them. -/
def ancestorsUpTo (t : SymbolTable) : Nat → SymbolId → List SymbolId
  | 0, _ => []
  | steps + 1, id =>
    match t.parent? id with
    | some p => p :: t.ancestorsUpTo steps p
    | none => []

/-- The owners of a symbol, from the nearest to the file. -/
def ancestors (t : SymbolTable) (id : SymbolId) : List Symbol :=
  (t.ancestorsUpTo t.size id).filterMap t.get?

/-- The children of a symbol that have a given name. -/
def childrenNamed (t : SymbolTable) (scope : SymbolId) (name : String) : List Symbol :=
  ((t.children scope).filterMap t.get?).filter (·.name == name)

/-- The stack with more symbols on it, the last of them on top. -/
def pushAll (stack more : List SymbolId) : List SymbolId := more.reverse ++ stack

/-- The symbols that are taken from a stack, up to `steps` of them.  The one on top is
taken, and its children are put in its place, the first of them on top. -/
def takeAll (t : SymbolTable) : Nat → List SymbolId → List SymbolId
  | 0, _ => []
  | _ + 1, [] => []
  | steps + 1, id :: stack => id :: t.takeAll steps (pushAll stack (t.children id).reverse)

/-- A symbol and all symbols below it: each before its children, and the children in
order.  One step more than there are symbols is enough, also for a symbol that the table
does not have. -/
def descendants (t : SymbolTable) (id : SymbolId) : List SymbolId := t.takeAll (t.size + 1) [id]

/-! ### Search by offset -/

/-- The first child that is accepted and whose node the offset touches. -/
def childAt? (t : SymbolTable) (accept : Symbol → Bool) (offset : Nat) (id : SymbolId) :
    Option SymbolId :=
  (t.children id).find? fun c => (t.get? c).any fun s => accept s && s.range.touches offset

/-- From symbol `id` down, as long as there is a child at the offset. -/
def descend (t : SymbolTable) (accept : Symbol → Bool) (offset : Nat) : Nat → SymbolId → SymbolId
  | 0, id => id
  | steps + 1, id =>
    match t.childAt? accept offset id with
    | some c => t.descend accept offset steps c
    | none => id

/-- The innermost symbol at an offset. -/
def symbolAt (t : SymbolTable) (offset : Nat) : SymbolId :=
  t.descend (fun _ => true) offset t.size SymbolId.root

/-- The innermost symbol at an offset that owns others. -/
def scopeAt (t : SymbolTable) (offset : Nat) : SymbolId :=
  t.descend Symbol.isScope offset t.size SymbolId.root

end SymbolTable

end LpcSymbols
