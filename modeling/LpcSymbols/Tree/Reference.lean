/-
References to nodes.

A symbol remembers the node it comes from by kind and range, which is enough to
find the node again in the same tree.  The search goes down from the root.  At
each level it takes the child whose text holds the range.  For an empty range
between two children there are two candidates, and it takes the earlier one.
-/
import LpcSymbols.Fault
import LpcSymbols.Tree.Placed

namespace LpcSymbols

/-- A node as something outside the tree can name it. -/
structure NodeRef where
  kind : Kind
  range : TextRange
deriving DecidableEq, Inhabited

/-- The reference to a node. -/
def Node.ref (n : Node) : NodeRef := ⟨n.kind, n.range⟩

namespace NodeRef

/-- The number of the child in which to look for a range: the first child that ends
behind the start of the range, if it begins before the range ends, and else the child
before that one. -/
def step (range : TextRange) (children : List Placed) : Nat :=
  let passed := (children.takeWhile (·.range.stop ≤ range.start)).length
  match children[passed]? with
  | some child => if child.range.start < range.stop then passed else passed - 1
  | none => passed - 1

mutual

/-- The node that is meant, at or below an element, and the way to it: the number of
each node among its siblings. -/
def find? (ref : NodeRef) : Placed → Option (Node × List Nat)
  | .token _ => none
  | .node kind range before children =>
    if kind = ref.kind ∧ range = ref.range then some (⟨kind, range, before, children⟩, [])
    else
      let i := step ref.range children
      (findAt? ref i children).map fun (n, path) => (n, i :: path)

/-- The search in the child of a given number, which has to hold the whole range. -/
def findAt? (ref : NodeRef) : Nat → List Placed → Option (Node × List Nat)
  | _, [] => none
  | 0, p :: _ => if p.range.contains ref.range then ref.find? p else none
  | i + 1, _ :: ps => ref.findAt? i ps

end

/-- The node that is meant in the tree below `root`, and the way to it. -/
def resolve (ref : NodeRef) (root : Node) : Except Fault (Node × List Nat) :=
  match ref.find? root.toPlaced with
  | some found => .ok found
  | none => .error .danglingReference

end NodeRef

end LpcSymbols
