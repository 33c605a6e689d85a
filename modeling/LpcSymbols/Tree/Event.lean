/-
Trees from events.

A parser reports a tree as a sequence of events: a node is started, a token is
met, the latest unfinished node is finished.  The elements met so far are kept in
one row, and a started node remembers how long the row was: when it is finished,
all elements after that point become its children.  A node that is never finished
leaves no trace, its children stay in the row.  At the end the row has to be one
node.
-/
import LpcSymbols.Fault
import LpcSymbols.Tree.Element

namespace LpcSymbols

/-- A step in the report of a tree. -/
inductive TreeEvent where
  | start (kind : Kind)
  | token (kind : Kind) (text : String)
  | finish
deriving DecidableEq

/-- A tree under construction. -/
structure TreeSketch where
  /-- The elements outside every finished node, the latest first. -/
  loose : List Element := []
  /-- The unfinished nodes, the latest first: the tag, and how many loose elements there
  were when the node was started. -/
  unfinished : List (Nat × Nat) := []

namespace TreeSketch

/-- One more event. -/
def step (s : TreeSketch) : TreeEvent → Except Fault TreeSketch
  | .start kind => .ok { s with unfinished := (kind.tag, s.loose.length) :: s.unfinished }
  | .token kind text => .ok { s with loose := .token kind.tag text :: s.loose }
  | .finish =>
    match s.unfinished with
    | [] => .error .noOpenNode
    | (tag, before) :: rest =>
      let inner := s.loose.length - before
      .ok ⟨.node tag (s.loose.take inner).reverse :: s.loose.drop inner, rest⟩

/-- All events, one after the other. -/
def run (s : TreeSketch) : List TreeEvent → Except Fault TreeSketch
  | [] => .ok s
  | event :: rest => do
    let next ← s.step event
    next.run rest

/-- The finished tree: tag and children of the one node that is left. -/
def root (s : TreeSketch) : Except Fault (Nat × List Element) :=
  match s.loose with
  | [.node tag children] => .ok (tag, children)
  | _ => .error .notOneNode

end TreeSketch

/-- The root that a sequence of events reports. -/
def TreeEvent.assemble (events : List TreeEvent) : Except Fault (Nat × List Element) := do
  let sketch ← TreeSketch.run ⟨[], []⟩ events
  sketch.root

end LpcSymbols
