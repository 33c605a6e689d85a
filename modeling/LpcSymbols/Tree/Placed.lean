/-
Trees in their text.

Placing an element at an offset gives every token and node below it its range of
the text.  A placed node also carries the number of leaves that stand before it in
the file.  The leaves are the tokens and the nodes without children, in the order
of the text; a childless node has no text, but it does separate the tokens around
it, which is why it counts.

The leaves of a placed node are a segment of the leaves of its file, and the
number that it carries is where the segment begins.
-/
import LpcSymbols.Text.Range
import LpcSymbols.Tree.Element

namespace LpcSymbols

/-- A token and the offset of its first byte. -/
structure Token where
  kind : Kind
  text : String
  start : Nat
deriving DecidableEq, Inhabited

/-- The bytes of a token. -/
def Token.range (t : Token) : TextRange := .ofLength t.start (Text.size t.text)

/-- A token that is neither white space nor a comment. -/
def Token.isSignificant (t : Token) : Bool := !t.kind.isTrivia

/-- An element with its place in the text. -/
inductive Placed where
  | token (t : Token)
  | node (kind : Kind) (range : TextRange) (leavesBefore : Nat) (children : List Placed)
deriving Inhabited

/-- A node with its place in the text. -/
structure Node where
  kind : Kind
  range : TextRange
  /-- How many leaves of the file stand before this node. -/
  leavesBefore : Nat
  children : List Placed
deriving Inhabited

/-- A leaf of a tree: a token, or a node without children. -/
inductive Leaf where
  | token (t : Token)
  | childless
deriving DecidableEq, Inhabited

/-- The token that a leaf is. -/
def Leaf.token? : Leaf → Option Token
  | .token t => some t
  | .childless => none

namespace Element

mutual

/-- The element with its first byte at `start`, after `before` leaves. -/
def place (start before : Nat) : Element → Placed
  | .token tag text => .token ⟨.ofTag tag, text, start⟩
  | .node tag children =>
    .node (.ofTag tag) (.ofLength start (sizeAll children)) before (placeAll start before children)

/-- A row of elements, the first of them at `start`. -/
def placeAll (start before : Nat) : List Element → List Placed
  | [] => []
  | e :: es => e.place start before :: placeAll (start + e.size) (before + e.leafCount) es

end

end Element

namespace Placed

/-- The bytes of an element. -/
def range : Placed → TextRange
  | .token t => t.range
  | .node _ range _ _ => range

/-- The element as a node. -/
def node? : Placed → Option Node
  | .token _ => none
  | .node kind range before children => some ⟨kind, range, before, children⟩

/-- The element as a token. -/
def token? : Placed → Option Token
  | .token t => some t
  | .node _ _ _ _ => none

mutual

/-- The leaves of an element, in the order of the text. -/
def leaves : Placed → List Leaf
  | .token t => [.token t]
  | .node _ _ _ [] => [.childless]
  | .node _ _ _ (p :: ps) => p.leaves ++ leavesAll ps

/-- The leaves of a row of elements. -/
def leavesAll : List Placed → List Leaf
  | [] => []
  | p :: ps => p.leaves ++ leavesAll ps

end

mutual

/-- The nodes of an element, outermost first, each with the nodes around it, nearest
first.  The nodes in `around` are around the element itself. -/
def nodes (around : List Node) : Placed → List (Node × List Node)
  | .token _ => []
  | .node kind range before children =>
    let n : Node := ⟨kind, range, before, children⟩
    (n, around) :: nodesAll (n :: around) children

/-- The nodes of a row of elements. -/
def nodesAll (around : List Node) : List Placed → List (Node × List Node)
  | [] => []
  | p :: ps => p.nodes around ++ nodesAll around ps

end

end Placed

namespace Node

/-- The node as an element. -/
def toPlaced (n : Node) : Placed := .node n.kind n.range n.leavesBefore n.children

/-- The children that are nodes. -/
def childNodes (n : Node) : List Node := n.children.filterMap Placed.node?

/-- The children that are tokens. -/
def childTokens (n : Node) : List Token := n.children.filterMap Placed.token?

/-- The first child node of a kind. -/
def child? (n : Node) (kind : Kind) : Option Node := n.childNodes.find? (·.kind == kind)

/-- The child nodes of a kind. -/
def childrenOf (n : Node) (kind : Kind) : List Node := n.childNodes.filter (·.kind == kind)

/-- The first token of a kind among the children. -/
def token? (n : Node) (kind : Kind) : Option Token := n.childTokens.find? (·.kind == kind)

/-- The leaves of the node, in the order of the text. -/
def leaves (n : Node) : List Leaf := n.toPlaced.leaves

/-- The tokens of the node, in the order of the text. -/
def tokens (n : Node) : List Token := n.leaves.filterMap Leaf.token?

/-- The text of the node without white space and comments. -/
def significantText (n : Node) : String :=
  String.join ((n.tokens.filter Token.isSignificant).map (·.text))

/-- The node and all nodes below it, outermost first, each with the nodes around it,
nearest first. -/
def nodes (n : Node) : List (Node × List Node) := n.toPlaced.nodes []

/-- The node reached by taking, level by level, the child node of a given number. -/
def descend? (n : Node) : List Nat → Option Node
  | [] => some n
  | i :: path => do
    let child ← n.childNodes[i]?
    child.descend? path

end Node

end LpcSymbols
