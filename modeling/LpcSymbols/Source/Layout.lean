/-
The layout of a file: where its lines, tokens and leaves are.

The span of a node runs from its first to its last significant token.  The first
is looked for among the leaves of the file, from the node's own first leaf on, as
long as the leaves are tokens inside the node's range.  So a childless node ends
the search, and so does the first token with text behind the node; a token without
text at the node's very end still counts as inside.  The last is looked for in the
same way backwards.

Offsets are words, so a text whose length is no word has no layout.
-/
import LpcSymbols.Source.Position
import LpcSymbols.Source.TokenStarts
import LpcSymbols.Source.Tree
import LpcSymbols.Text.Lines
import LpcSymbols.Tree.Placed

namespace LpcSymbols

/-- The root of the tree, placed at the start of the text. -/
def SourceTree.node (t : SourceTree) : Node :=
  ⟨.ofTag t.tag, .ofLength 0 (Element.sizeAll t.children), 0, Element.placeAll 0 0 t.children⟩

/-- Where the lines, tokens and leaves of a file are. -/
structure Layout where
  lines : LineMap
  tokens : TokenStarts
  leaves : List Leaf

namespace Layout

/-- The layout of a source tree. -/
def ofTree (t : SourceTree) : Except Fault Layout :=
  if Word.fits t.size then do
    let tokens ← TokenStarts.ofList (t.node.tokens.map (·.start))
    return ⟨LineMap.ofText t.text, tokens, t.node.leaves⟩
  else .error .overflow

/-- The position of a token. -/
def position (l : Layout) (t : Token) : TokenPos :=
  let place := l.lines.lineCol t.start
  ⟨place.line + 1, place.col, l.tokens.rank t.start⟩

/-- The first significant token in a row of leaves that is not cut off by a childless
node or a token outside the range. -/
def significant? (range : TextRange) : List Leaf → Option Token
  | .token t :: rest =>
    if range.contains t.range then
      if t.isSignificant then some t else significant? range rest
    else none
  | _ => none

/-- The first significant token of a node. -/
def first? (l : Layout) (n : Node) : Option Token :=
  significant? n.range (l.leaves.drop n.leavesBefore)

/-- The last significant token of a node. -/
def last? (l : Layout) (n : Node) : Option Token :=
  significant? n.range (l.leaves.take (n.leavesBefore + n.leaves.length)).reverse

/-- The span of a node, if it has significant tokens. -/
def span? (l : Layout) (n : Node) : Option Span :=
  match l.first? n, l.last? n with
  | some first, some last => some ⟨l.position first, l.position last⟩
  | _, _ => none

end Layout

end LpcSymbols
