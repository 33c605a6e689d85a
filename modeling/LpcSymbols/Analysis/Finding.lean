/-
What is found in a tree.

The findings of a tree are themselves a forest: a symbol that owns others comes
with what is found inside it.  A construct that gives no symbol is noted, and what
is found inside it belongs to the symbol around it.

The findings at a node depend on the node's kind, on the nodes around it, and on
what is found at its children; nothing else of the recursion is needed.  So the
recursion is one pass over the tree, and the rules are one function without
recursion, `findingsAt`.

The variables of a declaration come after whatever else is found in it, and a
clause of an `if` statement counts as a branch only as a child of the statement.
-/
import LpcSymbols.Analysis.Reading

namespace LpcSymbols

/-- Something found in a tree. -/
inductive Finding where
  /-- A symbol that owns no others. -/
  | leaf (draft : Draft)
  /-- A symbol, and what is found inside it. -/
  | scope (draft : Draft) (inside : List Finding)
  /-- A construct that gives no symbol. -/
  | omitted (node : NodeRef) (reason : Omission)
deriving Inhabited

namespace Finding

/-- The visit of a node. -/
structure Visit where
  node : Node
  /-- What is found at the node and below it. -/
  found : List Finding
  /-- What is found below the node. -/
  below : List Finding
deriving Inhabited

/-- A symbol that owns no others, or an omission, and what is found below its node. -/
def leafThen (n : Node) (below : List Finding) : Except Omission Draft → List Finding
  | .ok draft => .leaf draft :: below
  | .error reason => .omitted n.ref reason :: below

/-- A symbol that owns what is found inside it, or an omission and what is found below
its node. -/
def scopeWith (n : Node) (inside below : List Finding) : Except Omission Draft → List Finding
  | .ok draft => [.scope draft inside]
  | .error reason => .omitted n.ref reason :: below

/-- A symbol whose node is not looked into, or an omission and what is found below its
node. -/
def leafAlone (n : Node) (below : List Finding) : Except Omission Draft → List Finding
  | .ok draft => [.leaf draft]
  | .error reason => .omitted n.ref reason :: below

/-- The node stands for one variable of a declaration. -/
def Visit.isDeclarator (v : Visit) : Bool := v.node.kind == .variableDeclarator

/-- A declaration of variables of one type. -/
def declared (l : Layout) (type : ValueType) (children : List Visit) : List Finding :=
  (children.filter (!·.isDeclarator)).flatMap (·.found) ++
    (children.filter (·.isDeclarator)).flatMap fun v =>
      leafThen v.node v.below (Draft.ofDeclarator l type v.node)

/-- The children of an `if` statement whose first token has number `index`.  Its clauses
are counted on from `count`. -/
def clauses (l : Layout) (index : Nat) : Nat → List Visit → List Finding
  | _, [] => []
  | count, v :: rest =>
    match v.node.kind.branch? with
    | some branch =>
      scopeWith v.node v.below v.below (Draft.ofClause l branch index count v.node) ++
        clauses l index (count + 1) rest
    | none => v.found ++ clauses l index count rest

/-- What is found at a node and below it, given the nodes around it and the visits of
its children. -/
def findingsAt (l : Layout) (around : List Node) (n : Node) (children : List Visit) :
    List Finding :=
  let below := children.flatMap (·.found)
  match n.kind with
  | .defineDirective => leafAlone n below (Draft.ofDefine l n)
  | .selectionDirective => scopeWith n below below (Draft.ofDirective l n)
  | .includeDirective => leafThen n below (Draft.ofInclude l n)
  | .inheritStatement => leafThen n below (Draft.ofInherit l n)
  | .functionDecl => scopeWith n below below (Draft.ofFunction l n)
  | .param => leafThen n below (Draft.ofParameter l n)
  | .variableDecl =>
    match Draft.declaredType n with
    | .ok type => declared l type children
    | .error reason => .omitted n.ref reason :: below
  | .ifStatement =>
    match Draft.ofIf l n with
    | .ok draft => [.scope draft (clauses l draft.span.start.index 0 children)]
    | .error reason => .omitted n.ref reason :: below
  | .inlineClosure => scopeWith n below below (Draft.ofClosure l around n)
  | .primaryExpr => scopeWith n below below (Draft.ofPrimary l n)
  | .identExpr => leafThen n below (Draft.ofIdentifier l around n)
  | _ => below

mutual

/-- The visit of an element, if it is a node. -/
def visit (l : Layout) (around : List Node) : Placed → Option Visit
  | .token _ => none
  | .node kind range before children =>
    let n : Node := ⟨kind, range, before, children⟩
    let visits := visitAll l (n :: around) children
    some ⟨n, findingsAt l around n visits, visits.flatMap (·.found)⟩

/-- The visits of the nodes in a row of elements. -/
def visitAll (l : Layout) (around : List Node) : List Placed → List Visit
  | [] => []
  | p :: ps => (visit l around p).toList ++ visitAll l around ps

end

/-- What is found in the tree below `root`. -/
def ofRoot (l : Layout) (root : Node) : List Finding :=
  (visitAll l [root] root.children).flatMap (·.found)

end Finding

end LpcSymbols
