/-
Kinds that nothing looks for.

What is read at a node depends on the kinds of other nodes: of its children, of the children of
these, and of the nodes around it.  But directives, inherit statements and parameters are parts of
no other construct.  They are neither looked for nor do they end a search, and for what is read at
all other nodes they could as well be errors.

Fading makes them errors, at every depth.  Every look-up gives the same before and after, so a
node is read as if all the others had faded (`Site.reading?_faded`), and nodes that differ only
there are read alike (`Site.reading?_of_faded`).
-/
import LpcSymbols.Proofs.Walk

namespace LpcSymbols

namespace Kind

/-- Nodes of the kind are parts of no other construct. -/
def isUnsought : Kind → Bool
  | .defineDirective | .selectionDirective | .includeDirective | .inheritStatement | .param => true
  | _ => false

/-- The kind, with `error` for a kind that nothing looks for. -/
def faded (k : Kind) : Kind := if k.isUnsought then .error else k

/-- Kinds that do not fade and that nothing fades to. -/
def isSought (k : Kind) : Bool := !k.isUnsought && k != .error

theorem faded_eq_iff {sought : Kind} (h : sought.isSought = true) (k : Kind) :
    k.faded = sought ↔ k = sought := by
  simp only [isSought, Bool.and_eq_true, Bool.not_eq_true', bne_iff_ne] at h
  by_cases hk : k.isUnsought = true
  · rw [faded, if_pos hk]
    constructor
    · intro herror
      exact absurd herror.symm h.2
    · rintro rfl
      rw [h.1] at hk
      cases hk
  · rw [faded, if_neg hk]

theorem faded_beq {sought : Kind} (h : sought.isSought = true) (k : Kind) :
    (k.faded == sought) = (k == sought) := by
  rw [Bool.eq_iff_iff, beq_iff_eq, beq_iff_eq, faded_eq_iff h]

theorem branch?_faded (k : Kind) : k.faded.branch? = k.branch? := by
  cases k <;> rfl

theorem endsStatement_faded (k : Kind) : k.faded.endsStatement = k.endsStatement := by
  cases k <;> rfl

end Kind

namespace Placed

mutual

/-- The element with errors for all that nothing looks for. -/
def faded : Placed → Placed
  | .token t => .token t
  | .node kind range before children => .node kind.faded range before (fadedAll children)

/-- A row of elements with errors for all that nothing looks for. -/
def fadedAll : List Placed → List Placed
  | [] => []
  | p :: ps => p.faded :: fadedAll ps

end

mutual

theorem leaves_faded : ∀ p : Placed, p.faded.leaves = p.leaves
  | .token _ => by rw [faded]
  | .node _ _ _ [] => by simp only [faded, fadedAll, leaves]
  | .node _ _ _ (p :: ps) => by
    simp only [faded, fadedAll, leaves]
    rw [leaves_faded p, leavesAll_faded ps]

theorem leavesAll_faded : ∀ ps : List Placed, leavesAll (fadedAll ps) = leavesAll ps
  | [] => rfl
  | p :: ps => by rw [fadedAll, leavesAll, leavesAll, leaves_faded p, leavesAll_faded ps]

end

end Placed

namespace Node

/-- The node as one of another kind, above what has faded. -/
def fadedAs (n : Node) (kind : Kind) : Node :=
  ⟨kind, n.range, n.leavesBefore, Placed.fadedAll n.children⟩

/-- The node, faded. -/
def faded (n : Node) : Node := n.fadedAs n.kind.faded

/-- The node above what has faded. -/
def fadedBelow (n : Node) : Node := n.fadedAs n.kind

theorem fadedBelow_eq {n m : Node} (hkind : n.kind = m.kind) (h : n.faded = m.faded) :
    n.fadedBelow = m.fadedBelow := by
  simp only [faded, fadedAs, mk.injEq] at h
  simp only [fadedBelow, fadedAs, hkind, h]

/-! ### Look-ups -/

/-- A search among faded nodes finds what it would have found. -/
theorem beq_kind_comp_faded {sought : Kind} (h : sought.isSought = true) :
    (fun m : Node => m.kind == sought) ∘ faded = fun m : Node => m.kind == sought :=
  funext fun m => Kind.faded_beq h m.kind

variable (n : Node) (kind : Kind)

@[simp] theorem leaves_fadedAs : (n.fadedAs kind).leaves = n.leaves := by
  cases hrow : n.children with
  | nil => simp only [leaves, toPlaced, fadedAs, hrow, Placed.fadedAll, Placed.leaves]
  | cons p ps =>
      simp only [leaves, toPlaced, fadedAs, hrow, Placed.fadedAll, Placed.leaves,
        Placed.leaves_faded, Placed.leavesAll_faded]

@[simp] theorem childTokens_fadedAs : (n.fadedAs kind).childTokens = n.childTokens := by
  have hrow : ∀ ps : List Placed,
      (Placed.fadedAll ps).filterMap Placed.token? = ps.filterMap Placed.token? := by
    intro ps
    induction ps with
    | nil => rfl
    | cons p ps ih =>
        cases p with
        | token t => simp [Placed.fadedAll, Placed.faded, Placed.token?, ih]
        | node kind range before children => exact ih
  exact hrow n.children

@[simp] theorem childNodes_fadedAs : (n.fadedAs kind).childNodes = n.childNodes.map faded := by
  have hrow : ∀ ps : List Placed,
      (Placed.fadedAll ps).filterMap Placed.node? = (ps.filterMap Placed.node?).map faded := by
    intro ps
    induction ps with
    | nil => rfl
    | cons p ps ih =>
        cases p with
        | token t => exact ih
        | node kind range before children =>
            simp [Placed.fadedAll, Placed.faded, Placed.node?, ih, faded, fadedAs]
  exact hrow n.children

theorem child?_fadedAs {sought : Kind} (h : sought.isSought = true) :
    (n.fadedAs kind).child? sought = (n.child? sought).map faded := by
  rw [child?, child?, childNodes_fadedAs, List.find?_map, beq_kind_comp_faded h]

theorem childrenOf_fadedAs {sought : Kind} (h : sought.isSought = true) :
    (n.fadedAs kind).childrenOf sought = (n.childrenOf sought).map faded := by
  rw [childrenOf, childrenOf, childNodes_fadedAs, List.filter_map, beq_kind_comp_faded h]

@[simp] theorem significantText_fadedAs :
    (n.fadedAs kind).significantText = n.significantText := by
  rw [significantText, significantText, tokens, tokens, leaves_fadedAs]

@[simp] theorem token?_fadedAs (sought : Kind) :
    (n.fadedAs kind).token? sought = n.token? sought := by
  rw [token?, token?, childTokens_fadedAs]

/-- A token that stands in a child of some kind. -/
theorem bind_child?_fadedAs {α : Type} {sought : Kind} (h : sought.isSought = true)
    {look : Node → Option α} (hlook : ∀ m kind, look (m.fadedAs kind) = look m) :
    ((n.fadedAs kind).child? sought).bind look = (n.child? sought).bind look := by
  have hsame : look ∘ faded = look := funext fun m => hlook m _
  rw [child?_fadedAs n kind h, Option.bind_map, hsame]

@[simp] theorem ident?_fadedAs : (n.fadedAs kind).ident? = n.ident? := n.token?_fadedAs kind _

@[simp] theorem nameIdent?_fadedAs : (n.fadedAs kind).nameIdent? = n.nameIdent? :=
  n.bind_child?_fadedAs kind rfl ident?_fadedAs

@[simp] theorem functionIdent?_fadedAs : (n.fadedAs kind).functionIdent? = n.functionIdent? :=
  n.bind_child?_fadedAs kind rfl nameIdent?_fadedAs

@[simp] theorem operandIdent?_fadedAs : (n.fadedAs kind).operandIdent? = n.operandIdent? :=
  n.bind_child?_fadedAs kind rfl ident?_fadedAs

/-- The type that a node gives is told by the text of one child. -/
@[simp] theorem typeOf_type?_fadedAs :
    (n.fadedAs kind).type?.map Draft.typeOf = n.type?.map Draft.typeOf := by
  have htext : Draft.typeOf ∘ faded = Draft.typeOf := by
    funext m
    rw [Function.comp_apply, Draft.typeOf, Draft.typeOf, faded, significantText_fadedAs]
  rw [type?, n.child?_fadedAs kind rfl, Option.map_map, htext]
  rfl

@[simp] theorem hasInvocation_fadedAs : (n.fadedAs kind).hasInvocation = n.hasInvocation := by
  rw [hasInvocation, hasInvocation, invocations, n.childrenOf_fadedAs kind rfl, List.isEmpty_map]
  rfl

@[simp] theorem assignedName?_fadedAs : (n.fadedAs kind).assignedName? = n.assignedName? := by
  cases hhead : n.childNodes.head? with
  | none => simp [assignedName?, hhead]
  | some m =>
      have hkind : m.faded.kind = .primaryExpr ↔ m.kind = .primaryExpr :=
        Kind.faded_eq_iff rfl m.kind
      have hoperand : m.faded.operandIdent? = m.operandIdent? := m.operandIdent?_fadedAs _
      simp [assignedName?, hhead, hkind, hoperand]

@[simp] theorem closureShape?_fadedAs : (n.fadedAs kind).closureShape? = n.closureShape? := by
  rw [closureShape?, closureShape?, childTokens_fadedAs]

@[simp] theorem span?_fadedAs (l : Layout) : l.span? (n.fadedAs kind) = l.span? n := by
  simp only [Layout.span?, Layout.first?, Layout.last?, leaves_fadedAs]
  rfl

/-! ### Searches outward -/

theorem givesClosureName?_faded : n.faded.givesClosureName? = n.givesClosureName? := by
  simp only [givesClosureName?, faded, nameIdent?_fadedAs, assignedName?_fadedAs,
    hasInvocation_fadedAs, operandIdent?_fadedAs]
  cases n.kind <;> rfl

theorem closureName?_faded (around : List Node) :
    closureName? (around.map faded) = closureName? around := by
  have hends : (fun n : Node => !n.kind.endsStatement) ∘ faded
      = fun n : Node => !n.kind.endsStatement := by
    funext n
    exact congrArg not (Kind.endsStatement_faded n.kind)
  have hgives : givesClosureName? ∘ faded = givesClosureName? := funext givesClosureName?_faded
  rw [closureName?, closureName?, List.takeWhile_map, List.findSome?_map, hends, hgives]

theorem nearestPrimary?_faded (around : List Node) :
    nearestPrimary? (around.map faded) = (nearestPrimary? around).map faded := by
  rw [nearestPrimary?, nearestPrimary?, List.find?_map, beq_kind_comp_faded rfl]

theorem usage_faded (around : List Node) : Draft.usage (around.map faded) = Draft.usage around := by
  unfold Draft.usage
  rw [nearestPrimary?_faded]
  cases nearestPrimary? around with
  | none => rfl
  | some n => simp [faded]

theorem declaredType?_faded (around : List Node) :
    Site.declaredType? (around.map faded) = Site.declaredType? around := by
  match around with
  | [] => rfl
  | [_] => rfl
  | n :: _ :: _ =>
      have hkind : n.faded.kind = .variableDecl ↔ n.kind = .variableDecl :=
        Kind.faded_eq_iff rfl n.kind
      have htype : n.faded.type?.map Draft.typeOf = n.type?.map Draft.typeOf :=
        n.typeOf_type?_fadedAs _
      simp only [List.map_cons, Site.declaredType?, hkind, htype]

theorem ifSpan?_faded (l : Layout) (around : List Node) :
    Site.ifSpan? l (around.map faded) = Site.ifSpan? l around := by
  match around with
  | [] => rfl
  | [_] => rfl
  | n :: _ :: _ =>
      have hkind : n.faded.kind = .ifStatement ↔ n.kind = .ifStatement :=
        Kind.faded_eq_iff rfl n.kind
      have hspan : l.span? n.faded = l.span? n := n.span?_fadedAs _ l
      simp only [List.map_cons, Site.ifSpan?, hkind, hspan]

end Node

/-! ### Readings -/

namespace Draft

variable (l : Layout) (n : Node)

theorem require_fadedBelow {α : Type} (part : String) (a : Option α) :
    require n.fadedBelow part a = require n part a := by
  cases a <;> rfl

theorem spanOf_fadedBelow : spanOf l n.fadedBelow = spanOf l n := by
  unfold spanOf
  rw [Node.fadedBelow, Node.span?_fadedAs]
  rfl

theorem ofInherit_fadedBelow : ofInherit l n.fadedBelow = ofInherit l n := by
  have htarget : n.fadedBelow.inheritTarget? = n.inheritTarget?.map Node.faded :=
    n.child?_fadedAs _ rfl
  simp only [ofInherit, htarget, require_fadedBelow, spanOf_fadedBelow]
  cases n.inheritTarget? with
  | none => rfl
  | some target =>
      have htext : target.faded.targetText? = target.targetText? := by
        rw [Node.targetText?, Node.targetText?, Node.faded, Node.significantText_fadedAs]
      rw [Option.map_some]
      show (require n "target" target.faded.targetText? >>= _) = _
      rw [htext]
      rfl

theorem declaredType_fadedBelow : declaredType n.fadedBelow = declaredType n := by
  have htype : n.fadedBelow.type?.map typeOf = n.type?.map typeOf := n.typeOf_type?_fadedAs _
  unfold declaredType
  rw [require_fadedBelow]
  cases hn : n.type? <;> cases hm : n.fadedBelow.type? <;> simp_all [require, Except.map]

end Draft

namespace Site

/-- **A node is read as if all the others had faded.** -/
theorem reading?_faded (l : Layout) (count : Nat) (n : Node) (around : List Node) :
    reading? l count (n.fadedBelow, around.map Node.faded) = reading? l count (n, around) := by
  have hkind : n.fadedBelow.kind = n.kind := rfl
  have href : n.fadedBelow.ref = n.ref := rfl
  have hline : n.fadedBelow.defineLine? = n.defineLine? := n.token?_fadedAs _ _
  have hkeyword : n.fadedBelow.directiveKeyword? = n.directiveKeyword? := n.token?_fadedAs _ _
  have hinclude : n.fadedBelow.includeTarget? = n.includeTarget? := by
    rw [Node.includeTarget?, Node.includeTarget?, Node.fadedBelow, Node.childTokens_fadedAs]
  have hfunction : n.fadedBelow.functionIdent? = n.functionIdent? := n.functionIdent?_fadedAs _
  have hname : n.fadedBelow.nameIdent? = n.nameIdent? := n.nameIdent?_fadedAs _
  have htype : n.fadedBelow.type?.map Draft.typeOf = n.type?.map Draft.typeOf :=
    n.typeOf_type?_fadedAs _
  have hshape : n.fadedBelow.closureShape? = n.closureShape? := n.closureShape?_fadedAs _
  have hident : n.fadedBelow.ident? = n.ident? := n.ident?_fadedAs _
  simp only [reading?, List.isEmpty_map, hkind, Draft.ofInherit_fadedBelow,
    Draft.declaredType_fadedBelow, Node.declaredType?_faded, Node.ifSpan?_faded, Draft.ofDefine,
    Draft.ofDirective, Draft.ofInclude, Draft.ofFunction, Draft.ofParameter, Draft.ofDeclarator,
    Draft.ofIf, Draft.ofClause, Draft.ofClosure, Draft.ofPrimary, Draft.ofIdentifier,
    Draft.require_fadedBelow, Draft.spanOf_fadedBelow, Node.defineHead?, Node.defineBody, href,
    hline, hkeyword, hinclude, hfunction, hname, htype, hshape, hident, Node.closureName?_faded,
    Node.usage_faded]

/-- Nodes of one kind that differ in what fades are read alike, among nodes that do. -/
theorem reading?_of_faded (l : Layout) (count : Nat) {n m : Node} {around around' : List Node}
    (hkind : n.kind = m.kind) (h : n.faded = m.faded)
    (haround : around.map Node.faded = around'.map Node.faded) :
    reading? l count (n, around) = reading? l count (m, around') := by
  rw [← reading?_faded l count n, ← reading?_faded l count m, Node.fadedBelow_eq hkind h, haround]

end Site

end LpcSymbols
