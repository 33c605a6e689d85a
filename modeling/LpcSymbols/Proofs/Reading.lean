/-
What the drafts of all constructs have in common.

A draft names the node it was read off and has the node's span; a fold, if it has
one, is the fold of that span.  A construct gives a draft exactly if it has the
parts that its kind asks for and a span, and otherwise the omission names the
construct.  `ReadsAs` is these facts together, one lemma per construct says so, and
each of them is an instance of the same two steps: take the part that has to be
there, then the span.
-/
import LpcSymbols.Analysis.Reading

namespace LpcSymbols

namespace Draft

variable {l : Layout} {n : Node}

@[simp] theorem require_some {α : Type} (n : Node) (part : String) (a : α) :
    require n part (some a) = .ok a := rfl

@[simp] theorem require_none {α : Type} (n : Node) (part : String) :
    require n part (none : Option α) = .error (.missingPart n.kind part) := rfl

theorem spanOf_some {s : Span} (h : l.span? n = some s) : spanOf l n = .ok s := by
  simp [spanOf, h]

theorem spanOf_none (h : l.span? n = none) : spanOf l n = .error (.noSignificantToken n.kind) := by
  simp [spanOf, h]

/-- The draft was read off the node, and its symbol owns others or does not. -/
structure IsOf (l : Layout) (n : Node) (scope : Bool) (d : Draft) : Prop where
  node : d.node = n.ref
  span : l.span? n = some d.span
  fold : ∀ f, d.data.fold? = some f → f = Fold.ofSpan d.span
  isScope : d.data.kind.isScope = scope

/-- The construct at a node gives a draft if its parts are there and it has a span, and
else an omission. -/
structure ReadsAs (l : Layout) (n : Node) (scope parts : Bool) (e : Except Omission Draft) :
    Prop where
  isOf : ∀ d, e = .ok d → d.IsOf l n scope
  isOk : (∃ d, e = .ok d) ↔ parts = true ∧ (l.span? n).isSome = true
  construct : ∀ reason, e = .error reason → reason.construct = n.kind

/-- A construct that only needs a span. -/
theorem readsAs_of_span {scope : Bool} {mk : Span → Draft}
    (hmk : ∀ s, l.span? n = some s → (mk s).IsOf l n scope) :
    ReadsAs l n scope true (do let s ← spanOf l n; return mk s) := by
  cases hs : l.span? n with
  | none =>
      rw [spanOf_none hs]
      refine ⟨by rintro d ⟨⟩, ⟨by rintro ⟨d, ⟨⟩⟩, by simp [hs]⟩, ?_⟩
      rintro reason ⟨⟩
      rfl
  | some s =>
      rw [spanOf_some hs]
      refine ⟨?_, ⟨fun _ => by simp [hs], fun _ => ⟨mk s, rfl⟩⟩, by rintro reason ⟨⟩⟩
      rintro d ⟨⟩
      exact hmk s hs

/-- A construct that needs one part and a span. -/
theorem readsAs_of_part {α : Type} {scope : Bool} {part : String} {o : Option α}
    {mk : α → Span → Draft} (hmk : ∀ a s, l.span? n = some s → (mk a s).IsOf l n scope) :
    ReadsAs l n scope o.isSome (do let a ← require n part o; let s ← spanOf l n; return mk a s) := by
  cases o with
  | none =>
      refine ⟨by rintro d ⟨⟩, ⟨by rintro ⟨d, ⟨⟩⟩, by simp⟩, ?_⟩
      rintro reason ⟨⟩
      rfl
  | some a => exact readsAs_of_span (hmk a)

/-! ### The constructs one by one -/

variable (l n)

theorem ofDefine_readsAs : ReadsAs l n false n.defineHead?.isSome (ofDefine l n) :=
  readsAs_of_part fun _ _ hs => ⟨rfl, hs, by rintro f ⟨⟩, rfl⟩

theorem ofDirective_readsAs :
    ReadsAs l n true n.directiveKeyword?.isSome (ofDirective l n) :=
  readsAs_of_part fun _ _ hs => ⟨rfl, hs, by rintro f ⟨⟩, rfl⟩

theorem ofInclude_readsAs : ReadsAs l n false n.includeTarget?.isSome (ofInclude l n) :=
  readsAs_of_part fun _ _ hs => ⟨rfl, hs, by rintro f ⟨⟩, rfl⟩

theorem ofInherit_readsAs :
    ReadsAs l n false (n.inheritTarget?.bind Node.targetText?).isSome (ofInherit l n) := by
  unfold ofInherit
  cases n.inheritTarget? with
  | none =>
      refine ⟨by rintro d ⟨⟩, ⟨by rintro ⟨d, ⟨⟩⟩, by simp⟩, ?_⟩
      rintro reason ⟨⟩
      rfl
  | some target => exact readsAs_of_part fun _ _ hs => ⟨rfl, hs, by rintro f ⟨⟩, rfl⟩

theorem ofFunction_readsAs : ReadsAs l n true n.functionIdent?.isSome (ofFunction l n) :=
  readsAs_of_part fun _ _ hs => ⟨rfl, hs, fun _ hf => (Option.some.inj hf).symm, rfl⟩

theorem ofParameter_readsAs : ReadsAs l n false n.nameIdent?.isSome (ofParameter l n) :=
  readsAs_of_part fun _ _ hs => ⟨rfl, hs, by rintro f ⟨⟩, rfl⟩

theorem ofDeclarator_readsAs (type : ValueType) :
    ReadsAs l n false n.nameIdent?.isSome (ofDeclarator l type n) :=
  readsAs_of_part fun _ _ hs => ⟨rfl, hs, by rintro f ⟨⟩, rfl⟩

theorem ofIf_readsAs : ReadsAs l n true true (ofIf l n) :=
  readsAs_of_span fun _ hs => ⟨rfl, hs, by rintro f ⟨⟩, rfl⟩

theorem ofClause_readsAs (branch : Branch) (index count : Nat) :
    ReadsAs l n true true (ofClause l branch index count n) :=
  readsAs_of_span fun _ hs => ⟨rfl, hs, fun _ hf => (Option.some.inj hf).symm, rfl⟩

theorem ofClosure_readsAs (around : List Node) : ReadsAs l n true true (ofClosure l around n) :=
  readsAs_of_span fun _ hs => ⟨rfl, hs, fun _ hf => (Option.some.inj hf).symm, rfl⟩

theorem ofPrimary_readsAs : ReadsAs l n true true (ofPrimary l n) :=
  readsAs_of_span fun _ hs => ⟨rfl, hs, by rintro f ⟨⟩, rfl⟩

theorem ofIdentifier_readsAs (around : List Node) :
    ReadsAs l n false n.ident?.isSome (ofIdentifier l around n) :=
  readsAs_of_part fun _ _ hs => ⟨rfl, hs, by rintro f ⟨⟩, rfl⟩

end Draft

/-! ### The parts that a kind asks for -/

/-- The node has the parts that a symbol of its construct needs. -/
def Node.hasParts (n : Node) : Bool :=
  match n.kind with
  | .defineDirective => n.defineHead?.isSome
  | .selectionDirective => n.directiveKeyword?.isSome
  | .includeDirective => n.includeTarget?.isSome
  | .inheritStatement => (n.inheritTarget?.bind Node.targetText?).isSome
  | .functionDecl => n.functionIdent?.isSome
  | .param | .variableDeclarator => n.nameIdent?.isSome
  | .variableDecl => n.type?.isSome
  | .identExpr => n.ident?.isSome
  | _ => true

/-- The symbols of the construct own others. -/
def Kind.opensScope : Kind → Bool
  | .selectionDirective | .functionDecl | .ifStatement | .ifClause | .elseIfClause | .elseClause
  | .inlineClosure | .primaryExpr => true
  | _ => false

end LpcSymbols
