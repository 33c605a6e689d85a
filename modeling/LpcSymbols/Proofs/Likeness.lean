/-
Twins are read alike.

Two trees may have the same findings although their tokens stand in different places.
A likeness says how far the two may differ: it relates the ranges of the one to the
ranges of the other, and the spans to the spans, and it says how far the numbers of
the symbols are apart.  Whatever a likeness is, it carries over from nodes to drafts:
drafts that are read off twins agree in all data but the fold, which follows the span,
and in their names up to the number of a token (`Draft.Alike`).

The walk keeps this, construct by construct, so twin rows have findings that are
alike one by one (`located_alike`).  The nodes around a site are twins as well; only
the root of a file may differ, because nothing is ever read off it.
-/
import LpcSymbols.Proofs.Twin
import LpcSymbols.Proofs.Walk

namespace LpcSymbols

/-! ### Numbers and folds -/

/-- The number of a symbol that stands `k` places further back.  The symbol of the file stays. -/
def SymbolId.shift (k : Nat) (id : SymbolId) : SymbolId :=
  if id = SymbolId.root then SymbolId.root else id + k

theorem SymbolId.shift_of_pos {k : Nat} {id : SymbolId} (h : 0 < id) : id.shift k = id + k :=
  if_neg (Nat.ne_of_gt h)

theorem SymbolId.shift_zero (id : SymbolId) : id.shift 0 = id := by
  unfold SymbolId.shift
  split
  · rename_i h
    exact h.symm
  · rfl

theorem map_shift_zero (ids : List SymbolId) : ids.map (SymbolId.shift 0) = ids := by
  rw [show SymbolId.shift 0 = id from funext SymbolId.shift_zero, List.map_id]

/-- The branches of an `if` statement `k` places further back. -/
def Branches.shift (k : Nat) (b : Branches) : Branches :=
  ⟨b.ifBranch.map (SymbolId.shift k), b.elseIfs.map (SymbolId.shift k),
    b.elseBranch.map (SymbolId.shift k)⟩

/-- The data of a symbol `k` places further back. -/
def SymbolData.shift (k : Nat) : SymbolData → SymbolData
  | .ifStatement branches => .ifStatement (branches.shift k)
  | data => data

/-- The data with another fold, if they have one. -/
def SymbolData.refold (f : Fold) : SymbolData → SymbolData
  | .method _ => .method f
  | .selection branch _ => .selection branch f
  | .inlineClosure displayName shape _ => .inlineClosure displayName shape f
  | data => data

theorem SymbolData.shift_zero (data : SymbolData) : data.shift 0 = data := by
  cases data with
  | ifStatement b =>
      have hid : SymbolId.shift 0 = id := funext SymbolId.shift_zero
      simp [SymbolData.shift, Branches.shift, hid]
  | _ => rfl

theorem SymbolData.kind_shift (k : Nat) (data : SymbolData) : (data.shift k).kind = data.kind := by
  cases data <;> rfl

theorem SymbolData.kind_refold (f : Fold) (data : SymbolData) : (data.refold f).kind = data.kind := by
  cases data <;> rfl

/-! ### Drafts that are alike -/

/-- How far two trees may differ in places, and their symbols in numbers. -/
structure Likeness where
  range : TextRange → TextRange → Prop
  span : Span → Span → Prop
  ids : Nat
  /-- What is alike stays so when it is narrowed in the same way. -/
  within : ∀ {start start' length : Nat} (offset size : Nat),
    range (.ofLength start length) (.ofLength start' length) →
      range (.ofLength (start + offset) size) (.ofLength (start' + offset) size)

/-- What a generated name begins with.  That of a macro begins with text of the file. -/
inductive SymbolData.Stem : SymbolData → String → Prop
  | define (body head : String) : Stem (.define body) head
  | preprocessor (keyword : String) : Stem (.preprocessor keyword) keyword
  | ifStatement (branches : Branches) : Stem (.ifStatement branches) "if"
  | inlineClosure (displayName : Option String) (shape : Option ClosureShape) (fold : Fold) :
      Stem (.inlineClosure displayName shape fold) "closure"
  | expression : Stem .expression "expr"

/-- What the names of clauses begin with. -/
inductive Branch.Stem : Branch → String → Prop
  | ifBranch : Stem .ifBranch "if"
  | elseIf : Stem .elseIf "elseif"
  | elseBranch : Stem .elseBranch "else"

theorem Branch.stem_label (branch : Branch) : branch.Stem branch.label := by
  cases branch with
  | ifBranch => exact .ifBranch
  | elseIf => exact .elseIf
  | elseBranch => exact .elseBranch

namespace Draft

/-- The names are equal, or they are generated in the same way: from the number of the first token,
and for a clause from that of the statement around it and from how many clauses are before it. -/
def NamesAlike (L : Likeness) (d d' : Draft) : Prop :=
  match d.data with
  | .define _ | .preprocessor _ | .ifStatement _ | .inlineClosure _ _ _ | .expression =>
    ∃ stem, d.data.Stem stem ∧ d.name = stem ++ "_" ++ toString d.span.start.index ∧
      d'.name = stem ++ "_" ++ toString d'.span.start.index
  | .selection branch _ => ∃ stem owner owner', ∃ count : Nat, branch.Stem stem ∧ L.span owner owner' ∧
    d.name = stem ++ "_" ++ toString owner.start.index ++ "_" ++ toString count ∧
    d'.name = stem ++ "_" ++ toString owner'.start.index ++ "_" ++ toString count
  | _ => d.name = d'.name

/-- The drafts differ in places only. -/
structure Alike (L : Likeness) (d d' : Draft) : Prop where
  data : d'.data = (d.data.shift L.ids).refold (Fold.ofSpan d'.span)
  name : NamesAlike L d d'
  kind : d.node.kind = d'.node.kind
  range : L.range d.node.range d'.node.range
  span : L.span d.span d'.span
  nameRange : Option.Rel L.range d.nameRange d'.nameRange

theorem Alike.isScope {L : Likeness} {d d' : Draft} (h : d.Alike L d') :
    d'.data.kind.isScope = d.data.kind.isScope := by
  rw [h.data, SymbolData.kind_refold, SymbolData.kind_shift]

/-- Both readings are drafts, and alike, or neither is one. -/
inductive ReadAlike (L : Likeness) : Except Omission Draft → Except Omission Draft → Prop
  | ok {d d' : Draft} (h : d.Alike L d') : ReadAlike L (.ok d) (.ok d')
  | error {reason reason' : Omission} : ReadAlike L (.error reason) (.error reason')

end Draft

/-- Nodes with ranges and spans that are alike. -/
def Likeness.Places (L : Likeness) (l l' : Layout) (n m : Node) : Prop :=
  L.range n.range m.range ∧ Option.Rel L.span (l.span? n) (l'.span? m)

/-- Twins whose places are alike, at all depths. -/
abbrev Likeness.Twin (L : Likeness) (l l' : Layout) : Node → Node → Prop :=
  Node.Twin L.range (L.Places l l')

namespace Draft

variable {L : Likeness} {l l' : Layout} {n m : Node}

/-- A construct that only needs a span. -/
theorem readAlike_of_span (h : L.Twin l l' n m) {mk mk' : Span → Draft}
    (hmk : ∀ s s', L.span s s' → (mk s).Alike L (mk' s')) :
    ReadAlike L (do let s ← spanOf l n; return mk s) (do let s ← spanOf l' m; return mk' s) := by
  have hspan := h.own.2
  unfold spanOf
  generalize l.span? n = x at hspan
  generalize l'.span? m = y at hspan
  cases hspan with
  | none => exact .error
  | some hs => exact .ok (hmk _ _ hs)

/-- A construct that needs one part and a span. -/
theorem readAlike_of_part {α β : Type} {Q : α → β → Prop} (h : L.Twin l l' n m)
    {part part' : String} {x : Option α} {y : Option β} (hpart : Option.Rel Q x y)
    {mk : α → Span → Draft} {mk' : β → Span → Draft}
    (hmk : ∀ a b s s', Q a b → L.span s s' → (mk a s).Alike L (mk' b s')) :
    ReadAlike L (do let a ← require n part x; let s ← spanOf l n; return mk a s)
      (do let b ← require m part' y; let s ← spanOf l' m; return mk' b s) := by
  cases hpart with
  | none => exact .error
  | some hab => exact readAlike_of_span h fun s s' hs => hmk _ _ s s' hab hs

theorem rel_of_eq {α : Type} {x y : Option α} (h : x = y) : Option.Rel Eq x y := by
  subst h
  cases x with
  | none => exact .none
  | some a => exact .some rfl

theorem macroNameRange?_alike {t u : Token} (h : t.Like L.range u) :
    Option.Rel L.range (Node.macroNameRange? t) (Node.macroNameRange? u) := by
  have hrange := h.range
  unfold Token.range at hrange
  unfold Node.macroNameRange?
  rw [h.text] at hrange ⊢
  cases Text.atBlank? u.text with
  | none => exact .none
  | some cut =>
      show Option.Rel L.range (if _ then none else _) (if _ then none else _)
      split
      · exact .none
      · refine .some ?_
        rw [Nat.add_assoc, Nat.add_assoc]
        exact L.within _ _ hrange

theorem typeOf_alike (h : L.Twin l l' n m) : typeOf n = typeOf m := by
  rw [typeOf, typeOf, h.significantText]

theorem ofDefine_alike (h : L.Twin l l' n m) : ReadAlike L (ofDefine l n) (ofDefine l' m) := by
  refine readAlike_of_part h (rel_of_eq h.defineHead?) ?_
  rintro head _ s s' rfl hs
  exact ⟨congrArg SymbolData.define h.defineBody.symm, ⟨head, .define _ head, rfl, rfl⟩, h.kind, h.own.1, hs,
    bind_related h.defineLine? fun _ _ ht => macroNameRange?_alike ht⟩

theorem ofDirective_alike (h : L.Twin l l' n m) :
    ReadAlike L (ofDirective l n) (ofDirective l' m) := by
  refine readAlike_of_part h h.directiveKeyword? ?_
  intro t u s s' ht hs
  exact ⟨congrArg SymbolData.preprocessor ht.text.symm, ⟨t.text, .preprocessor t.text, rfl, by rw [ht.text]; rfl⟩,
    h.kind, h.own.1, hs, .none⟩

theorem ofInclude_alike (h : L.Twin l l' n m) : ReadAlike L (ofInclude l n) (ofInclude l' m) := by
  refine readAlike_of_part h h.includeTarget? ?_
  intro t u s s' ht hs
  exact ⟨congrArg SymbolData.includeFile ht.text.symm, ht.text, h.kind, h.own.1, hs,
    .some ht.range⟩

theorem ofInherit_alike (h : L.Twin l l' n m) : ReadAlike L (ofInherit l n) (ofInherit l' m) := by
  have htarget := h.inheritTarget?
  unfold ofInherit
  generalize n.inheritTarget? = x at htarget
  generalize m.inheritTarget? = y at htarget
  cases htarget with
  | none => exact .error
  | @some a b hab =>
      refine readAlike_of_part h (rel_of_eq hab.targetText?) ?_
      rintro text _ s s' rfl hs
      exact ⟨rfl, rfl, h.kind, h.own.1, hs, .some hab.own.1⟩

theorem ofFunction_alike (h : L.Twin l l' n m) :
    ReadAlike L (ofFunction l n) (ofFunction l' m) := by
  refine readAlike_of_part h h.functionIdent? ?_
  intro t u s s' ht hs
  exact ⟨rfl, ht.text, h.kind, h.own.1, hs, .some ht.range⟩

theorem ofParameter_alike (h : L.Twin l l' n m) :
    ReadAlike L (ofParameter l n) (ofParameter l' m) := by
  refine readAlike_of_part h h.nameIdent? ?_
  intro t u s s' ht hs
  refine ⟨?_, ht.text, h.kind, h.own.1, hs, .some ht.range⟩
  rw [map_eq_of_related h.type? fun _ _ hab => typeOf_alike hab]
  rfl

theorem ofDeclarator_alike (type : ValueType) (h : L.Twin l l' n m) :
    ReadAlike L (ofDeclarator l type n) (ofDeclarator l' type m) := by
  refine readAlike_of_part h h.nameIdent? ?_
  intro t u s s' ht hs
  exact ⟨rfl, ht.text, h.kind, h.own.1, hs, .some ht.range⟩

theorem ofIf_alike (h : L.Twin l l' n m) : ReadAlike L (ofIf l n) (ofIf l' m) :=
  readAlike_of_span h fun _ _ hs => ⟨rfl, ⟨"if", .ifStatement {}, rfl, rfl⟩, h.kind, h.own.1, hs, .none⟩

theorem ofClause_alike (branch : Branch) {owner owner' : Span} (howner : L.span owner owner')
    (count : Nat) (h : L.Twin l l' n m) :
    ReadAlike L (ofClause l branch owner.start.index count n)
      (ofClause l' branch owner'.start.index count m) :=
  readAlike_of_span h fun _ _ hs =>
    ⟨rfl, ⟨branch.label, owner, owner', count, branch.stem_label, howner, rfl, rfl⟩, h.kind, h.own.1,
      hs, .none⟩

theorem ofPrimary_alike (h : L.Twin l l' n m) : ReadAlike L (ofPrimary l n) (ofPrimary l' m) :=
  readAlike_of_span h fun _ _ hs => ⟨rfl, ⟨"expr", .expression, rfl, rfl⟩, h.kind, h.own.1, hs, .none⟩

end Draft

/-! ### What is around twins -/

/-- The nodes are twins, or they are roots of files. -/
def Likeness.Outer (L : Likeness) (l l' : Layout) (n m : Node) : Prop :=
  n.kind = m.kind ∧ (n.kind = .sourceFile ∨ L.Twin l l' n m)

namespace Likeness.Outer

variable {L : Likeness} {l l' : Layout} {n m : Node}

theorem twin (h : L.Outer l l' n m) (hkind : n.kind ≠ .sourceFile) : L.Twin l l' n m :=
  h.2.resolve_left hkind

theorem of_twin (h : L.Twin l l' n m) : L.Outer l l' n m := ⟨h.kind, Or.inr h⟩

end Likeness.Outer

section Around

variable {L : Likeness} {l l' : Layout} {n m : Node} {around around' : List Node}

theorem declaredType?_alike (h : List.Forall₂ (L.Outer l l') around around') :
    Site.declaredType? around = Site.declaredType? around' := by
  cases h with
  | nil => rfl
  | @cons n m _ _ hnm hrest =>
      cases hrest with
      | nil => rfl
      | cons _ _ =>
          simp only [Site.declaredType?, ← hnm.1]
          by_cases hk : n.kind = .variableDecl
          · rw [if_pos hk, if_pos hk]
            have htwin := hnm.twin (by rw [hk]; decide)
            exact map_eq_of_related htwin.type? fun _ _ hab => Draft.typeOf_alike hab
          · rw [if_neg hk, if_neg hk]

theorem ifSpan?_alike (h : List.Forall₂ (L.Outer l l') around around') :
    Option.Rel L.span (Site.ifSpan? l around) (Site.ifSpan? l' around') := by
  cases h with
  | nil => exact .none
  | @cons n m _ _ hnm hrest =>
      cases hrest with
      | nil => exact .none
      | cons _ _ =>
          simp only [Site.ifSpan?, ← hnm.1]
          by_cases hk : n.kind = .ifStatement
          · rw [if_pos hk, if_pos hk]
            exact (hnm.twin (by rw [hk]; decide)).own.2
          · rw [if_neg hk, if_neg hk]
            exact .none

theorem closureName?_alike (h : List.Forall₂ (L.Outer l l') around around') :
    Node.closureName? around = Node.closureName? around' := by
  unfold Node.closureName?
  induction h with
  | nil => rfl
  | @cons n m _ _ hnm _ ih =>
      rw [List.takeWhile_cons, List.takeWhile_cons, ← hnm.1]
      by_cases hends : n.kind.endsStatement = true
      · simp [hends]
      · have hkind : n.kind ≠ .sourceFile := by
          intro hk
          exact hends (by rw [hk]; rfl)
        simp only [hends, Bool.not_false, if_true, List.findSome?_cons, ih,
          (hnm.twin hkind).givesClosureName?]

theorem usage_alike (h : List.Forall₂ (L.Outer l l') around around') :
    Draft.usage around = Draft.usage around' := by
  have hany : (Node.nearestPrimary? around).any Node.hasInvocation
      = (Node.nearestPrimary? around').any Node.hasInvocation := by
    unfold Node.nearestPrimary?
    induction h with
    | nil => rfl
    | @cons n m _ _ hnm _ ih =>
        rw [List.find?_cons, List.find?_cons, ← hnm.1]
        by_cases hk : n.kind = .primaryExpr
        · have htwin := hnm.twin (by rw [hk]; decide)
          simp [hk, htwin.hasInvocation]
        · have hne : (n.kind == .primaryExpr) = false := by simpa using hk
          rw [hne]
          exact ih
  rw [Draft.usage, Draft.usage, hany]

theorem ofClosure_alike (haround : List.Forall₂ (L.Outer l l') around around')
    (h : L.Twin l l' n m) :
    Draft.ReadAlike L (Draft.ofClosure l around n) (Draft.ofClosure l' around' m) := by
  refine Draft.readAlike_of_span h ?_
  intro s s' hs
  refine ⟨?_, ⟨"closure", .inlineClosure _ _ _, rfl, rfl⟩, h.kind, h.own.1, hs, .none⟩
  rw [closureName?_alike haround, h.closureShape?]
  rfl

theorem ofIdentifier_alike (haround : List.Forall₂ (L.Outer l l') around around')
    (h : L.Twin l l' n m) :
    Draft.ReadAlike L (Draft.ofIdentifier l around n) (Draft.ofIdentifier l' around' m) := by
  refine Draft.readAlike_of_part h h.ident? ?_
  intro t u s s' ht hs
  refine ⟨?_, ht.text, h.kind, h.own.1, hs, .some ht.range⟩
  rw [usage_alike haround]
  rfl

/-- **Twins at twin places are read alike.** -/
theorem reading?_alike (count : Nat) (haround : List.Forall₂ (L.Outer l l') around around')
    (h : L.Twin l l' n m) :
    Option.Rel (Draft.ReadAlike L) (Site.reading? l count (n, around))
      (Site.reading? l' count (m, around')) := by
  have hempty : around.isEmpty = around'.isEmpty := isEmpty_related haround
  unfold Site.reading?
  simp only [hempty, ← h.kind]
  split
  · exact .none
  split
  · exact .some (Draft.ofDefine_alike h)
  · exact .some (Draft.ofDirective_alike h)
  · exact .some (Draft.ofInclude_alike h)
  · exact .some (Draft.ofInherit_alike h)
  · exact .some (Draft.ofFunction_alike h)
  · exact .some (Draft.ofParameter_alike h)
  · have htype := h.type?
    unfold Draft.declaredType
    generalize n.type? = x at htype
    generalize m.type? = y at htype
    cases htype with
    | none => exact .some .error
    | some _ => exact .none
  · rw [declaredType?_alike haround]
    cases Site.declaredType? around' with
    | none => exact .none
    | some type => exact .some (Draft.ofDeclarator_alike type h)
  · exact .some (Draft.ofIf_alike h)
  · exact .some (ofClosure_alike haround h)
  · exact .some (Draft.ofPrimary_alike h)
  · exact .some (ofIdentifier_alike haround h)
  · have hspan := ifSpan?_alike haround
    generalize Site.ifSpan? l around = x at hspan
    generalize Site.ifSpan? l' around' = y at hspan
    cases n.kind.branch? with
    | none => exact .none
    | some branch =>
        cases hspan with
        | none => exact .none
        | some howner => exact .some (Draft.ofClause_alike branch howner count h)

end Around

/-! ### Findings that are alike -/

namespace Located

/-- Findings that are alike one by one, and so is what is inside them. -/
inductive Alike (L : Likeness) : List Located → List Located → Prop
  | nil : Alike L [] []
  | leaf {site site' : Site} {d d' : Draft} {fs gs : List Located} (h : d.Alike L d')
      (rest : Alike L fs gs) : Alike L (.leaf site d :: fs) (.leaf site' d' :: gs)
  | scope {site site' : Site} {d d' : Draft} {inside inside' fs gs : List Located}
      (h : d.Alike L d') (below : Alike L inside inside') (rest : Alike L fs gs) :
      Alike L (.scope site d inside :: fs) (.scope site' d' inside' :: gs)
  | omitted {site site' : Site} {reason reason' : Omission} {fs gs : List Located}
      (rest : Alike L fs gs) : Alike L (.omitted site reason :: fs) (.omitted site' reason' :: gs)

variable {L : Likeness} {l l' : Layout} {n m : Node} {around around' : List Node}

theorem Alike.append {fs gs fs' gs' : List Located} (h : Alike L fs gs) (h' : Alike L fs' gs') :
    Alike L (fs ++ fs') (gs ++ gs') := by
  induction h with
  | nil => exact h'
  | leaf h _ ih => exact .leaf h ih
  | scope h below _ _ ih => exact .scope h below ih
  | omitted _ ih => exact .omitted ih

/-- Twins make alike findings of alike findings below them. -/
theorem atSite_alike (count : Nat) (haround : List.Forall₂ (L.Outer l l') around around')
    (h : L.Twin l l' n m) {below below' : List Located} (hbelow : Alike L below below') :
    Alike L (atSite l count (n, around) below) (atSite l' count (m, around') below') := by
  have hread := reading?_alike count haround h
  have hkind : m.kind = n.kind := h.kind.symm
  unfold atSite
  simp only [hkind]
  generalize Site.reading? l count (n, around) = x at hread
  generalize Site.reading? l' count (m, around') = y at hread
  cases hread with
  | none => exact hbelow
  | some hreads =>
      cases hreads with
      | error => exact .omitted hbelow
      | ok hd =>
          simp only [hd.isScope]
          split
          · exact .leaf hd .nil
          · split
            · exact .scope hd hbelow .nil
            · exact .leaf hd hbelow

end Located

/-- A token is passed over. -/
theorem locatedAll_token (l : Layout) (around : List Node) (late : Bool) (count : Nat) (t : Token)
    (ps : List Placed) :
    Placed.locatedAll l around late count (.token t :: ps)
      = Placed.locatedAll l around late count ps := by
  simp [Placed.locatedAll, Placed.located, Placed.clauses]

/-- **Twin rows have findings that are alike.** -/
theorem located_alike {L : Likeness} {l l' : Layout} {ps qs : List Placed}
    (h : Placed.Twins L.range (L.Places l l') ps qs) {around around' : List Node}
    (haround : List.Forall₂ (L.Outer l l') around around') (late : Bool) (count : Nat) :
    Located.Alike L (Placed.locatedAll l around late count ps)
      (Placed.locatedAll l' around' late count qs) := by
  induction h generalizing around around' late count with
  | nil => exact .nil
  | skipLeft _ _ ih =>
      rw [locatedAll_token]
      exact ih haround late count
  | skipRight _ _ ih =>
      rw [locatedAll_token]
      exact ih haround late count
  | token _ _ ih =>
      rw [locatedAll_token, locatedAll_token]
      exact ih haround late count
  | @node kind range range' before before' cs ds _ _ own below _ ihbelow ihrest =>
      have htwin : L.Twin l l' ⟨kind, range, before, cs⟩ ⟨kind, range', before', ds⟩ :=
        ⟨rfl, own, below⟩
      have hinner : List.Forall₂ (L.Outer l l') (⟨kind, range, before, cs⟩ :: around)
          (⟨kind, range', before', ds⟩ :: around') := .cons (.of_twin htwin) haround
      have hlate : (Placed.node kind range' before' ds).isLate around'
          = (Placed.node kind range before cs).isLate around := by
        simp only [Placed.isLate, declaredType?_alike haround]
      rw [Placed.locatedAll, Placed.locatedAll, hlate]
      refine Located.Alike.append ?_ (ihrest haround late _)
      split
      · exact Located.atSite_alike count haround htwin
          ((ihbelow hinner false 0).append (ihbelow hinner true 0))
      · exact .nil

end LpcSymbols
