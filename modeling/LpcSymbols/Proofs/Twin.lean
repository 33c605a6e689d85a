/-
Trees that differ in places and in trivia.

Two rows of elements are twins if they agree in shape, kinds and texts once white
space and comments are skipped on either side.  What else is asked of two tokens or
two nodes that stand for each other is left open: `R` relates the ranges of tokens,
and `N` relates nodes.

Twins cannot be told apart by any part of the grammar: every look-up of a part finds
twins or nothing in both (`child?`, `token?` and what is built from them), and texts
without trivia are equal.
-/
import LpcSymbols.Tree.Grammar
import Mathlib.Data.List.Forall2

namespace LpcSymbols

/-! ### Related lists -/

section Related

variable {α β : Type} {R : α → β → Prop} {xs : List α} {ys : List β}

theorem find?_related (h : List.Forall₂ R xs ys) {p : α → Bool} {q : β → Bool}
    (hpq : ∀ a b, R a b → p a = q b) : Option.Rel R (xs.find? p) (ys.find? q) := by
  induction h with
  | nil => exact .none
  | @cons a b xs ys hab _ ih =>
      rw [List.find?_cons, List.find?_cons, hpq a b hab]
      cases q b with
      | true => exact .some hab
      | false => exact ih

theorem filter_related (h : List.Forall₂ R xs ys) {p : α → Bool} {q : β → Bool}
    (hpq : ∀ a b, R a b → p a = q b) : List.Forall₂ R (xs.filter p) (ys.filter q) := by
  induction h with
  | nil => exact .nil
  | @cons a b xs ys hab _ ih =>
      rw [List.filter_cons, List.filter_cons, hpq a b hab]
      cases q b with
      | true => exact .cons hab ih
      | false => exact ih

theorem findSome?_related {γ : Type} (h : List.Forall₂ R xs ys) {f : α → Option γ}
    {g : β → Option γ} (hfg : ∀ a b, R a b → f a = g b) : xs.findSome? f = ys.findSome? g := by
  induction h with
  | nil => rfl
  | @cons a b xs ys hab _ ih => rw [List.findSome?_cons, List.findSome?_cons, hfg a b hab, ih]

theorem map_related {γ : Type} (h : List.Forall₂ R xs ys) {f : α → γ} {g : β → γ}
    (hfg : ∀ a b, R a b → f a = g b) : xs.map f = ys.map g := by
  induction h with
  | nil => rfl
  | @cons a b xs ys hab _ ih => rw [List.map_cons, List.map_cons, hfg a b hab, ih]

theorem isEmpty_related (h : List.Forall₂ R xs ys) : xs.isEmpty = ys.isEmpty := by
  cases h <;> rfl

theorem head?_related (h : List.Forall₂ R xs ys) : Option.Rel R xs.head? ys.head? := by
  cases h with
  | nil => exact .none
  | cons hab _ => exact .some hab

theorem append_related {xs' : List α} {ys' : List β} (h : List.Forall₂ R xs ys)
    (h' : List.Forall₂ R xs' ys') : List.Forall₂ R (xs ++ xs') (ys ++ ys') := by
  induction h with
  | nil => exact h'
  | cons hab _ ih => exact .cons hab ih

theorem imp_related_of_mem {S : α → β → Prop} (h : List.Forall₂ R xs ys)
    (hRS : ∀ a ∈ xs, ∀ b ∈ ys, R a b → S a b) : List.Forall₂ S xs ys := by
  induction h with
  | nil => exact .nil
  | @cons a b xs ys hab _ ih =>
      refine .cons (hRS a List.mem_cons_self b List.mem_cons_self hab) (ih ?_)
      intro a' ha' b' hb'
      exact hRS a' (List.mem_cons_of_mem _ ha') b' (List.mem_cons_of_mem _ hb')

end Related

section RelatedOption

variable {α β γ δ : Type} {R : α → β → Prop} {S : γ → δ → Prop} {x : Option α} {y : Option β}

theorem bind_related (h : Option.Rel R x y) {f : α → Option γ} {g : β → Option δ}
    (hfg : ∀ a b, R a b → Option.Rel S (f a) (g b)) : Option.Rel S (x.bind f) (y.bind g) := by
  cases h with
  | none => exact .none
  | some hab => exact hfg _ _ hab

theorem bind_eq_of_related (h : Option.Rel R x y) {f : α → Option γ} {g : β → Option γ}
    (hfg : ∀ a b, R a b → f a = g b) : x.bind f = y.bind g := by
  cases h with
  | none => rfl
  | some hab => exact hfg _ _ hab

theorem map_eq_of_related (h : Option.Rel R x y) {f : α → γ} {g : β → γ}
    (hfg : ∀ a b, R a b → f a = g b) : x.map f = y.map g := by
  cases h with
  | none => rfl
  | some hab => exact congrArg some (hfg _ _ hab)

end RelatedOption

/-! ### Twins -/

/-- Two tokens of the same kind and text, with related ranges. -/
structure Token.Like (R : TextRange → TextRange → Prop) (t u : Token) : Prop where
  kind : t.kind = u.kind
  text : t.text = u.text
  range : R t.range u.range

theorem Token.Like.isSignificant {R : TextRange → TextRange → Prop} {t u : Token}
    (h : t.Like R u) : t.isSignificant = u.isSignificant := by
  rw [Token.isSignificant, Token.isSignificant, h.kind]

/-- Two rows that agree once trivia are skipped. -/
inductive Placed.Twins (R : TextRange → TextRange → Prop) (N : Node → Node → Prop) :
    List Placed → List Placed → Prop
  | nil : Twins R N [] []
  | skipLeft {t : Token} {ps qs : List Placed} (ht : t.isSignificant = false)
      (rest : Twins R N ps qs) : Twins R N (.token t :: ps) qs
  | skipRight {t : Token} {ps qs : List Placed} (ht : t.isSignificant = false)
      (rest : Twins R N ps qs) : Twins R N ps (.token t :: qs)
  | token {t u : Token} {ps qs : List Placed} (ht : t.Like R u) (rest : Twins R N ps qs) :
      Twins R N (.token t :: ps) (.token u :: qs)
  | node {kind : Kind} {range range' : TextRange} {before before' : Nat} {cs ds ps qs : List Placed}
      (own : N ⟨kind, range, before, cs⟩ ⟨kind, range', before', ds⟩) (below : Twins R N cs ds)
      (rest : Twins R N ps qs) :
      Twins R N (.node kind range before cs :: ps) (.node kind range' before' ds :: qs)

/-- Two nodes of the same kind whose children are twins. -/
structure Node.Twin (R : TextRange → TextRange → Prop) (N : Node → Node → Prop) (n m : Node) :
    Prop where
  kind : n.kind = m.kind
  own : N n m
  children : Placed.Twins R N n.children m.children

variable {R : TextRange → TextRange → Prop} {N : Node → Node → Prop}

namespace Placed.Twins

variable {ps qs : List Placed}

/-- Nodes that stand for each other may be related by more, if all nodes of the rows are. -/
theorem strengthen {M : Node → Node → Prop} (h : Twins R N ps qs) (around around' : List Node)
    (hM : ∀ s ∈ nodesAll around ps, ∀ s' ∈ nodesAll around' qs, s.1.Twin R N s'.1 → M s.1 s'.1) :
    Twins R M ps qs := by
  induction h generalizing around around' with
  | nil => exact .nil
  | skipLeft ht _ ih => exact .skipLeft ht (ih around around' hM)
  | skipRight ht _ ih => exact .skipRight ht (ih around around' hM)
  | token ht _ ih => exact .token ht (ih around around' hM)
  | @node kind range range' before before' cs ds ps qs own below _ ihbelow ihrest =>
      refine .node ?_ (ihbelow (⟨kind, range, before, cs⟩ :: around)
        (⟨kind, range', before', ds⟩ :: around') ?_) (ihrest around around' ?_)
      · exact hM _ (List.mem_append_left _ List.mem_cons_self) _
          (List.mem_append_left _ List.mem_cons_self) ⟨rfl, own, below⟩
      · intro s hs s' hs'
        exact hM s (List.mem_append_left _ (List.mem_cons_of_mem _ hs)) s'
          (List.mem_append_left _ (List.mem_cons_of_mem _ hs'))
      · intro s hs s' hs'
        exact hM s (List.mem_append_right _ hs) s' (List.mem_append_right _ hs')

theorem nodes (h : Twins R N ps qs) :
    List.Forall₂ (Node.Twin R N) (ps.filterMap node?) (qs.filterMap node?) := by
  induction h with
  | nil => exact .nil
  | skipLeft _ _ ih => exact ih
  | skipRight _ _ ih => exact ih
  | token _ _ ih => exact ih
  | node own below _ _ ih => exact .cons ⟨rfl, own, below⟩ ih

/-- The significant tokens among the children. -/
theorem childTokens (h : Twins R N ps qs) :
    List.Forall₂ (Token.Like R) ((ps.filterMap token?).filter Token.isSignificant)
      ((qs.filterMap token?).filter Token.isSignificant) := by
  induction h with
  | nil => exact .nil
  | skipLeft ht _ ih => simpa [token?, ht] using ih
  | skipRight ht _ ih => simpa [token?, ht] using ih
  | @token t u _ _ ht _ ih =>
      simp only [List.filterMap_cons, token?, List.filter_cons, ht.isSignificant]
      cases u.isSignificant with
      | true => exact .cons ht ih
      | false => exact ih
  | node _ _ _ _ ih => exact ih

end Placed.Twins

namespace Placed

/-- The tokens of a row, in the order of the text. -/
def tokensAll (ps : List Placed) : List Token := (leavesAll ps).filterMap Leaf.token?

theorem tokensAll_cons (p : Placed) (ps : List Placed) :
    tokensAll (p :: ps) = p.leaves.filterMap Leaf.token? ++ tokensAll ps := by
  rw [tokensAll, leavesAll, List.filterMap_append]
  rfl

theorem tokens_node (kind : Kind) (range : TextRange) (before : Nat) (children : List Placed) :
    (Placed.node kind range before children).leaves.filterMap Leaf.token? = tokensAll children := by
  cases children with
  | nil => rfl
  | cons p ps => rw [leaves, tokensAll, leavesAll]

/-- The significant tokens of twins, at any depth. -/
theorem Twins.tokensAll {ps qs : List Placed} (h : Twins R N ps qs) :
    List.Forall₂ (Token.Like R) ((Placed.tokensAll ps).filter Token.isSignificant)
      ((Placed.tokensAll qs).filter Token.isSignificant) := by
  induction h with
  | nil => exact .nil
  | skipLeft ht _ ih => simpa [tokensAll_cons, leaves, Leaf.token?, ht] using ih
  | skipRight ht _ ih => simpa [tokensAll_cons, leaves, Leaf.token?, ht] using ih
  | @token t u _ _ ht _ ih =>
      rw [tokensAll_cons, tokensAll_cons, List.filter_append, List.filter_append]
      refine append_related ?_ ih
      exact filter_related (.cons ht .nil) fun _ _ h => h.isSignificant
  | node _ _ _ ihbelow ihrest =>
      rw [tokensAll_cons, tokensAll_cons, tokens_node, tokens_node, List.filter_append,
        List.filter_append]
      exact append_related ihbelow ihrest

end Placed

/-! ### The parts of twins -/

namespace Node.Twin

variable {n m : Node}

theorem childNodes (h : n.Twin R N m) :
    List.Forall₂ (Node.Twin R N) n.childNodes m.childNodes := h.children.nodes

theorem child? (h : n.Twin R N m) (kind : Kind) :
    Option.Rel (Node.Twin R N) (n.child? kind) (m.child? kind) :=
  find?_related h.childNodes fun a b hab => by rw [hab.kind]

theorem tokens (h : n.Twin R N m) :
    List.Forall₂ (Token.Like R) (n.tokens.filter Token.isSignificant)
      (m.tokens.filter Token.isSignificant) := by
  have hn : ∀ x : Node, x.tokens = Placed.tokensAll x.children := fun x =>
    Placed.tokens_node x.kind x.range x.leavesBefore x.children
  rw [hn, hn]
  exact h.children.tokensAll

theorem significantText (h : n.Twin R N m) : n.significantText = m.significantText := by
  rw [Node.significantText, Node.significantText, map_related h.tokens fun _ _ hab => hab.text]

/-- A look-up of a significant token by its kind. -/
theorem findToken (h : n.Twin R N m) {p : Kind → Bool} (hp : ∀ k, p k = true → k.isTrivia = false) :
    Option.Rel (Token.Like R) (n.childTokens.find? (p ·.kind)) (m.childTokens.find? (p ·.kind)) := by
  have hfilter : ∀ ts : List Token,
      (ts.filter Token.isSignificant).find? (p ·.kind) = ts.find? (p ·.kind) := by
    intro ts
    rw [List.find?_filter]
    congr 1
    funext t
    cases hk : p t.kind with
    | false => simp
    | true => simp [Token.isSignificant, hp _ hk]
  rw [← hfilter n.childTokens, ← hfilter m.childTokens]
  exact find?_related h.children.childTokens fun _ _ hab => by rw [hab.kind]

theorem token? (h : n.Twin R N m) {kind : Kind} (hkind : kind.isTrivia = false) :
    Option.Rel (Token.Like R) (n.token? kind) (m.token? kind) := by
  refine h.findToken (p := (· == kind)) ?_
  intro k hk
  rw [beq_iff_eq.mp hk, hkind]

theorem defineLine? (h : n.Twin R N m) : Option.Rel (Token.Like R) n.defineLine? m.defineLine? :=
  h.token? rfl

theorem defineHead? (h : n.Twin R N m) : n.defineHead? = m.defineHead? :=
  map_eq_of_related h.defineLine? fun _ _ hab => by rw [hab.text]

theorem defineBody (h : n.Twin R N m) : n.defineBody = m.defineBody := by
  rw [Node.defineBody, Node.defineBody,
    bind_eq_of_related h.defineLine? fun _ _ hab => by rw [hab.text]]

theorem includeTarget? (h : n.Twin R N m) :
    Option.Rel (Token.Like R) n.includeTarget? m.includeTarget? := by
  refine h.findToken (p := fun k => k == .stringLit || k == .headerName) ?_
  intro k hk
  rcases (by simpa using hk : k = .stringLit ∨ k = .headerName) with rfl | rfl <;> rfl

theorem directiveKeyword? (h : n.Twin R N m) :
    Option.Rel (Token.Like R) n.directiveKeyword? m.directiveKeyword? := h.token? rfl

theorem inheritTarget? (h : n.Twin R N m) :
    Option.Rel (Node.Twin R N) n.inheritTarget? m.inheritTarget? := h.child? _

theorem targetText? (h : n.Twin R N m) : n.targetText? = m.targetText? := by
  rw [Node.targetText?, Node.targetText?, h.significantText]

theorem ident? (h : n.Twin R N m) : Option.Rel (Token.Like R) n.ident? m.ident? := h.token? rfl

theorem nameIdent? (h : n.Twin R N m) : Option.Rel (Token.Like R) n.nameIdent? m.nameIdent? :=
  bind_related (h.child? _) fun _ _ hab => hab.ident?

theorem functionIdent? (h : n.Twin R N m) :
    Option.Rel (Token.Like R) n.functionIdent? m.functionIdent? :=
  bind_related (h.child? _) fun _ _ hab => hab.nameIdent?

theorem type? (h : n.Twin R N m) : Option.Rel (Node.Twin R N) n.type? m.type? := h.child? _

theorem hasInvocation (h : n.Twin R N m) : n.hasInvocation = m.hasInvocation := by
  have hcalls : List.Forall₂ (Node.Twin R N) n.invocations m.invocations :=
    filter_related h.childNodes fun a b hab => by rw [hab.kind]
  rw [Node.hasInvocation, Node.hasInvocation, isEmpty_related hcalls]

theorem operandIdent? (h : n.Twin R N m) :
    Option.Rel (Token.Like R) n.operandIdent? m.operandIdent? :=
  bind_related (h.child? _) fun _ _ hab => hab.ident?

theorem assignedName? (h : n.Twin R N m) : n.assignedName? = m.assignedName? := by
  refine bind_eq_of_related (head?_related h.childNodes) ?_
  intro a b hab
  rw [hab.kind]
  split
  · exact map_eq_of_related hab.operandIdent? fun _ _ ht => ht.text
  · rfl

theorem closureShape? (h : n.Twin R N m) : n.closureShape? = m.closureShape? := by
  have hfilter : ∀ (ts : List Token) (f : Token → Option ClosureShape),
      (∀ t, t.isSignificant = false → f t = none) →
      (ts.filter Token.isSignificant).findSome? f = ts.findSome? f := by
    intro ts f hf
    induction ts with
    | nil => rfl
    | cons t ts ih =>
        cases ht : t.isSignificant with
        | true => simp [ht, List.findSome?_cons, ih]
        | false => simp [ht, ih, hf t ht]
  have htrivia : ∀ t : Token, t.isSignificant = false →
      t.kind = .whitespace ∨ t.kind = .comment := by
    intro t ht
    have hkind : t.kind.isTrivia = true := by simpa [Token.isSignificant] using ht
    cases hk : t.kind <;> simp_all [Kind.isTrivia]
  unfold Node.closureShape?
  rw [← hfilter n.childTokens, ← hfilter m.childTokens]
  · exact findSome?_related h.children.childTokens fun _ _ hab => by rw [hab.kind]
  · intro t ht
    rcases htrivia t ht with hk | hk <;> rw [hk]
  · intro t ht
    rcases htrivia t ht with hk | hk <;> rw [hk]

theorem givesClosureName? (h : n.Twin R N m) : n.givesClosureName? = m.givesClosureName? := by
  unfold Node.givesClosureName?
  rw [h.kind, h.assignedName?, h.hasInvocation,
    map_eq_of_related h.nameIdent? fun _ _ ht => ht.text,
    map_eq_of_related h.operandIdent? fun _ _ ht => ht.text]

end Node.Twin

end LpcSymbols
