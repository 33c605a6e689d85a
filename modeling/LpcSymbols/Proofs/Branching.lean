/-
The branches of `if` statements.

An `if` statement owns the symbols of its clauses, and it notes them as its branches while
they are recorded, between whatever else is found in it.  What it owns is what is found below
its node (`owned_of_entry`), so the question is which clauses are found there.  A clause gives
a symbol only as a child of a statement that has a span itself, and below such a statement
every other construct keeps the clauses inside it to itself (`kept_noClauses`).  So the clauses
that the statement owns are its child clauses that have spans, with the numbers that they have
among all its child clauses (`clauseEntries_locatedAll`).
-/
import LpcSymbols.Proofs.Accounting
import LpcSymbols.Proofs.Drafts
import LpcSymbols.Proofs.Likeness
import LpcSymbols.Proofs.Preorder
import LpcSymbols.Proofs.Scoping
import Mathlib.Data.List.Forall2

namespace LpcSymbols

/-- The branch that a clause stands for. -/
def SymbolData.branch? : SymbolData → Option Branch
  | .selection branch _ => some branch
  | _ => none

namespace Placed

/-- The clauses among the nodes of a row. -/
def clauseNodes (ps : List Placed) : List Node :=
  (ps.filterMap node?).filter (·.kind.branch?.isSome)

theorem clauseNodes_cons (p : Placed) (ps : List Placed) :
    clauseNodes (p :: ps) = clauseNodes [p] ++ clauseNodes ps := by
  rw [clauseNodes, ← List.singleton_append, List.filterMap_append, List.filter_append]
  rfl

theorem length_clauseNodes (p : Placed) : (clauseNodes [p]).length = p.clauses := by
  cases p with
  | token tok => rfl
  | node kind range before children =>
      cases hb : kind.branch? <;> simp [clauseNodes, node?, clauses, hb]

end Placed

/-! ### What a scope owns -/

namespace Located

/-- The entry of the finding itself. -/
def entryOf (parent next : SymbolId) : Located → Option Entry
  | .leaf site draft => some ⟨site, draft, next, parent, []⟩
  | .scope site draft inside => some ⟨site, draft, next, parent, tops (next + 1) inside⟩
  | .omitted _ _ => none

/-- The entries of the findings themselves, without those inside them. -/
def topEntries (parent next : SymbolId) : List Located → List Entry
  | [] => []
  | f :: fs => (f.entryOf parent next).toList ++ topEntries parent (next + f.symbolCount) fs

theorem topEntries_append (parent next : SymbolId) (fs gs : List Located) :
    topEntries parent next (fs ++ gs)
      = topEntries parent next fs ++ topEntries parent (next + symbolCountAll fs) gs := by
  induction fs generalizing next with
  | nil => rfl
  | cons f fs ih =>
      simp only [List.cons_append, topEntries, symbolCountAll, ih, List.append_assoc, Nat.add_assoc]

theorem tops_eq_topEntries (parent next : SymbolId) (fs : List Located) :
    tops next fs = (topEntries parent next fs).map fun e => (e.id, e.draft) := by
  induction fs generalizing next with
  | nil => rfl
  | cons f fs ih =>
      rw [tops, topEntries, List.map_append, ih]
      cases f <;> rfl

theorem mem_entriesAll_of_topEntries {parent next : SymbolId} {fs : List Located} {e : Entry}
    (he : e ∈ topEntries parent next fs) : e ∈ entriesAll parent next fs := by
  induction fs generalizing next with
  | nil => simp [topEntries] at he
  | cons f fs ih =>
      rw [entriesAll]
      rcases List.mem_append.mp he with he | he
      · apply List.mem_append_left
        cases f <;> simp_all [entryOf, entries]
      · exact List.mem_append_right _ (ih he)

/-- Every scope among the findings owns what is found below its node. -/
def OwnBelow (l : Layout) (fs : List Located) : Prop :=
  ∀ parent next, ∀ e ∈ entriesAll parent next fs, e.draft.data.kind.isScope = true →
    e.owned = tops (e.id + 1) (e.site.below l) ∧
      ∀ f ∈ entriesAll e.id (e.id + 1) (e.site.below l), f ∈ entriesAll parent next fs

theorem OwnBelow.append {l : Layout} {fs gs : List Located} (hf : OwnBelow l fs)
    (hg : OwnBelow l gs) : OwnBelow l (fs ++ gs) := by
  intro parent next e he hscope
  rw [entriesAll_append] at he ⊢
  rcases List.mem_append.mp he with he | he
  · obtain ⟨howned, hmem⟩ := hf parent next e he hscope
    exact ⟨howned, fun f hf => List.mem_append_left _ (hmem f hf)⟩
  · obtain ⟨howned, hmem⟩ := hg parent _ e he hscope
    exact ⟨howned, fun f hf => List.mem_append_right _ (hmem f hf)⟩

theorem ownBelow_omitted (l : Layout) (s : Site) (reason : Omission) :
    OwnBelow l [.omitted s reason] := by
  intro parent next e he
  simp [entriesAll, entries] at he

theorem ownBelow_leaf (l : Layout) (s : Site) {d : Draft} (hd : d.data.kind.isScope = false) :
    OwnBelow l [.leaf s d] := by
  intro parent next e he hscope
  simp only [entriesAll, entries, List.append_nil, List.mem_singleton] at he
  subst he
  rw [hd] at hscope
  exact absurd hscope Bool.false_ne_true

theorem ownBelow_scope {l : Layout} (s : Site) (d : Draft) (h : OwnBelow l (s.below l)) :
    OwnBelow l [.scope s d (s.below l)] := by
  intro parent next e he hscope
  simp only [entriesAll, entries, List.append_nil] at he ⊢
  rcases List.mem_cons.mp he with rfl | he
  · exact ⟨rfl, fun f hf => List.mem_cons_of_mem _ hf⟩
  · obtain ⟨howned, hmem⟩ := h next (next + 1) e he hscope
    exact ⟨howned, fun f hf => List.mem_cons_of_mem _ (hmem f hf)⟩

theorem kept_ownBelow (l : Layout) : Kept l fun _ fs => OwnBelow l fs where
  nil := by
    intro around parent next e he
    simp [entriesAll] at he
  append _ _ _ := OwnBelow.append
  atSite := by
    intro n around count hbelow
    unfold atSite
    split
    · exact hbelow
    · exact (ownBelow_omitted l _ _).append hbelow
    · rename_i draft hread
      have hkind := ((Site.reading?_readsAs hread).isOf draft rfl).isScope
      split
      · rename_i hdefine
        apply ownBelow_leaf
        rw [hkind, hdefine]
        rfl
      · split
        · exact ownBelow_scope _ _ hbelow
        · rename_i hno
          exact (ownBelow_leaf l _ (by simpa using hno)).append hbelow

/-! ### The clauses that are found -/

/-- The entries of the clauses among findings, with their branches. -/
def clauseEntries (parent next : SymbolId) (fs : List Located) : List (Entry × Branch) :=
  (topEntries parent next fs).filterMap fun e => e.draft.data.branch?.map (e, ·)

theorem clauseEntries_append (parent next : SymbolId) (fs gs : List Located) :
    clauseEntries parent next (fs ++ gs)
      = clauseEntries parent next fs ++ clauseEntries parent (next + symbolCountAll fs) gs := by
  rw [clauseEntries, topEntries_append, List.filterMap_append]
  rfl

/-- No clause is among the findings. -/
def NoClauses (fs : List Located) : Prop := ∀ parent next, clauseEntries parent next fs = []

theorem NoClauses.append {fs gs : List Located} (hf : NoClauses fs) (hg : NoClauses gs) :
    NoClauses (fs ++ gs) := by
  intro parent next
  rw [clauseEntries_append, hf, hg]
  rfl

theorem noClauses_omitted (s : Site) (reason : Omission) : NoClauses [.omitted s reason] := by
  intro parent next
  rfl

theorem noClauses_leaf (s : Site) {d : Draft} (hd : d.data.branch? = none) :
    NoClauses [.leaf s d] := by
  intro parent next
  simp [clauseEntries, topEntries, entryOf, hd]

theorem noClauses_scope (s : Site) {d : Draft} (hd : d.data.branch? = none)
    (inside : List Located) : NoClauses [.scope s d inside] := by
  intro parent next
  simp [clauseEntries, topEntries, entryOf, hd]

variable {l : Layout} {n : Node} {around : List Node} {count : Nat}

/-- A clause is below an `if` statement that is below another node. -/
theorem exists_of_ifSpan? {span : Span} (h : Site.ifSpan? l around = some span) :
    ∃ n m rest, around = n :: m :: rest ∧ n.kind = .ifStatement ∧ l.span? n = some span := by
  unfold Site.ifSpan? at h
  split at h
  · rename_i n m rest
    split at h
    · rename_i hk
      exact ⟨n, m, rest, rfl, hk, h⟩
    · simp at h
  · simp at h

/-- An `if` statement with a span is read, and it is a scope. -/
theorem exists_reading?_of_ifSpan? (count : Nat) {span : Span}
    (h : Site.ifSpan? l (n :: around) = some span) :
    ∃ d, Site.reading? l count (n, around) = some (.ok d) ∧ d.data.kind.isScope = true := by
  obtain ⟨_, m, rest, hcons, hk, hspan⟩ := exists_of_ifSpan? h
  obtain ⟨rfl, rfl⟩ := List.cons.inj hcons
  refine ⟨⟨Draft.label "if" span, .ifStatement {}, n.ref, span, none⟩, ?_, rfl⟩
  simp [Site.reading?, hk, Draft.ofIf, Draft.spanOf_some hspan, bind, Except.bind, pure, Except.pure]

/-- Only a child of an `if` statement that has a span is read as a clause. -/
theorem branch?_eq_none {s : Site} {d : Draft} (h : s.Reads l count d)
    (hno : Site.ifSpan? l s.2 = none ∨ s.1.kind.branch? = none) : d.data.branch? = none := by
  cases h with
  | clause kind houter hspan =>
      rcases hno with hno | hno
      · exact absurd (hno.symm.trans houter) (by simp)
      · exact absurd (hno.symm.trans kind) (by simp)
  | _ => rfl

/-- A site that is no clause of a statement around it keeps the clauses below it to itself. -/
theorem noClauses_atSite (hno : Site.ifSpan? l around = none ∨ n.kind.branch? = none)
    {below : List Located} (hbelow : Site.ifSpan? l (n :: around) = none → NoClauses below) :
    NoClauses (atSite l count (n, around) below) := by
  -- Below a site that is not read as a scope there are no clauses, for it is no `if` statement.
  have hpass : (∀ d, Site.reading? l count (n, around) = some (.ok d) →
      d.data.kind.isScope = false) → NoClauses below := by
    intro hread
    apply hbelow
    cases hspan : Site.ifSpan? l (n :: around) with
    | none => rfl
    | some span =>
        obtain ⟨d, hd, hscope⟩ := exists_reading?_of_ifSpan? count hspan
        rw [hread d hd] at hscope
        exact absurd hscope Bool.false_ne_true
  unfold atSite
  split
  · rename_i hnone
    apply hpass
    intro d hd
    simp [hnone] at hd
  · rename_i reason herror
    apply (noClauses_omitted _ _).append (hpass _)
    intro d hd
    simp [herror] at hd
  · rename_i draft hread
    have hd : draft.data.branch? = none := branch?_eq_none (Site.reads_of_reading? hread) hno
    split
    · exact noClauses_leaf _ hd
    · split
      · exact noClauses_scope _ hd _
      · rename_i hleaf
        apply (noClauses_leaf _ hd).append (hpass _)
        intro d hother
        obtain rfl := Except.ok.inj (Option.some.inj (hread.symm.trans hother))
        simpa using hleaf

theorem kept_noClauses (l : Layout) : Kept l fun around fs =>
    Site.ifSpan? l around = none → NoClauses fs where
  nil := by
    intro around _ parent next
    rfl
  append := by
    intro around fs gs hf hg hspan
    exact (hf hspan).append (hg hspan)
  atSite := by
    intro n around count hbelow hspan
    exact noClauses_atSite (Or.inl hspan) hbelow

/-- The entry is that of a clause, which comes after a number of other clauses. -/
structure ClauseOf (l : Layout) (around : List Node) (y : Entry × Branch) (x : Node × Nat) :
    Prop where
  site : y.1.site = (x.1, around)
  reading : Site.reading? l x.2 (x.1, around) = some (.ok y.1.draft)
  branch : x.1.kind.branch? = some y.2

/-- The numbered clauses that have spans. -/
def spanned (l : Layout) (clauses : List (Node × Nat)) : List (Node × Nat) :=
  clauses.filter fun x => (l.span? x.1).isSome

theorem atSite_of_error {s : Site} {reason : Omission}
    (h : s.reading? l count = some (.error reason)) (below : List Located) :
    atSite l count s below = [.omitted s reason] ++ below := by
  rw [atSite, h]
  rfl

theorem atSite_of_scope {s : Site} {d : Draft} (h : s.reading? l count = some (.ok d))
    (hscope : d.data.kind.isScope = true) (below : List Located) :
    atSite l count s below = [.scope s d below] := by
  have hkind := ((Site.reading?_readsAs h).isOf d rfl).isScope
  have hdefine : s.1.kind ≠ .defineDirective := by
    intro hk
    rw [hscope, hk] at hkind
    simp [Kind.opensScope] at hkind
  rw [atSite, h]
  show (if s.1.kind = .defineDirective then _ else _) = _
  rw [if_neg hdefine, if_pos hscope]

/-- A clause of an `if` statement gives one entry if it has a span, and else none. -/
theorem clauseEntries_clause {outer : Span} (houter : Site.ifSpan? l around = some outer)
    {branch : Branch} (hbranch : n.kind.branch? = some branch) (parent next : SymbolId) :
    List.Forall₂ (ClauseOf l around)
      (clauseEntries parent next (atSite l count (n, around) (Site.below l (n, around))))
      (spanned l [(n, count)]) := by
  have haround : around ≠ [] := by
    intro hnil
    simp [hnil, Site.ifSpan?] at houter
  have hread : Site.reading? l count (n, around) = _ := Site.reading?_clause haround hbranch
  rw [houter, Option.map_some, Draft.ofClause] at hread
  cases hspan : l.span? n with
  | none =>
      rw [Draft.spanOf_none hspan] at hread
      have hinner : Site.ifSpan? l (n :: around) = none := by
        obtain ⟨m, rest, rfl⟩ := List.exists_cons_of_ne_nil haround
        simp [Site.ifSpan?, hspan]
      have hnone := (noClauses_omitted (n, around) (.noSignificantToken n.kind)).append
        (Site.kept_below (kept_noClauses l) (n, around) hinner)
      rw [atSite_of_error hread, hnone]
      simp [spanned, hspan]
  | some span =>
      rw [Draft.spanOf_some hspan] at hread
      rw [atSite_of_scope hread rfl]
      simp only [spanned, hspan, List.filter_cons, Option.isSome_some, if_true, List.filter_nil]
      exact .cons ⟨rfl, hread, hbranch⟩ .nil

/-- A child of an `if` statement gives the entry of a clause if it is a clause with a span. -/
theorem clauseEntries_located {outer : Span} (houter : Site.ifSpan? l around = some outer)
    (parent next : SymbolId) (p : Placed) : List.Forall₂ (ClauseOf l around)
      (clauseEntries parent next (p.located l around count))
      (spanned l ((Placed.clauseNodes [p]).zipIdx count)) := by
  cases p with
  | token tok => exact .nil
  | node kind range before children =>
      cases hbranch : kind.branch? with
      | none =>
          have hnone : NoClauses (Placed.located l around count (.node kind range before children)) :=
            noClauses_atSite (Or.inr hbranch)
              (Site.kept_below (kept_noClauses l) (⟨kind, range, before, children⟩, around))
          rw [hnone]
          simp [Placed.clauseNodes, Placed.node?, hbranch, spanned]
      | some branch =>
          simp only [Placed.clauseNodes, Placed.node?, List.filterMap_cons, List.filterMap_nil,
            List.filter_cons, hbranch, Option.isSome_some, if_true, List.filter_nil,
            List.zipIdx_cons, List.zipIdx_nil]
          exact clauseEntries_clause houter hbranch parent next

/-- **The clauses that an `if` statement owns are its child clauses that have spans, numbered
among all its child clauses.** -/
theorem clauseEntries_locatedAll {outer : Span} (houter : Site.ifSpan? l around = some outer)
    (parent : SymbolId) (ps : List Placed) : ∀ next count, List.Forall₂ (ClauseOf l around)
      (clauseEntries parent next (Placed.locatedAll l around false count ps))
      (spanned l ((Placed.clauseNodes ps).zipIdx count)) := by
  induction ps with
  | nil =>
      intro next count
      exact .nil
  | cons p ps ih =>
      intro next count
      have hlate : p.isLate around = false := by
        cases p <;> simp [Placed.isLate, Finding.declaredType?_of_ifSpan? houter]
      rw [Placed.locatedAll, if_pos hlate, clauseEntries_append, Placed.clauseNodes_cons,
        List.zipIdx_append, Placed.length_clauseNodes, spanned, List.filter_append]
      exact List.rel_append (clauseEntries_located houter parent next p) (ih _ _)

end Located

/-! ### The branches that are noted -/

/-- An `if`, any number of `else if`, and at most one `else`. -/
def Branch.Regular (branches : List Branch) : Prop :=
  ∃ count last, (last = [] ∨ last = [.elseBranch]) ∧
    branches = [.ifBranch] ++ (List.replicate count .elseIf ++ last)

namespace Branches

/-- The clauses among the symbols of a row, with their branches. -/
def clausesOf (owned : List (SymbolId × Draft)) : List (SymbolId × Branch) :=
  owned.filterMap fun x => x.2.data.branch?.map (x.1, ·)

theorem clausesOf_sublist (owned : List (SymbolId × Draft)) :
    ((clausesOf owned).map (·.1)).Sublist (owned.map (·.1)) := by
  induction owned with
  | nil => exact List.Sublist.slnil
  | cons x owned ih =>
      cases hx : x.2.data.branch? with
      | none => simpa [clausesOf, hx] using ih.cons x.1
      | some branch => simpa [clausesOf, hx] using ih

/-- The clauses that are one of the branches. -/
def pick (clauses : List (SymbolId × Branch)) (branch : Branch) : List SymbolId :=
  (clauses.filter (·.2 == branch)).map (·.1)

theorem pick_append (xs ys : List (SymbolId × Branch)) (branch : Branch) :
    pick (xs ++ ys) branch = pick xs branch ++ pick ys branch := by
  rw [pick, List.filter_append, List.map_append]
  rfl

/-- The branches that clauses give: the first `if`, every `else if`, the first `else`. -/
def ofClauses (clauses : List (SymbolId × Branch)) : Branches :=
  ⟨(pick clauses .ifBranch).head?, pick clauses .elseIf, (pick clauses .elseBranch).head?⟩

theorem addAll_cons (b : Branches) (id : SymbolId) (d : Draft) (rest : List (SymbolId × Draft)) :
    b.addAll ((id, d) :: rest) = match d.data.branch? with
      | some branch => (b.add branch id).addAll rest
      | none => b.addAll rest := by
  cases hd : d.data <;> simp [addAll, hd, SymbolData.branch?]

/-- What has been noted before stays, and of the first and last branches the earliest stays. -/
theorem addAll_eq (b : Branches) (owned : List (SymbolId × Draft)) :
    b.addAll owned = ⟨b.ifBranch.or (ofClauses (clausesOf owned)).ifBranch,
      b.elseIfs ++ (ofClauses (clausesOf owned)).elseIfs,
      b.elseBranch.or (ofClauses (clausesOf owned)).elseBranch⟩ := by
  induction owned generalizing b with
  | nil => simp [addAll, clausesOf, ofClauses, pick]
  | cons x owned ih =>
      obtain ⟨id, d⟩ := x
      rw [addAll_cons]
      cases hd : d.data.branch? with
      | none => simp [ih, clausesOf, hd]
      | some branch =>
          have hclauses : clausesOf ((id, d) :: owned) = [(id, branch)] ++ clausesOf owned := by
            simp [clausesOf, hd]
          rw [hclauses]
          cases branch <;> simp [ih, add, ofClauses, pick]

theorem pick_of_forall {clauses : List (SymbolId × Branch)} {branch : Branch}
    (h : ∀ x ∈ clauses, x.2 = branch) (other : Branch) :
    pick clauses other = if branch = other then clauses.map (·.1) else [] := by
  unfold pick
  by_cases heq : branch = other
  · rw [if_pos heq, List.filter_eq_self.mpr fun x hx => by simp [h x hx, heq]]
  · rw [if_neg heq, List.filter_eq_nil_iff.mpr fun x hx => by simp [h x hx, heq]]
    rfl

theorem toList_head?_of_length {ids : List SymbolId} (h : ids.length ≤ 1) :
    ids.head?.toList = ids := by
  match ids, h with
  | [], _ => rfl
  | [_], _ => rfl

/-- If the clauses come in the order in which they are tried, the branches are the clauses. -/
theorem toList_ofClauses {clauses : List (SymbolId × Branch)} {branches : List Branch}
    (hregular : Branch.Regular branches) (hsub : (clauses.map (·.2)).Sublist branches) :
    (ofClauses clauses).toList = clauses.map (·.1) := by
  obtain ⟨count, last, hlast, rfl⟩ := hregular
  obtain ⟨a, rest, hsplit, ha, hrest⟩ := List.sublist_append_iff.mp hsub
  obtain ⟨b, c, rfl, hb, hc⟩ := List.sublist_append_iff.mp hrest
  obtain ⟨xs, zs, rfl, rfl, hzs⟩ := List.map_eq_append_iff.mp hsplit
  obtain ⟨ys, zs, rfl, rfl, rfl⟩ := List.map_eq_append_iff.mp hzs
  have hc' : (zs.map (·.2)).Sublist [.elseBranch] := by
    rcases hlast with rfl | rfl
    · exact hc.trans (List.nil_sublist _)
    · exact hc
  have hxs : ∀ x ∈ xs, x.2 = .ifBranch := fun x hx =>
    List.mem_singleton.mp (ha.subset (List.mem_map_of_mem hx))
  have hys : ∀ y ∈ ys, y.2 = .elseIf := fun y hy =>
    List.eq_of_mem_replicate (hb.subset (List.mem_map_of_mem hy))
  have hzs : ∀ z ∈ zs, z.2 = .elseBranch := fun z hz =>
    List.mem_singleton.mp (hc'.subset (List.mem_map_of_mem hz))
  have hfirst : (xs.map (·.1)).head?.toList = xs.map (·.1) :=
    toList_head?_of_length (by simpa using ha.length_le)
  have hfinal : (zs.map (·.1)).head?.toList = zs.map (·.1) :=
    toList_head?_of_length (by simpa using hc'.length_le)
  simp only [ofClauses, toList, pick_append, pick_of_forall hxs, pick_of_forall hys,
    pick_of_forall hzs, reduceCtorEq, if_true, if_false, List.append_nil, List.nil_append]
  rw [hfirst, hfinal, List.map_append, List.map_append, List.append_assoc]

end Branches

/-! ### The symbols of `if` statements -/

/-- The clauses among the children of a symbol, with their branches. -/
def SymbolTable.selections (t : SymbolTable) (id : SymbolId) : List (SymbolId × Branch) :=
  ((t.children id).filterMap t.get?).filterMap fun s => s.data.branch?.map (s.id, ·)

/-- The branch that a clause of the kind stands for. -/
inductive Kind.StandsFor : Kind → Branch → Prop
  | ifClause : StandsFor .ifClause .ifBranch
  | elseIfClause : StandsFor .elseIfClause .elseIf
  | elseClause : StandsFor .elseClause .elseBranch

theorem Kind.branch?_eq_some_iff {k : Kind} {branch : Branch} :
    k.branch? = some branch ↔ k.StandsFor branch := by
  constructor
  · intro h
    cases k <;> simp [branch?] at h <;> subst h <;> constructor
  · intro h
    cases h <;> rfl

/-- The clauses among the children of a node. -/
def Node.clauses (n : Node) : List Node :=
  n.childNodes.filter (·.kind ∈ [Kind.ifClause, .elseIfClause, .elseClause])

theorem Node.clauses_eq (n : Node) : n.clauses = n.childNodes.filter (·.kind.branch?.isSome) := by
  refine List.filter_congr ?_
  intro m _
  cases m.kind <;> rfl

/-- A clause with `if`, any number of clauses with `else if`, and at most one with `else`. -/
def Kind.Regular (kinds : List Kind) : Prop :=
  ∃ count last, (last = [] ∨ last = [.elseClause]) ∧
    kinds = [.ifClause] ++ (List.replicate count .elseIfClause ++ last)

/-- Regular clauses stand for the branches in the order in which they are tried. -/
theorem Kind.Regular.branches {kinds : List Kind} (h : Kind.Regular kinds) :
    Branch.Regular (kinds.filterMap Kind.branch?) := by
  obtain ⟨count, last, hlast, rfl⟩ := h
  refine ⟨count, last.filterMap Kind.branch?, ?_, ?_⟩
  · rcases hlast with rfl | rfl
    · exact Or.inl rfl
    · exact Or.inr rfl
  · have hmiddle : (List.replicate count Kind.elseIfClause).filterMap Kind.branch?
        = List.replicate count .elseIf := List.filterMap_replicate_of_some rfl
    rw [List.filterMap_append, List.filterMap_append, hmiddle]
    rfl

theorem Entry.branch?_symbol (e : Entry) : e.symbol.data.branch? = e.draft.data.branch? := by
  show (e.draft.data.withBranches e.owned).branch? = _
  cases e.draft.data <;> rfl

theorem Located.clausesOf_tops (parent next : SymbolId) (fs : List Located) :
    Branches.clausesOf (tops next fs)
      = (clauseEntries parent next fs).map fun x => (x.1.id, x.2) := by
  rw [tops_eq_topEntries parent, Branches.clausesOf, List.filterMap_map, clauseEntries,
    List.map_filterMap]
  apply List.filterMap_congr
  intro e _
  rw [Option.map_map]
  rfl

namespace Site.Reads

variable {l : Layout} {count : Nat} {s : Site} {d : Draft}

theorem of_ifStatement (h : s.Reads l count d) (hkind : d.data.kind = .ifStatement) :
    s.1.kind = .ifStatement ∧ d.data = .ifStatement {} := by
  cases h with
  | ifStatement kind hspan => exact ⟨kind, rfl⟩
  | _ => simp [SymbolData.kind] at hkind

theorem to_ifStatement (h : s.Reads l count d) (hkind : s.1.kind = .ifStatement) :
    d.data.kind = .ifStatement := by
  cases h with
  | ifStatement kind hspan => rfl
  | clause kind houter hspan => simp_all [Kind.branch?]
  | _ => simp_all

theorem of_branch? {branch : Branch} {outer : Span} (h : s.Reads l count d)
    (hbranch : s.1.kind.branch? = some branch) (houter : ifSpan? l s.2 = some outer) :
    (∃ fold, d.data = .selection branch fold) ∧
      d.name = branch.label ++ "_" ++ toString outer.start.index ++ "_" ++ toString count := by
  cases h with
  | clause kind hspan' hspan =>
      obtain rfl := Option.some.inj (kind.symm.trans hbranch)
      obtain rfl := Option.some.inj (hspan'.symm.trans houter)
      exact ⟨⟨_, rfl⟩, rfl⟩
  | _ => simp_all [Kind.branch?]

theorem to_branch? (h : s.Reads l count d) (hkind : d.data.kind = .selection) :
    ∃ outer, ifSpan? l s.2 = some outer := by
  cases h with
  | clause kind houter hspan => exact ⟨_, houter⟩
  | _ => simp [SymbolData.kind] at hkind

end Site.Reads

namespace SourceTree

open Located

variable {t : SourceTree} {e : Entry}

/-- **A scope owns what is found below its node.** -/
theorem owned_of_entry (he : e ∈ t.entries) (hscope : e.draft.data.kind.isScope = true) :
    e.owned = tops (e.id + 1) (e.site.below t.layout) ∧
      ∀ f ∈ entriesAll e.id (e.id + 1) (e.site.below t.layout), f ∈ t.entries :=
  t.kept_located (kept_ownBelow t.layout) SymbolId.root 1 e he hscope

/-- The clauses among the children of a symbol are those among the symbols that it owns. -/
theorem selections_of_entry (he : e ∈ t.entries) (hscope : e.draft.data.kind.isScope = true) :
    t.model.table.selections e.id = Branches.clausesOf e.owned := by
  obtain ⟨howned, hmem⟩ := owned_of_entry he hscope
  rw [SymbolTable.selections, (holds_entry he).children, List.filterMap_map,
    List.filterMap_filterMap, Branches.clausesOf]
  apply List.filterMap_congr
  intro x hx
  rw [howned, tops_eq_topEntries e.id] at hx
  obtain ⟨f, hf, rfl⟩ := List.mem_map.mp hx
  obtain ⟨hget, -⟩ := get?_model_of_entry (hmem f (mem_entriesAll_of_topEntries hf))
  show (t.model.table.get? f.id).bind _ = _
  rw [hget, Option.bind_some, f.branch?_symbol]
  rfl

/-- A symbol stands for a clause of the `if` statement at a site, which comes after a number of
other clauses, if the first token of the statement has number `index`. -/
structure IsClause (t : SourceTree) (table : SymbolTable) (site : Site) (index : Nat)
    (c : SymbolId × Branch) (x : Node × Nat) : Prop where
  origin : t.origin? c.1 = some (x.1, site.1 :: site.2)
  branch : x.1.kind.StandsFor c.2
  symbol : ∃ s fold stem, table.get? c.1 = some s ∧ s.data = .selection c.2 fold ∧
    c.2.Stem stem ∧ s.name = stem ++ "_" ++ toString index ++ "_" ++ toString x.2

/-- The clauses and the branches of the symbol `id` of an `if` statement at a site, if its first
token has number `index`. -/
structure Branching (t : SourceTree) (table : SymbolTable) (id : SymbolId) (site : Site)
    (index : Nat) (branches : Branches) : Prop where
  ascending : ((table.selections id).map (·.1)).Pairwise (· < ·)
  /-- The symbols of clauses are those of the clauses that have spans, in order. -/
  clauses : List.Forall₂ (t.IsClause table site index) (table.selections id)
    (spanned t.layout site.1.clauses.zipIdx)
  ifBranch : branches.ifBranch = (Branches.pick (table.selections id) .ifBranch).head?
  elseIfs : branches.elseIfs = Branches.pick (table.selections id) .elseIf
  elseBranch : branches.elseBranch = (Branches.pick (table.selections id) .elseBranch).head?
  regular : Kind.Regular (site.1.clauses.map (·.kind)) →
    branches.toList = (table.selections id).map (·.1)

theorem branches_of_isClause {table : SymbolTable} {site : Site} {index : Nat}
    {clauses : List (SymbolId × Branch)} {xs : List (Node × Nat)}
    (h : List.Forall₂ (t.IsClause table site index) clauses xs) :
    clauses.map (·.2) = (xs.map (·.1)).filterMap (·.kind.branch?) := by
  induction h with
  | nil => rfl
  | cons hx _ ih =>
      simp only [List.map_cons, List.filterMap_cons, Kind.branch?_eq_some_iff.mpr hx.branch, ih]

/-- The branches of the clauses that have symbols are among those of all clauses. -/
theorem sublist_of_isClause {table : SymbolTable} {site : Site} {index : Nat}
    {clauses : List (SymbolId × Branch)} (h : List.Forall₂ (t.IsClause table site index) clauses
      (spanned t.layout site.1.clauses.zipIdx)) :
    (clauses.map (·.2)).Sublist (site.1.clauses.filterMap (·.kind.branch?)) := by
  have hsub : ((spanned t.layout site.1.clauses.zipIdx).map (·.1)).Sublist
      (site.1.clauses.zipIdx.map (·.1)) := List.filter_sublist.map _
  rw [List.zipIdx_map_fst] at hsub
  rw [branches_of_isClause h]
  exact hsub.filterMap _

/-- The entries of the clauses of an `if` statement are entries of the file. -/
theorem isClause_of_clauseOf {site : Site} {outer : Span} {y : Entry × Branch} {x : Node × Nat}
    (houter : Site.ifSpan? t.layout (site.1 :: site.2) = some outer) (hy : y.1 ∈ t.entries)
    (h : ClauseOf t.layout (site.1 :: site.2) y x) :
    t.IsClause t.model.table site outer.start.index (y.1.id, y.2) x := by
  obtain ⟨hget, horigin⟩ := get?_model_of_entry hy
  obtain ⟨⟨fold, hdata⟩, hname⟩ :=
    (Site.reads_of_reading? h.reading).of_branch? h.branch houter
  have hsymbol : y.1.symbol.data = .selection y.2 fold := by
    show y.1.draft.data.withBranches y.1.owned = _
    rw [hdata]
    rfl
  exact ⟨by rw [horigin, h.site], Kind.branch?_eq_some_iff.mp h.branch, y.1.symbol, fold, _, hget,
    hsymbol, y.2.stem_label, hname⟩

/-- The clauses of the symbol of an `if` statement. -/
theorem isClause_of_entry (he : e ∈ t.entries) (hkind : e.draft.data.kind = .ifStatement) :
    List.Forall₂ (t.IsClause t.model.table e.site e.draft.span.start.index)
      (t.model.table.selections e.id) (spanned t.layout e.site.1.clauses.zipIdx) := by
  have hscope : e.draft.data.kind.isScope = true := by
    rw [hkind]
    rfl
  obtain ⟨count, hread⟩ := reading?_of_entry he
  obtain ⟨hnode, -⟩ := (Site.reads_of_reading? hread).of_ifStatement hkind
  have houter : Site.ifSpan? t.layout (e.site.1 :: e.site.2) = some e.draft.span := by
    cases haround : e.site.2 with
    | nil => simp [Site.reading?, haround] at hread
    | cons m rest => simp [Site.ifSpan?, hnode, (isOf_of_entry he).span]
  -- Nothing comes late below an `if` statement.
  have hbelow : e.site.below t.layout
      = Placed.locatedAll t.layout (e.site.1 :: e.site.2) false 0 e.site.1.children := by
    rw [Site.below, Placed.locatedAll_late (Finding.declaredType?_of_ifSpan? houter),
      List.append_nil]
  obtain ⟨howned, hmem⟩ := owned_of_entry he hscope
  rw [selections_of_entry he hscope, howned, clausesOf_tops e.id, List.forall₂_map_left_iff, hbelow,
    Node.clauses_eq]
  have hclauses := clauseEntries_locatedAll houter e.id e.site.1.children (e.id + 1) 0
  have hentries : ∀ y ∈ clauseEntries e.id (e.id + 1) (Placed.locatedAll t.layout
      (e.site.1 :: e.site.2) false 0 e.site.1.children), y.1 ∈ t.entries := by
    intro y hy
    obtain ⟨f, hf, hbranch⟩ := List.mem_filterMap.mp hy
    obtain ⟨branch, -, rfl⟩ := Option.map_eq_some_iff.mp hbranch
    rw [← hbelow] at hf
    exact hmem f (mem_entriesAll_of_topEntries hf)
  apply ((List.forall₂_and_left _ _).mpr ⟨hentries, hclauses⟩).imp
  intro y x h
  exact isClause_of_clauseOf houter h.1 h.2

/-- **The branches of an `if` statement are its clauses.** -/
theorem branching_of_entry (hwf : t.model.table.WellFormed) (he : e ∈ t.entries)
    (hkind : e.draft.data.kind = .ifStatement) {branches : Branches}
    (hdata : e.symbol.data = .ifStatement branches) :
    t.Branching t.model.table e.id e.site e.draft.span.start.index branches := by
  have hselections := selections_of_entry he (by rw [hkind]; rfl)
  obtain ⟨count, hreads⟩ := reads_of_entry he
  obtain ⟨-, hdraft⟩ := hreads.of_ifStatement hkind
  -- The statement starts without branches and notes those among the symbols that it owns.
  have hadopt : e.symbol.data = .ifStatement (Branches.addAll {} e.owned) := by
    show e.draft.data.withBranches e.owned = _
    rw [hdraft]
    rfl
  rw [hdata, Branches.addAll_eq, SymbolData.ifStatement.injEq] at hadopt
  obtain rfl : branches = Branches.ofClauses (t.model.table.selections e.id) := by
    rw [hadopt, hselections]
    simp
  have hclauses := isClause_of_entry he hkind
  have hids : ((t.model.table.selections e.id).map (·.1)).Sublist (t.model.table.children e.id) := by
    rw [hselections, (holds_entry he).children]
    exact Branches.clausesOf_sublist e.owned
  refine ⟨(hwf.ascending e.id).sublist hids, hclauses, rfl, rfl, rfl, ?_⟩
  intro hregular
  have hbranches := hregular.branches
  rw [List.filterMap_map] at hbranches
  exact Branches.toList_ofClauses hbranches (sublist_of_isClause hclauses)

/-- **Every clause is owned by an `if` statement.** -/
theorem ifStatement_of_selection (he : e ∈ t.entries) (hkind : e.draft.data.kind = .selection) :
    ∃ f ∈ t.entries, f.id = e.parent ∧ f.draft.data.kind = .ifStatement := by
  obtain ⟨count, hreads⟩ := reads_of_entry he
  obtain ⟨outer, houter⟩ := hreads.to_branch? hkind
  obtain ⟨n, m, rest, hsplit, hk, hspan⟩ := exists_of_ifSpan? houter
  have hopen : e.site.isHidden t.layout = false := by
    have hrecorded : e.site ∈ t.recorded := by
      rw [← t.entries_recorded]
      exact List.mem_map_of_mem he
    exact (mem_recorded.mp hrecorded).2.2
  -- The statement around the clause has a symbol, and no other scope is in between.
  have hrecorded : (n, m :: rest) ∈ t.recorded :=
    (ifStatement_mem_recorded (site_mem_nodes he) hopen hsplit hk).mpr (by simp [hspan])
  rw [← t.entries_recorded] at hrecorded
  obtain ⟨f, hf, hsite⟩ := List.mem_map.mp hrecorded
  obtain ⟨count', hreads'⟩ := reads_of_entry hf
  have hfkind : f.draft.data.kind = .ifStatement := hreads'.to_ifStatement (by rw [hsite, hk])
  have hscope := scopeOf_entry hf (by rw [hfkind]; rfl)
  rw [hsite] at hscope
  have hnearest := nearest_of_entry he
  rw [hsplit] at hnearest
  refine ⟨f, hf, ?_, hfkind⟩
  cases hnearest with
  | here h => exact origin?_injective h.1 hscope.1
  | outer hno _ => exact absurd hscope (hno f.id)

end SourceTree

/-- **The clauses of `if` statements have the symbols that the statements note as branches.** -/
theorem Analysis.ifStatements_branching (t : SourceTree) :
    (t.InBounds → ∃ a, Analysis.ofTree t = .ok a) ∧ ∀ a, Analysis.ofTree t = .ok a →
      (∀ id s branches, a.model.table.get? id = some s → s.data = .ifStatement branches →
        ∃ site, t.origin? id = some site ∧ site.1.kind = .ifStatement ∧
          t.layout.span? site.1 = some s.span ∧
          t.Branching a.model.table id site s.span.start.index branches) ∧
      ∀ id s, a.model.table.get? id = some s → s.kind = .selection →
        ∃ p owner, a.model.table.parent? id = some p ∧ id ∈ a.model.table.children p ∧
          a.model.table.get? p = some owner ∧ owner.kind = .ifStatement := by
  refine ⟨fun h => ⟨_, Analysis.ofTree_of_inBounds h⟩, ?_⟩
  intro a ha
  have hwf := wellFormed_table ha
  obtain ⟨-, rfl⟩ := Analysis.ofTree_ok_iff.mp ha
  constructor
  · intro id s branches hs hdata
    have hkind : s.kind = .ifStatement := by
      rw [Symbol.kind, hdata]
      rfl
    obtain ⟨e, he, rfl, rfl⟩ := SourceTree.entry_of_kind_ne hs (by simp [hkind])
    rw [e.kind_symbol] at hkind
    obtain ⟨-, horigin⟩ := SourceTree.get?_model_of_entry he
    obtain ⟨count, hreads⟩ := SourceTree.reads_of_entry he
    exact ⟨e.site, horigin, (hreads.of_ifStatement hkind).1, (SourceTree.isOf_of_entry he).span,
      SourceTree.branching_of_entry hwf he hkind hdata⟩
  · intro id s hs hkind
    obtain ⟨e, he, rfl, rfl⟩ := SourceTree.entry_of_kind_ne hs (by simp [hkind])
    rw [e.kind_symbol] at hkind
    obtain ⟨f, hf, hid, hfkind⟩ := SourceTree.ifStatement_of_selection he hkind
    have hparent := (SourceTree.holds_entry he).parent
    refine ⟨e.parent, f.symbol, hparent, (hwf.listed _ _).mpr hparent, ?_, ?_⟩
    · rw [← hid]
      exact (SourceTree.get?_model_of_entry hf).1
    · rw [f.kind_symbol, hfkind]

/-- An `if` statement whose second clause has nothing but white space. -/
def SourceTree.skipping : SourceTree :=
  .ofItems ⟨0⟩ {}
    [.node Kind.ifStatement.tag
      [.node Kind.ifClause.tag [.node Kind.identExpr.tag [.token Kind.ident.tag "x"]],
       .node Kind.elseIfClause.tag [.token Kind.whitespace.tag " "],
       .node Kind.elseClause.tag [.node Kind.identExpr.tag [.token Kind.ident.tag "y"]]]]

theorem Analysis.ifStatements_branching_skipping :
    SourceTree.skipping.InBounds ∧ ∃ a s site, Analysis.ofTree .skipping = .ok a ∧
      a.model.table.get? 1 = some s ∧ s.data = .ifStatement ⟨some 2, [], some 4⟩ ∧
      SourceTree.skipping.Branching a.model.table 1 site s.span.start.index
        ⟨some 2, [], some 4⟩ ∧
      (a.model.table.get? 4).map (·.name) = some "else_0_2" := by
  have hbounds : SourceTree.skipping.InBounds := ⟨by decide +kernel, by decide +kernel⟩
  have htable : ((Analysis.ofTree .skipping).toOption.map fun a =>
      ((a.model.table.get? 1).map (·.data), (a.model.table.get? 4).map (·.name)))
        = some (some (.ifStatement ⟨some 2, [], some 4⟩), some "else_0_2") := by decide +kernel
  obtain ⟨hok, hbranching⟩ := ifStatements_branching .skipping
  obtain ⟨a, ha⟩ := hok hbounds
  rw [ha] at htable
  obtain ⟨hdata, hname⟩ := Prod.mk.inj (Option.some.inj htable)
  obtain ⟨s, hs, hdata⟩ := Option.map_eq_some_iff.mp hdata
  obtain ⟨site, -, -, -, h⟩ := (hbranching a ha).1 1 s _ hs hdata
  exact ⟨hbounds, a, s, site, ha, hs, hdata, h, hname⟩

end LpcSymbols
