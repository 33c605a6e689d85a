/-
Folds from top to bottom.

Folds are sorted by their start, and the sort is stable: folds that start at one place keep the
order of their symbols (`stable_mergeSort`).  So the order of folds is that of their symbols, sorted
by three numbers, and each fold can be traced to its symbol.

A symbol is recorded after the symbols around it, and its first token does not come before theirs.
Lines and columns keep the order of offsets, so a fold never comes before one that is around it,
even if both start at the same token.  All that can go wrong is the arithmetic: lines are signed
words, but in a short text they are too small for that to be seen.
-/
import LpcSymbols.Proofs.Selections

namespace LpcSymbols

/-! ### Stable sorting -/

section Stable

variable {α : Type} {a b : α} {l : List α}

theorem pair_sublist_or (ha : a ∈ l) (hb : b ∈ l) (hne : a ≠ b) :
    [a, b].Sublist l ∨ [b, a].Sublist l := by
  obtain ⟨before, behind, rfl⟩ := List.append_of_mem ha
  rcases List.mem_append.mp hb with hb | hb
  · exact Or.inr ((List.singleton_sublist.mpr hb).append
      (List.singleton_sublist.mpr List.mem_cons_self))
  · have hb : b ∈ behind := (List.mem_cons.mp hb).resolve_left hne.symm
    exact Or.inl (((List.singleton_sublist.mpr hb).cons_cons a).trans (List.sublist_append_right _ _))

theorem pair_sublist_asymm (h : l.Nodup) (hab : [a, b].Sublist l) : ¬ [b, a].Sublist l := by
  induction l with
  | nil => simp at hab
  | cons x l ih =>
      obtain ⟨hx, hl⟩ := List.nodup_cons.mp h
      intro hba
      rcases List.sublist_cons_iff.mp hab with hrest | ⟨_, heq, hb⟩
      · rcases List.sublist_cons_iff.mp hba with hback | ⟨_, heq, -⟩
        · exact ih hl hrest hback
        · obtain ⟨rfl, -⟩ := List.cons.inj heq
          have hmem : b ∈ [a, b] := by simp
          exact hx (hrest.subset hmem)
      · obtain ⟨rfl, rfl⟩ := List.cons.inj heq
        rcases List.sublist_cons_iff.mp hba with hback | ⟨_, heq, -⟩
        · have hmem : a ∈ [b, a] := by simp
          exact hx (hback.subset hmem)
        · obtain ⟨rfl, -⟩ := List.cons.inj heq
          exact hx (List.singleton_sublist.mp hb)

variable {key : α → Nat} {le : α → α → Bool}

/-- Of two members of an ascending row, the lesser one comes first. -/
theorem pair_sublist_of_lt (h : l.Pairwise fun a b => key a < key b) (ha : a ∈ l) (hb : b ∈ l)
    (hab : key a < key b) : [a, b].Sublist l := by
  have hne : a ≠ b := by
    rintro rfl
    exact Nat.lt_irrefl _ hab
  refine (pair_sublist_or ha hb hne).resolve_right ?_
  intro hsub
  exact Nat.lt_asymm hab (List.pairwise_iff_forall_sublist.mp h hsub)

/-- **An ascending row that is sorted by something else is still ascending wherever the sort does
not decide.** -/
theorem stable_mergeSort (htrans : ∀ a b c, le a b = true → le b c = true → le a c = true)
    (htotal : ∀ a b, (le a b || le b a) = true) (h : l.Pairwise fun a b => key a < key b) :
    (l.mergeSort le).Pairwise fun a b => le a b = true ∧ (le b a = true → key a < key b) := by
  have hnodup : l.Nodup := h.imp fun hab heq => Nat.ne_of_lt hab (congrArg key heq)
  have hsorted := (List.mergeSort_perm l le).nodup_iff.mpr hnodup
  rw [List.pairwise_iff_forall_sublist]
  intro a b hab
  refine ⟨List.pairwise_iff_forall_sublist.mp (List.pairwise_mergeSort htrans htotal l) hab, ?_⟩
  intro hba
  have ha : a ∈ l := List.mem_mergeSort.mp (hab.subset List.mem_cons_self)
  have hb : b ∈ l := List.mem_mergeSort.mp (hab.subset (List.mem_cons_of_mem a List.mem_cons_self))
  have hne : a ≠ b := by
    have hpair := hsorted.sublist hab
    simpa using hpair
  rcases pair_sublist_or ha hb hne with hsub | hsub
  · exact List.pairwise_iff_forall_sublist.mp h hsub
  · exact absurd (List.pair_sublist_mergeSort htrans htotal hba hsub)
      (pair_sublist_asymm hsorted hab)

end Stable

/-! ### Folds and their symbols -/

/-- Symbols of the kind have a fold. -/
def SymbolKind.isFolded : SymbolKind → Bool
  | .method | .selection | .inlineClosure => true
  | _ => false

theorem SymbolData.isSome_fold? (data : SymbolData) : data.fold?.isSome = data.kind.isFolded := by
  cases data <;> rfl

/-- The fold of a symbol goes from the line on which the symbol starts to the line before the one
on which it stops.  Lines of folds count from zero, those of symbols from one. -/
structure Fold.Hides (f : Fold) (s : Symbol) : Prop where
  data : s.data.fold? = some f
  startLine : f.startLine + 1 = s.span.start.line
  startCol : f.startCol = s.span.start.column
  endLine : f.endLine + 1 + 1 = s.span.stop.line
  endCol : f.endCol = s.span.stop.column
  isCollapsible : f.isCollapsible = true ↔ s.span.start.line + 2 ≤ s.span.stop.line

/-- The first fold comes first: it starts before the second, or both start at one place, and its
symbol has the smaller number. -/
def Fold.Precedes (x y : Fold × Symbol) : Prop :=
  x.1.startLine < y.1.startLine ∨ x.1.startLine = y.1.startLine ∧
    (x.1.startCol < y.1.startCol ∨ x.1.startCol = y.1.startCol ∧ x.2.id < y.2.id)

/-- The folds of a model with their symbols, in order. -/
structure FileModel.FoldRows (m : FileModel) (rows : List (Fold × Symbol)) : Prop where
  folds : m.folds = rows.map (·.1)
  symbols : (rows.map (·.2)).Perm (m.table.toList.filter (·.kind.isFolded))
  hides : ∀ x ∈ rows, x.1.Hides x.2
  ordered : rows.Pairwise Fold.Precedes
  /-- Folds come before the folds inside them. -/
  nested : ∀ x ∈ rows, ∀ y ∈ rows, x.2 ∈ m.table.ancestors y.2.id → [x, y].Sublist rows

namespace Fold

theorem startsBefore_iff {a b : Fold} : a.startsBefore b = true ↔
    a.startLine < b.startLine ∨ a.startLine = b.startLine ∧ a.startCol ≤ b.startCol := by
  simp [startsBefore]

theorem startsBefore_trans (a b c : Fold) (hab : a.startsBefore b = true)
    (hbc : b.startsBefore c = true) : a.startsBefore c = true := by
  rw [startsBefore_iff] at *
  omega

theorem startsBefore_total (a b : Fold) : (a.startsBefore b || b.startsBefore a) = true := by
  rw [Bool.or_eq_true, startsBefore_iff, startsBefore_iff]
  omega

/-- In a short text, the lines of spans are what they seem. -/
theorem hides_ofSpan {s : Symbol} (hfold : s.data.fold? = some (.ofSpan s.span))
    (hstart : s.span.start.line < 2147483648) (hstop : s.span.stop.line < 2147483648) :
    (Fold.ofSpan s.span).Hides s := by
  have h1 := Word.toSigned_of_lt hstart
  have h2 := Word.toSigned_of_lt hstop
  refine ⟨hfold, ?_, rfl, ?_, rfl, ?_⟩
  · simp only [ofSpan, h1]
    omega
  · simp only [ofSpan, h2]
    omega
  · simp only [isCollapsible, ofSpan, h1, h2, decide_eq_true_eq]
    omega

end Fold

namespace FileModel

/-- The folds of a model with their symbols, in the order of the symbols. -/
def foldsBySymbol (m : FileModel) : List (Fold × Symbol) :=
  m.table.toList.filterMap fun s => s.data.fold?.map (·, s)

/-- The folds of a model with their symbols, in the order of the folds. -/
def foldRows (m : FileModel) : List (Fold × Symbol) :=
  m.foldsBySymbol.mergeSort fun x y => x.1.startsBefore y.1

variable {m : FileModel} {x y : Fold × Symbol}

theorem mem_foldsBySymbol :
    x ∈ m.foldsBySymbol ↔ x.2 ∈ m.table.toList ∧ x.2.data.fold? = some x.1 := by
  obtain ⟨f, s⟩ := x
  simp only [foldsBySymbol, List.mem_filterMap, Option.map_eq_some_iff, Prod.mk.injEq]
  constructor
  · rintro ⟨s, hs, f, hf, rfl, rfl⟩
    exact ⟨hs, hf⟩
  · rintro ⟨hs, hf⟩
    exact ⟨s, hs, f, hf, rfl, rfl⟩

theorem folds_eq_rows (m : FileModel) : m.folds = m.foldRows.map (·.1) := by
  rw [foldRows, List.map_mergeSort (s := Fold.startsBefore) fun _ _ _ _ => rfl, foldsBySymbol,
    List.map_filterMap]
  simp only [Option.map_map]
  rw [folds]
  simp [Function.comp_def]

theorem symbols_foldsBySymbol (m : FileModel) :
    m.foldsBySymbol.map (·.2) = m.table.toList.filter (·.kind.isFolded) := by
  rw [foldsBySymbol]
  induction m.table.toList with
  | nil => rfl
  | cons s symbols ih =>
      have hsome : s.data.fold?.isSome = s.kind.isFolded := s.data.isSome_fold?
      cases hfold : s.data.fold? with
      | none =>
          rw [hfold] at hsome
          simp [hfold, ← hsome, ih]
      | some f =>
          rw [hfold] at hsome
          simp [hfold, ← hsome, ih]

theorem ascending_foldsBySymbol (hwf : m.table.WellFormed) :
    m.foldsBySymbol.Pairwise fun x y => x.2.id < y.2.id := by
  have hids := hwf.filter_ascending (·.kind.isFolded)
  rw [← symbols_foldsBySymbol, List.map_map, List.pairwise_map] at hids
  exact hids

/-- Folds are sorted by line, by column and by the number of the symbol. -/
theorem ordered_foldRows (hwf : m.table.WellFormed) : m.foldRows.Pairwise Fold.Precedes := by
  have hsorted : m.foldRows.Pairwise fun x y => x.1.startsBefore y.1 = true ∧
      (y.1.startsBefore x.1 = true → x.2.id < y.2.id) :=
    stable_mergeSort (fun x y z => Fold.startsBefore_trans x.1 y.1 z.1)
      (fun x y => Fold.startsBefore_total x.1 y.1) (ascending_foldsBySymbol hwf)
  refine hsorted.imp ?_
  rintro x y ⟨hle, hback⟩
  rw [Fold.startsBefore_iff] at hle hback
  refine hle.imp_right ?_
  rintro ⟨hline, hcol⟩
  refine ⟨hline, ?_⟩
  rcases Nat.eq_or_lt_of_le hcol with heq | hlt
  · exact Or.inr ⟨heq, hback (Or.inr ⟨hline.symm, Nat.le_of_eq heq.symm⟩)⟩
  · exact Or.inl hlt

/-- A fold comes before another one that starts no earlier, if its symbol has the smaller number. -/
theorem pair_sublist_foldRows (hwf : m.table.WellFormed) (hx : x ∈ m.foldsBySymbol)
    (hy : y ∈ m.foldsBySymbol) (hstart : x.1.startsBefore y.1 = true) (hlt : x.2.id < y.2.id) :
    [x, y].Sublist m.foldRows :=
  List.pair_sublist_mergeSort (fun x y z => Fold.startsBefore_trans x.1 y.1 z.1)
    (fun x y => Fold.startsBefore_total x.1 y.1) hstart
    (pair_sublist_of_lt (ascending_foldsBySymbol hwf) hx hy hlt)

end FileModel

/-! ### Folds inside folds -/

namespace SourceTree

variable {t : SourceTree}

/-- A node does not start before the nodes around it, by line and column. -/
theorem span?_start_upTo {n m : Node} (h : n.Inside m) {outer inner : Span}
    (hm : t.layout.span? m = some outer) (hn : t.layout.span? n = some inner) :
    outer.start.line < inner.start.line ∨
      outer.start.line = inner.start.line ∧ outer.start.column ≤ inner.start.column := by
  rw [Layout.span?_eq] at hm hn
  obtain ⟨_, hfirst, hm⟩ := Option.bind_eq_some_iff.mp hm
  obtain ⟨_, -, rfl⟩ := Option.map_eq_some_iff.mp hm
  obtain ⟨_, hfirst', hn⟩ := Option.bind_eq_some_iff.mp hn
  obtain ⟨_, -, rfl⟩ := Option.map_eq_some_iff.mp hn
  obtain ⟨u, hu, rfl⟩ := Option.map_eq_some_iff.mp hfirst
  obtain ⟨v, hv, rfl⟩ := Option.map_eq_some_iff.mp hfirst'
  have hle := Layout.first?_start_le t.covers_leaves h.first hu hv
  have hplaces := LineMap.lineCol_upTo t.text hle
  exact hplaces.imp Nat.succ_lt_succ fun h => ⟨congrArg Nat.succ h.1, h.2⟩

/-- The owners of a symbol, but the file, were built from nodes around its own. -/
theorem encloses_of_ancestor (hwf : t.model.table.WellFormed) {x : Symbol} {j : SymbolId}
    (hmem : x ∈ t.model.table.toList) (hroot : x.id ≠ SymbolId.root)
    (hx : x ∈ t.model.table.ancestors j) : x.id < j ∧ t.Encloses x.id j := by
  obtain ⟨hbelow, hne⟩ := (hwf.mem_ancestors hmem).mp hx
  have hdescends := hwf.mem_descendants.mp hbelow
  refine ⟨Nat.lt_of_le_of_ne (hdescends.le hwf) (Ne.symm hne), ?_⟩
  obtain ⟨c, hc, hcj⟩ := ((hwf.descends_iff_children x.id j).mp hdescends).resolve_left hne
  have hparent := (hwf.listed x.id c).mp hc
  have hcroot : c ≠ SymbolId.root := by
    rintro rfl
    exact absurd (hwf.parent_lt hparent) (Nat.not_lt_zero _)
  exact (encloses_of_parent? hparent hroot hcroot).descends hwf hcj

/-- A symbol with a fold comes from an entry, and its fold is that of its span. -/
theorem entry_of_fold {x : Fold × Symbol} (hx : x ∈ t.model.foldsBySymbol) :
    ∃ e ∈ t.entries, e.symbol = x.2 ∧ x.1 = .ofSpan e.draft.span := by
  obtain ⟨hmem, hfold⟩ := FileModel.mem_foldsBySymbol.mp hx
  rcases fileSymbol_or_entry hmem with hfile | ⟨e, he, hsymbol⟩
  · rw [hfile] at hfold
    exact absurd hfold.symm (Option.some_ne_none _)
  · refine ⟨e, he, hsymbol, (isOf_of_entry he).fold x.1 ?_⟩
    rw [← hfold, ← hsymbol]
    exact (SymbolData.fold?_withBranches e.owned e.draft.data).symm

/-- In a short text every fold is what its symbol's span says. -/
theorem hides_of_fold (hsize : t.size < 2147483647) {x : Fold × Symbol}
    (hx : x ∈ t.model.foldsBySymbol) : x.1.Hides x.2 := by
  obtain ⟨e, he, hsymbol, hfold⟩ := entry_of_fold hx
  have hdata := (FileModel.mem_foldsBySymbol.mp hx).2
  obtain ⟨hstart, hstop⟩ := t.span_lines (isOf_of_entry he).span
  have hspan : x.2.span = e.draft.span := by
    rw [← hsymbol]
    rfl
  rw [hfold, ← hspan] at hdata ⊢
  rw [← hspan] at hstart hstop
  exact Fold.hides_ofSpan hdata (by omega) (by omega)

/-- **A fold never starts before the folds around it, and its symbol has a larger number.** -/
theorem startsBefore_of_ancestor (hwf : t.model.table.WellFormed) (hsize : t.size < 2147483647)
    {x y : Fold × Symbol} (hx : x ∈ t.model.foldsBySymbol) (hy : y ∈ t.model.foldsBySymbol)
    (howner : x.2 ∈ t.model.table.ancestors y.2.id) :
    x.1.startsBefore y.1 = true ∧ x.2.id < y.2.id := by
  obtain ⟨e, he, hesymbol, -⟩ := entry_of_fold hx
  obtain ⟨f, hf, hfsymbol, -⟩ := entry_of_fold hy
  have hhx := hides_of_fold hsize hx
  have hhy := hides_of_fold hsize hy
  have hmem := (FileModel.mem_foldsBySymbol.mp hx).1
  rw [← hesymbol] at hmem howner hhx ⊢
  rw [← hfsymbol] at howner hhy ⊢
  have hroot : e.symbol.id ≠ SymbolId.root := by
    obtain ⟨i, hi⟩ := List.getElem?_of_mem he
    exact Nat.ne_of_gt (Nat.lt_of_lt_of_eq (Nat.succ_pos i) (getElem?_entries hi).symm)
  obtain ⟨hlt, s, r, hs, hr, hout⟩ := encloses_of_ancestor hwf hmem hroot howner
  obtain rfl := Option.some.inj ((get?_model_of_entry he).2.symm.trans hs)
  obtain rfl := Option.some.inj ((get?_model_of_entry hf).2.symm.trans hr)
  have hstart := span?_start_upTo (t.inside_of_outward (site_mem_nodes hf) hout)
    (isOf_of_entry he).span (isOf_of_entry hf).span
  have hlines : x.1.startLine + 1 = e.draft.span.start.line ∧
      y.1.startLine + 1 = f.draft.span.start.line := ⟨hhx.startLine, hhy.startLine⟩
  have hcols : x.1.startCol = e.draft.span.start.column ∧
      y.1.startCol = f.draft.span.start.column := ⟨hhx.startCol, hhy.startCol⟩
  refine ⟨Fold.startsBefore_iff.mpr ?_, hlt⟩
  omega

end SourceTree

/-- **Folds are sorted by their start and, where that is the same, by the number of their symbol;
no fold comes before one that is around it.** -/
theorem Analysis.folds_ordered (t : SourceTree) :
    (t.InBounds → ∃ a, Analysis.ofTree t = .ok a) ∧
      ∀ a, Analysis.ofTree t = .ok a → t.size < 2147483647 → ∃ rows, a.model.FoldRows rows := by
  refine ⟨fun h => ⟨_, Analysis.ofTree_of_inBounds h⟩, ?_⟩
  intro a ha hsize
  have hwf := wellFormed_table ha
  obtain ⟨-, rfl⟩ := Analysis.ofTree_ok_iff.mp ha
  have hmem : ∀ x, x ∈ t.model.foldRows ↔ x ∈ t.model.foldsBySymbol := fun x => List.mem_mergeSort
  refine ⟨t.model.foldRows, t.model.folds_eq_rows, ?_, ?_, FileModel.ordered_foldRows hwf, ?_⟩
  · rw [← FileModel.symbols_foldsBySymbol]
    exact (List.mergeSort_perm _ _).map _
  · intro x hx
    exact SourceTree.hides_of_fold hsize ((hmem x).mp hx)
  · intro x hx y hy howner
    rw [hmem] at hx hy
    obtain ⟨hstart, hlt⟩ := SourceTree.startsBefore_of_ancestor hwf hsize hx hy howner
    exact FileModel.pair_sublist_foldRows hwf hx hy hstart hlt

/-- A declaration with a closure behind its declarator, and in the declarator a closure that goes
over two lines and starts with another one. -/
def SourceTree.coinciding : SourceTree :=
  .ofItems ⟨0⟩ {}
    [.node Kind.variableDecl.tag
      [.node Kind.primitiveType.tag [.token Kind.typeKw.tag "int"], .token Kind.whitespace.tag " ",
       .node Kind.variableDeclarator.tag
        [.node Kind.name.tag [.token Kind.ident.tag "x"],
         .node Kind.inlineClosure.tag
          [.node Kind.inlineClosure.tag [.token Kind.closureOpen.tag "(:"],
           .token Kind.whitespace.tag "\n\n", .token Kind.closureClose.tag ":)"]],
       .node Kind.inlineClosure.tag [.token Kind.closureOpen.tag "(:"]]]

theorem Analysis.folds_ordered_coinciding :
    SourceTree.coinciding.InBounds ∧ ∃ a rows x y, Analysis.ofTree .coinciding = .ok a ∧
      a.model.FoldRows rows ∧ (x.2.id, y.2.id) = (3, 4) ∧
      x.2 ∈ a.model.table.ancestors y.2.id ∧ [x, y].Sublist rows ∧
      (x.1, y.1) = (⟨0, 5, 1, 0⟩, ⟨0, 5, -1, 5⟩) := by
  have hbounds : SourceTree.coinciding.InBounds := ⟨by decide +kernel, by decide +kernel⟩
  have hsymbols : ((Analysis.ofTree .coinciding).toOption.map fun a =>
      (a.model.table.toList.filter (·.kind.isFolded)).map fun s =>
        (s.id, s.data.fold?, decide (s ∈ a.model.table.ancestors 4))) = some
          [(1, some ⟨2, 2, 1, 2⟩, false), (3, some ⟨0, 5, 1, 0⟩, true),
           (4, some ⟨0, 5, -1, 5⟩, false)] := by decide +kernel
  obtain ⟨hok, hall⟩ := folds_ordered .coinciding
  obtain ⟨a, ha⟩ := hok hbounds
  obtain ⟨rows, hrows⟩ := hall a ha hbounds.size
  rw [ha] at hsymbols
  replace hsymbols := Option.some.inj hsymbols
  beta_reduce at hsymbols
  have hrow : ∀ id f owner, (id, some f, owner) ∈ (a.model.table.toList.filter
      (·.kind.isFolded)).map (fun s => (s.id, s.data.fold?, decide (s ∈ a.model.table.ancestors 4)))
        → ∃ x ∈ rows, x.2.id = id ∧ x.1 = f ∧
          decide (x.2 ∈ a.model.table.ancestors 4) = owner := by
    intro id f owner hmem
    obtain ⟨s, hs, heq⟩ := List.mem_map.mp hmem
    obtain ⟨x, hx, rfl⟩ := List.mem_map.mp (hrows.symbols.mem_iff.mpr hs)
    simp only [Prod.mk.injEq] at heq
    have hfold := (hrows.hides x hx).data
    exact ⟨x, hx, heq.1, Option.some.inj (hfold.symm.trans heq.2.1), heq.2.2⟩
  rw [hsymbols] at hrow
  obtain ⟨x, hx, hxid, hxfold, hxowner⟩ := hrow 3 ⟨0, 5, 1, 0⟩ true (by simp)
  obtain ⟨y, hy, hyid, hyfold, -⟩ := hrow 4 ⟨0, 5, -1, 5⟩ false (by simp)
  have howner : x.2 ∈ a.model.table.ancestors y.2.id := by
    rw [hyid]
    exact of_decide_eq_true hxowner
  exact ⟨hbounds, a, rows, x, y, ha, hrows, by rw [hxid, hyid], howner,
    hrows.nested x hx y hy howner, by rw [hxfold, hyfold]⟩

end LpcSymbols
