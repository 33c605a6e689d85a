/-
Findings that are alike become symbols that are alike.

Two rows of findings that are alike are recorded in the same way, only that the
recorder of the second may already hold more symbols.  So the numbers of the second
are those of the first, moved on by a constant: the number of a symbol, of its parent,
of its children and of its branches, and the numbers in the imports.  The symbol of
the file keeps its number.  What is counted is the same for both.
-/
import LpcSymbols.Proofs.Likeness
import LpcSymbols.Proofs.Record

namespace LpcSymbols

/-- Symbols that differ in places and numbers only. -/
structure Symbol.Alike (L : Likeness) (s s' : Symbol) : Prop where
  draft : s.toDraft.Alike L s'.toDraft
  id : s'.id = s.id.shift L.ids
  parent : s'.parent = s.parent.map (SymbolId.shift L.ids)
  children : s'.children = s.children.map (SymbolId.shift L.ids)

/-- The import of a symbol `k` places further back. -/
def Import.shift (k : Nat) (i : Import) : Import := { i with symbol := i.symbol.shift k }

theorem Import.shift_zero (i : Import) : i.shift 0 = i := by
  rw [Import.shift, SymbolId.shift_zero]

/-- Owned symbols that differ in places and numbers only. -/
def OwnedAlike (L : Likeness) (x y : SymbolId × Draft) : Prop :=
  y.1 = x.1.shift L.ids ∧ x.2.Alike L y.2

/-- Entries that differ in places and numbers only. -/
structure Entry.Alike (L : Likeness) (e e' : Entry) : Prop where
  draft : e.draft.Alike L e'.draft
  id : e'.id = e.id.shift L.ids
  parent : e'.parent = e.parent.shift L.ids
  owned : List.Forall₂ (OwnedAlike L) e.owned e'.owned

variable {L : Likeness} {fs gs : List Located}

namespace Located.Alike

theorem symbolCountAll (h : Alike L fs gs) : symbolCountAll fs = symbolCountAll gs := by
  induction h with
  | nil => rfl
  | leaf _ _ ih => simp only [Located.symbolCountAll, symbolCount, ih]
  | scope _ _ _ ihbelow ihrest => simp only [Located.symbolCountAll, symbolCount, ihbelow, ihrest]
  | omitted _ ih => simp only [Located.symbolCountAll, symbolCount, ih]

theorem tallyAll (h : Alike L fs gs) (depth : Nat) :
    Located.tallyAll depth fs = Located.tallyAll depth gs := by
  induction h generalizing depth with
  | nil => rfl
  | leaf _ _ ih => simp only [Located.tallyAll, tally, ih]
  | scope _ _ _ ihbelow ihrest => simp only [Located.tallyAll, tally, ihbelow, ihrest]
  | omitted _ ih => simp only [Located.tallyAll, tally, ih]

theorem tops (h : Alike L fs gs) {next next' : Nat} (hpos : 0 < next)
    (hnext : next' = next + L.ids) :
    List.Forall₂ (OwnedAlike L) (Located.tops next fs) (Located.tops next' gs) := by
  induction h generalizing next next' with
  | nil => exact .nil
  | leaf hd _ ih =>
      have hid : next' = SymbolId.shift L.ids next := by rw [SymbolId.shift_of_pos hpos, hnext]
      simp only [Located.tops, top, symbolCount, List.cons_append, List.nil_append]
      exact .cons ⟨hid, hd⟩ (ih (by omega) (by omega))
  | scope hd hbelow _ _ ih =>
      have hid : next' = SymbolId.shift L.ids next := by rw [SymbolId.shift_of_pos hpos, hnext]
      simp only [Located.tops, top, symbolCount, hbelow.symbolCountAll, List.cons_append,
        List.nil_append]
      exact .cons ⟨hid, hd⟩ (ih (by omega) (by omega))
  | omitted _ ih => exact ih hpos hnext

/-- The entries are alike one by one. -/
theorem entriesAll (h : Alike L fs gs) {parent parent' : SymbolId} {next next' : Nat}
    (hparent : parent' = parent.shift L.ids) (hpos : 0 < next) (hnext : next' = next + L.ids) :
    List.Forall₂ (Entry.Alike L) (Located.entriesAll parent next fs)
      (Located.entriesAll parent' next' gs) := by
  induction h generalizing parent parent' next next' with
  | nil => exact .nil
  | leaf hd _ ih =>
      have hid : next' = SymbolId.shift L.ids next := by rw [SymbolId.shift_of_pos hpos, hnext]
      simp only [Located.entriesAll, entries, symbolCount, List.cons_append, List.nil_append]
      exact .cons ⟨hd, hid, hparent, .nil⟩ (ih hparent (by omega) (by omega))
  | scope hd hbelow _ ihbelow ihrest =>
      have hid : next' = SymbolId.shift L.ids next := by rw [SymbolId.shift_of_pos hpos, hnext]
      have howned := hbelow.tops (Nat.succ_pos next) (show next' + 1 = next + 1 + L.ids by omega)
      have hinner := ihbelow hid (Nat.succ_pos next) (show next' + 1 = next + 1 + L.ids by omega)
      simp only [Located.entriesAll, entries, symbolCount, hbelow.symbolCountAll, List.cons_append]
      exact .cons ⟨hd, hid, hparent, howned⟩
        (append_related hinner (ihrest hparent (by omega) (by omega)))
  | omitted _ ih => exact ih hparent hpos hnext

end Located.Alike

/-! ### Symbols of entries -/

theorem Branches.shift_add (k : Nat) (b : Branches) (branch : Branch) (id : SymbolId) :
    (b.add branch id).shift k = (b.shift k).add branch (id.shift k) := by
  cases branch with
  | elseIf => simp [Branches.add, Branches.shift]
  | ifBranch => cases hb : b.ifBranch <;> simp [Branches.add, Branches.shift, hb]
  | elseBranch => cases hb : b.elseBranch <;> simp [Branches.add, Branches.shift, hb]

theorem Branches.shift_addAll {owned owned' : List (SymbolId × Draft)}
    (h : List.Forall₂ (OwnedAlike L) owned owned') (b : Branches) :
    (b.addAll owned).shift L.ids = (b.shift L.ids).addAll owned' := by
  induction h generalizing b with
  | nil => rfl
  | @cons x y _ _ hxy _ ih =>
      obtain ⟨id, d⟩ := x
      obtain ⟨id', d'⟩ := y
      obtain ⟨rfl, hd⟩ := hxy
      have hdata : d'.data = (d.data.shift L.ids).refold (Fold.ofSpan d'.span) := hd.data
      cases hkind : d.data <;> rw [hkind] at hdata <;>
        simp only [Branches.addAll, hkind, hdata, SymbolData.shift, SymbolData.refold, ih,
          Branches.shift_add]

theorem withBranches_alike {owned owned' : List (SymbolId × Draft)}
    (h : List.Forall₂ (OwnedAlike L) owned owned') (data : SymbolData) (f : Fold) :
    ((data.shift L.ids).refold f).withBranches owned'
      = ((data.withBranches owned).shift L.ids).refold f := by
  cases data <;>
    simp only [SymbolData.shift, SymbolData.refold, SymbolData.withBranches, Branches.shift_addAll h]

theorem namesAlike_withBranches {d d' : Draft} (h : d.NamesAlike L d')
    (owned : List (SymbolId × Draft)) (data : SymbolData) :
    Draft.NamesAlike L { d with data := d.data.withBranches owned } { d' with data } := by
  unfold Draft.NamesAlike at h ⊢
  cases hkind : d.data with
  | ifStatement branches =>
      simp only [hkind] at h
      obtain ⟨stem, hstem, hnames⟩ := h
      cases hstem
      exact ⟨"if", .ifStatement _, hnames⟩
  | _ => simpa only [hkind, SymbolData.withBranches] using h

/-- Alike entries have alike symbols. -/
theorem Entry.Alike.symbol {e e' : Entry} (h : e.Alike L e') : e.symbol.Alike L e'.symbol := by
  have hids : e'.owned.map (·.1) = (e.owned.map (·.1)).map (SymbolId.shift L.ids) := by
    rw [List.map_map]
    exact (map_related h.owned fun _ _ hxy => hxy.1.symm).symm
  refine ⟨⟨?_, ?_, h.draft.kind, h.draft.range, h.draft.span, h.draft.nameRange⟩, h.id, ?_, ?_⟩
  · show e'.draft.data.withBranches e'.owned = _
    rw [h.draft.data]
    exact withBranches_alike h.owned _ _
  · exact namesAlike_withBranches h.draft.name e.owned _
  · exact congrArg some h.parent
  · simpa [Entry.symbol, Symbol.adopt, Symbol.ofDraft] using hids

theorem Import.ofData?_alike {e e' : Entry} (h : e.Alike L e') :
    Import.ofData? e'.draft.data e'.id = (Import.ofData? e.draft.data e.id).map (Import.shift L.ids) := by
  have hdata := h.draft.data
  rw [h.id]
  cases hkind : e.draft.data <;> rw [hkind] at hdata <;>
    simp only [hdata, SymbolData.shift, SymbolData.refold] <;> rfl

/-- Alike entries have the same imports, up to the numbers of their symbols. -/
theorem Entry.imports_alike {es es' : List Entry} (h : List.Forall₂ (Entry.Alike L) es es') :
    Entry.imports es' = (Entry.imports es).map (Import.shift L.ids) := by
  induction h with
  | nil => rfl
  | @cons e e' es es' he _ ih =>
      have hhead := Import.ofData?_alike he
      simp only [Entry.imports, List.filterMap_cons, hhead] at ih ⊢
      cases Import.ofData? e.draft.data e.id with
      | none => exact ih
      | some i => rw [Option.map_some, List.map_cons, ih]

theorem Entry.symbols_alike {es es' : List Entry} (h : List.Forall₂ (Entry.Alike L) es es') :
    List.Forall₂ (Symbol.Alike L) (es.map Entry.symbol) (es'.map Entry.symbol) := by
  induction h with
  | nil => exact .nil
  | cons he _ ih => exact .cons he.symbol ih

end LpcSymbols
