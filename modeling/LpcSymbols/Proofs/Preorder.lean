/-
Symbols are numbered in pre-order.

A table does not ask for this: a symbol may be created below any scope, however many
symbols have been created elsewhere in the meantime.  A recorder never does that.  It
records what is inside a scope before anything that comes after the scope, so a symbol
and all symbols below it have consecutive numbers.

The induction is over findings.  A finding whose next number is `next` takes as many
numbers as it has symbols, and the symbols below `next` are the ones with these numbers
(`descendants_top`); a row of findings takes the numbers of its findings one after the
other (`descendants_tops`).
-/
import LpcSymbols.Proofs.Lineage

namespace LpcSymbols

/-- The table has the symbol of an entry, with the parent and the children of the entry. -/
structure SymbolTable.Holds (t : SymbolTable) (e : Entry) : Prop where
  get : t.get? e.id = some e.symbol
  parent : t.parent? e.id = some e.parent
  children : t.children e.id = e.owned.map (·.1)

namespace SourceTree

theorem holds_entry {t : SourceTree} {e : Entry} (he : e ∈ t.entries) : t.model.table.Holds e := by
  obtain ⟨hget, -⟩ := get?_model_of_entry he
  refine ⟨hget, ?_, ?_⟩
  · rw [SymbolTable.parent?, hget]
    rfl
  · rw [SymbolTable.children, hget]
    simp [Entry.symbol, Symbol.adopt, Symbol.ofDraft]

theorem children_root (t : SourceTree) :
    t.model.table.children SymbolId.root = (Located.tops 1 (t.located t.layout)).map (·.1) := by
  have hget : t.model.table.get? SymbolId.root = some t.fileSymbol := rfl
  rw [SymbolTable.children, hget]
  simp [fileSymbol, Symbol.adopt]

/-- Every symbol below that of the file has an entry. -/
theorem exists_entry {t : SourceTree} {id : SymbolId} (hid : id < t.model.table.size)
    (hroot : id ≠ SymbolId.root) : ∃ e ∈ t.entries, e.id = id := by
  obtain ⟨s, hs⟩ := SymbolTable.lt_size_iff.mp hid
  obtain ⟨e, he, hid, -⟩ := entry_of_get? hs hroot
  exact ⟨e, he, hid⟩

end SourceTree

namespace Located

variable {table : SymbolTable}

mutual

theorem descendants_top (hwf : table.WellFormed) (parent next : SymbolId) : ∀ f : Located,
    (∀ e ∈ f.entries parent next, table.Holds e) →
      (f.top next).flatMap (fun x => table.descendants x.1) = List.range' next f.symbolCount ∧
        ∀ e ∈ f.entries parent next, ∃ more, table.descendants e.id = List.range' e.id (more + 1)
  | .leaf site draft, hholds => by
    have hleaf : table.descendants next = List.range' next 1 := by
      rw [hwf.descendants_eq, (hholds _ List.mem_cons_self).children]
      rfl
    refine ⟨by simpa [top, symbolCount] using hleaf, ?_⟩
    intro e he
    obtain rfl := List.mem_singleton.mp he
    exact ⟨0, hleaf⟩
  | .scope site draft inside, hholds => by
    have hinside := descendants_tops hwf next (next + 1) inside
      (fun e he => hholds e (List.mem_cons_of_mem _ he))
    -- The scope has its own number and then those of what is inside it.
    have hscope : table.descendants next = List.range' next (symbolCountAll inside + 1) := by
      rw [hwf.descendants_eq, (hholds _ List.mem_cons_self).children, List.flatMap_map,
        List.range'_succ, ← hinside.1]
    refine ⟨by simpa [top, symbolCount] using hscope, ?_⟩
    intro e he
    rcases List.mem_cons.mp he with rfl | he
    · exact ⟨_, hscope⟩
    · exact hinside.2 e he
  | .omitted _ _, _ => by
    refine ⟨rfl, ?_⟩
    intro e he
    simp [entries] at he

/-- **The symbols of a row of findings are numbered in pre-order.** -/
theorem descendants_tops (hwf : table.WellFormed) (parent next : SymbolId) : ∀ fs : List Located,
    (∀ e ∈ entriesAll parent next fs, table.Holds e) →
      (tops next fs).flatMap (fun x => table.descendants x.1)
          = List.range' next (symbolCountAll fs) ∧
        ∀ e ∈ entriesAll parent next fs, ∃ more,
          table.descendants e.id = List.range' e.id (more + 1)
  | [], _ => by
    refine ⟨rfl, ?_⟩
    intro e he
    simp [entriesAll] at he
  | f :: fs, hholds => by
    rw [entriesAll] at hholds ⊢
    obtain ⟨hhead, hentries⟩ := descendants_top hwf parent next f
      (fun e he => hholds e (List.mem_append_left _ he))
    obtain ⟨hrest, hentries'⟩ := descendants_tops hwf parent (next + f.symbolCount) fs
      (fun e he => hholds e (List.mem_append_right _ he))
    refine ⟨?_, ?_⟩
    · rw [tops, List.flatMap_append, hhead, hrest, List.range'_append_1, symbolCountAll]
    · intro e he
      rcases List.mem_append.mp he with he | he
      · exact hentries e he
      · exact hentries' e he

end

end Located

/-- Every symbol and the symbols below it have consecutive numbers. -/
structure SymbolTable.InPreorder (t : SymbolTable) : Prop where
  block : ∀ id, ∃ more, t.descendants id = List.range' id (more + 1)
  all : t.descendants SymbolId.root = List.range t.size
  /-- Of two symbols the later one is below the earlier one, or all that is below it comes after all
  that is below the earlier one. -/
  apart : ∀ i j, i < j → j ∈ t.descendants i ∨
    ∀ x ∈ t.descendants i, ∀ y ∈ t.descendants j, x < y

/-- Blocks that do not overlap are one behind the other. -/
theorem SymbolTable.apart_of_block {t : SymbolTable}
    (h : ∀ id, ∃ more, t.descendants id = List.range' id (more + 1)) (i j : SymbolId)
    (hij : i < j) :
    j ∈ t.descendants i ∨ ∀ x ∈ t.descendants i, ∀ y ∈ t.descendants j, x < y := by
  obtain ⟨m, hm⟩ := h i
  obtain ⟨n, hn⟩ := h j
  rw [hm, hn]
  by_cases hin : j < i + (m + 1)
  · exact Or.inl (List.mem_range'_1.mpr ⟨Nat.le_of_lt hij, hin⟩)
  · refine Or.inr ?_
    intro x hx y hy
    have hxm := (List.mem_range'_1.mp hx).2
    have hyj := (List.mem_range'_1.mp hy).1
    exact Nat.lt_of_lt_of_le hxm (Nat.le_trans (Nat.not_lt.mp hin) hyj)

theorem SourceTree.inPreorder {t : SourceTree} (hwf : t.model.table.WellFormed) :
    t.model.table.InPreorder := by
  obtain ⟨htops, hentries⟩ := Located.descendants_tops hwf SymbolId.root 1 (t.located t.layout)
    (fun e he => holds_entry he)
  have hsize : t.model.table.size = Located.symbolCountAll (t.located t.layout) + 1 := by
    rw [t.size_model, entries, Located.length_entriesAll]
  have hroot : t.model.table.descendants SymbolId.root = List.range t.model.table.size := by
    rw [hwf.descendants_eq, t.children_root, List.flatMap_map, htops, hsize, List.range_eq_range',
      List.range'_succ]
    rfl
  have hblock : ∀ id, ∃ more, t.model.table.descendants id = List.range' id (more + 1) := by
    intro id
    by_cases hid : id < t.model.table.size
    · by_cases hfile : id = SymbolId.root
      · exact ⟨t.entries.length, by rw [hfile, hroot, t.size_model, List.range_eq_range']; rfl⟩
      · obtain ⟨e, he, rfl⟩ := exists_entry hid hfile
        exact hentries e he
    · have hnone : t.model.table.get? id = none := Array.getElem?_eq_none (Nat.not_lt.mp hid)
      refine ⟨0, ?_⟩
      rw [hwf.descendants_eq, SymbolTable.children, hnone]
      rfl
  exact ⟨hblock, hroot, SymbolTable.apart_of_block hblock⟩

/-- **The numbers of the symbols of a file are the pre-order of its scopes.** -/
theorem Analysis.table_inPreorder (t : SourceTree) :
    (t.InBounds → ∃ a, Analysis.ofTree t = .ok a) ∧
      ∀ a, Analysis.ofTree t = .ok a → a.model.table.InPreorder := by
  refine ⟨fun h => ⟨_, Analysis.ofTree_of_inBounds h⟩, ?_⟩
  intro a ha
  have hwf := wellFormed_table ha
  obtain ⟨-, rfl⟩ := Analysis.ofTree_ok_iff.mp ha
  exact SourceTree.inPreorder hwf

/-- Two functions, the second with one scope more. -/
def SourceTree.siblings : SourceTree :=
  .ofItems ⟨0⟩ {}
    [.node Kind.functionDecl.tag
      [.node Kind.functionHeader.tag [.node Kind.name.tag [.token Kind.ident.tag "f"]],
       .node Kind.identExpr.tag [.token Kind.ident.tag "x"]],
     .node Kind.functionDecl.tag
      [.node Kind.functionHeader.tag [.node Kind.name.tag [.token Kind.ident.tag "g"]],
       .node Kind.primaryExpr.tag [.node Kind.identExpr.tag [.token Kind.ident.tag "y"]]]]

theorem Analysis.table_inPreorder_siblings :
    SourceTree.siblings.InBounds ∧ ∃ a, Analysis.ofTree .siblings = .ok a ∧
      a.model.table.InPreorder ∧ a.model.table.descendants 3 = [3, 4, 5] := by
  have hbounds : SourceTree.siblings.InBounds := ⟨by decide +kernel, by decide +kernel⟩
  have hblock : ((Analysis.ofTree .siblings).toOption.map fun a => a.model.table.descendants 3)
      = some [3, 4, 5] := by decide +kernel
  obtain ⟨hok, hpreorder⟩ := table_inPreorder .siblings
  obtain ⟨a, ha⟩ := hok hbounds
  rw [ha] at hblock
  exact ⟨hbounds, a, ha, hpreorder a ha, Option.some.inj hblock⟩

end LpcSymbols
