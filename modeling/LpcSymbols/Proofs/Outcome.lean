/-
The outcome of an analysis.

`Analysis.ofTree_ok_iff` gives the outcome in closed form.  An analysis fails only
because a line or a counter does not fit its word; if it does not fail, the table,
the imports, the statistics and the trace are those of the entries of the tree,
which are numbered in the order of the walk.

Texts that are not too long have lines that fit, and trees that are not too large
have counters that fit, because a node is counted at most once.  So every analysis
within these bounds succeeds (`ofTree_of_inBounds`).
-/
import LpcSymbols.Analysis.Model
import LpcSymbols.Proofs.Coverage
import LpcSymbols.Proofs.Record

namespace LpcSymbols

/-! ### Entries, events and counters as readings -/

/-- The drafts among readings, with their sites. -/
def draftsOf (readings : List (Site × Except Omission Draft)) : List (Site × Draft) :=
  readings.filterMap fun x => x.2.toOption.map (x.1, ·)

/-- The omission that a reading is. -/
def omission? : Except Omission Draft → Option Omission
  | .ok _ => none
  | .error reason => some reason

/-- The omissions among readings, with their sites. -/
def omissionsOf (readings : List (Site × Except Omission Draft)) : List (Site × Omission) :=
  readings.filterMap fun x => (omission? x.2).map (x.1, ·)

/-- Every reading is a draft or an omission. -/
theorem perm_draftsOf_omissionsOf (readings : List (Site × Except Omission Draft)) :
    ((draftsOf readings).map (·.1) ++ (omissionsOf readings).map (·.1)).Perm
      (readings.map (·.1)) := by
  induction readings with
  | nil => exact List.Perm.refl _
  | cons x readings ih =>
      obtain ⟨site, e⟩ := x
      cases e with
      | ok draft => exact ih.cons site
      | error reason => exact List.perm_middle.trans (ih.cons site)

/-- The omission that an event tells of. -/
def TraceEvent.omission? : TraceEvent → Option (NodeRef × Omission)
  | .omitted node reason => some (node, reason)
  | _ => none

namespace Located

mutual

theorem entries_eq_draftsOf (parent next : SymbolId) : ∀ f : Located,
    (f.entries parent next).map (fun e => (e.site, e.draft)) = draftsOf f.readings
  | .leaf _ _ => rfl
  | .scope site draft inside => by
    have h := entriesAll_eq_draftsOf next (next + 1) inside
    simp only [entries, List.map_cons, h]
    rfl
  | .omitted _ _ => rfl

/-- The entries of findings are their drafts, in order. -/
theorem entriesAll_eq_draftsOf (parent next : SymbolId) : ∀ fs : List Located,
    (entriesAll parent next fs).map (fun e => (e.site, e.draft)) = draftsOf (readingsAll fs)
  | [] => rfl
  | f :: fs => by
    rw [entriesAll, List.map_append, entries_eq_draftsOf parent next f,
      entriesAll_eq_draftsOf parent _ fs, readingsAll, draftsOf, draftsOf, draftsOf,
      List.filterMap_append]

end

mutual

theorem events_eq_omissionsOf (depth : Nat) (next : SymbolId) : ∀ f : Located,
    (f.events depth next).filterMap TraceEvent.omission?
      = (omissionsOf f.readings).map fun x => (x.1.1.ref, x.2)
  | .leaf _ _ => rfl
  | .scope site draft inside => by
    have h := eventsAll_eq_omissionsOf (depth + 1) (next + 1) inside
    simp only [events, List.filterMap_cons, TraceEvent.omission?, List.filterMap_append, h,
      List.filterMap_nil, List.append_nil]
    rfl
  | .omitted _ _ => rfl

/-- The trace tells of the omissions, in order. -/
theorem eventsAll_eq_omissionsOf (depth : Nat) (next : SymbolId) : ∀ fs : List Located,
    (eventsAll depth next fs).filterMap TraceEvent.omission?
      = (omissionsOf (readingsAll fs)).map fun x => (x.1.1.ref, x.2)
  | [] => rfl
  | f :: fs => by
    rw [eventsAll, List.filterMap_append, events_eq_omissionsOf depth next f,
      eventsAll_eq_omissionsOf depth _ fs, readingsAll, omissionsOf, omissionsOf, omissionsOf,
      List.filterMap_append, List.map_append]

end

mutual

theorem tally_counts (depth : Nat) : ∀ f : Located,
    (f.tally depth).omissions = (omissionsOf f.readings).length ∧
      (f.tally depth).opened ≤ f.symbolCount ∧ (f.tally depth).closed = (f.tally depth).opened
  | .leaf _ _ => ⟨rfl, Nat.zero_le _, rfl⟩
  | .scope site draft inside => by
    obtain ⟨homit, hopen, hclose⟩ := tallyAll_counts (depth + 1) inside
    refine ⟨?_, ?_, ?_⟩
    · simp only [tally, Stats.join, homit, Nat.zero_add]
      rfl
    · simp only [tally, Stats.join, symbolCount]
      omega
    · simp only [tally, Stats.join, hclose]
  | .omitted _ _ => ⟨rfl, Nat.le_refl _, rfl⟩

/-- What is counted while findings are recorded. -/
theorem tallyAll_counts (depth : Nat) : ∀ fs : List Located,
    (tallyAll depth fs).omissions = (omissionsOf (readingsAll fs)).length ∧
      (tallyAll depth fs).opened ≤ symbolCountAll fs ∧
      (tallyAll depth fs).closed = (tallyAll depth fs).opened
  | [] => ⟨rfl, Nat.le_refl _, rfl⟩
  | f :: fs => by
    obtain ⟨homit, hopen, hclose⟩ := tally_counts depth f
    obtain ⟨homits, hopens, hcloses⟩ := tallyAll_counts depth fs
    refine ⟨?_, ?_, ?_⟩
    · simp only [tallyAll, Stats.join, homit, homits, readingsAll, omissionsOf,
        List.filterMap_append, List.length_append]
    · simp only [tallyAll, Stats.join, symbolCountAll]
      omega
    · simp only [tallyAll, Stats.join, hclose, hcloses]

end

/-! ### Located findings are well scoped -/

theorem wellScopedAll_append {fs gs : List Located} (hf : WellScopedAll fs)
    (hg : WellScopedAll gs) : WellScopedAll (fs ++ gs) := by
  induction fs with
  | nil => exact hg
  | cons f fs ih => exact ⟨hf.1, ih hf.2⟩

theorem wellScoped_atSite {l : Layout} {count : Nat} {s : Site} {below : List Located}
    (hbelow : WellScopedAll below) : WellScopedAll (atSite l count s below) := by
  unfold atSite
  split
  · exact hbelow
  · exact ⟨trivial, hbelow⟩
  · rename_i draft hread
    have hscope := ((Site.reading?_readsAs hread).isOf draft rfl).isScope
    split
    · rename_i hkind
      refine ⟨?_, trivial⟩
      show draft.data.kind.isScope = false
      rw [hscope, hkind]
      rfl
    · split
      · rename_i hyes
        exact ⟨⟨hyes, hbelow⟩, trivial⟩
      · rename_i hno
        have hleaf : draft.data.kind.isScope = false := by simpa using hno
        exact ⟨hleaf, hbelow⟩

theorem kept_wellScoped (l : Layout) : Kept l fun _ fs => WellScopedAll fs where
  nil _ := trivial
  append _ _ _ := wellScopedAll_append
  atSite _ _ _ := wellScoped_atSite

end Located

/-! ### The closed form -/

namespace SourceTree

/-- The entries of a tree, in the order of their numbers. -/
def entries (t : SourceTree) : List Entry :=
  Located.entriesAll SymbolId.root 1 (t.located t.layout)

/-- The table of a file in which nothing has been found yet. -/
def rootTable (t : SourceTree) : SymbolTable :=
  .ofRoot t.file.render t.node.ref ((t.layout.span? t.node).getD .zero)

/-- The statistics of a tree. -/
def stats (t : SourceTree) : Stats :=
  Stats.join ⟨1, 1, 1, 0⟩ (Located.tallyAll 1 (t.located t.layout))

/-- The model of a tree whose lines and counters fit. -/
def model (t : SourceTree) : FileModel where
  file := t.file
  dialect := t.dialect
  table := t.rootTable.extend SymbolId.root (Located.tops 1 (t.located t.layout))
    (t.entries.map Entry.symbol)
  imports := Entry.imports t.entries
  stats := t.stats
  lines := t.layout.lines

/-- The trace of the analysis of such a tree. -/
def trace (t : SourceTree) : List TraceEvent :=
  [.began t.file, .entered SymbolId.root 1] ++ Located.eventsAll 1 1 (t.located t.layout) ++
    [.left SymbolId.root 0,
     .ended t.model.table.size t.model.imports.length t.stats.omissions t.stats.maxDepth]

/-- The length, the lines and the counters of the tree fit their words. -/
structure Fits (t : SourceTree) : Prop where
  size : t.size < Word.bound
  root : ((t.layout.span? t.node).getD .zero).fits = true
  drafts : ∀ e ∈ t.entries, e.draft.fits = true
  stats : t.stats.Fits

theorem owns_rootTable (t : SourceTree) : t.rootTable.Owns SymbolId.root := ⟨_, rfl, rfl⟩

/-- The recorder that has opened the symbol of the file. -/
def opened (t : SourceTree) : Recorder :=
  Recorder.entered { table := t.rootTable, trace := #[.began t.file] } SymbolId.root

/-- The recorder that has recorded all findings and closed the symbol of the file. -/
def closed (t : SourceTree) : Recorder :=
  (t.opened.after (t.located t.layout)).closed

theorem fits_opened (t : SourceTree) : t.opened.stats.Fits := by
  have hstats : t.opened.stats = ⟨1, 0, 1, 0⟩ := rfl
  rw [hstats]
  exact ⟨by decide, by decide, by decide⟩

theorem stats_closed (t : SourceTree) : t.closed.stats = t.stats := by
  have hopened : t.opened.stats = ⟨1, 0, 1, 0⟩ := rfl
  have hscopes : t.opened.scopes.length = 1 := rfl
  simp only [closed, Recorder.closed, Recorder.after, hopened, hscopes, stats, Stats.join,
    Stats.mk.injEq]
  omega

theorem scopes_closed (t : SourceTree) : t.closed.scopes = [] := rfl

theorem table_closed (t : SourceTree) : t.closed.table = t.model.table := rfl

theorem imports_closed (t : SourceTree) : t.closed.imports.toList = t.model.imports := by
  have hopened : t.opened.imports = #[] := rfl
  have hafter : t.closed.imports = t.opened.imports ++ (Entry.imports t.entries).toArray := rfl
  rw [hafter, hopened]
  simp [model]

theorem trace_closed (t : SourceTree) : t.closed.trace.toList =
    [.began t.file, .entered SymbolId.root 1] ++ Located.eventsAll 1 1 (t.located t.layout) ++
      [.left SymbolId.root 0] := by
  have hopened : t.opened.trace = #[.began t.file, .entered SymbolId.root 1] := rfl
  have hclosed : t.closed.trace = (t.opened.trace ++
      (Located.eventsAll 1 1 (t.located t.layout)).toArray).push (.left SymbolId.root 0) := rfl
  rw [hclosed, hopened]
  simp

end SourceTree

namespace Analysis

theorem start_ok_iff {t : SourceTree} {r : Recorder} :
    start t t.layout = .ok r ↔ ((t.layout.span? t.node).getD .zero).fits = true ∧
      r = { table := t.rootTable, trace := #[.began t.file] } := by
  simp only [start]
  split
  · rename_i hfits
    rw [Except.ok.injEq]
    exact ⟨fun hr => ⟨hfits, hr.symm⟩, fun hr => hr.2.symm⟩
  · rename_i hfits
    constructor
    · rintro ⟨⟩
    · rintro ⟨hroot, -⟩
      exact absurd hroot hfits

theorem recordAll_opened_iff {t : SourceTree} {r : Recorder} :
    t.opened.recordAll (Finding.ofRoot t.layout t.node) = .ok r ↔
      (∀ e ∈ t.entries, e.draft.fits = true) ∧
        (t.opened.stats.join (Located.tallyAll 1 (t.located t.layout))).Fits ∧
        r = t.opened.after (t.located t.layout) := by
  rw [← t.findings_located]
  exact Recorder.recordAll_ok_iff t.owns_rootTable t.fits_opened _
    (t.kept_located (Located.kept_wellScoped t.layout))

/-- **The outcome of an analysis in closed form.** -/
theorem ofTree_ok_iff {t : SourceTree} {a : Analysis} :
    Analysis.ofTree t = .ok a ↔ t.Fits ∧ a = ⟨t.model, t.trace⟩ := by
  have hresult : (⟨⟨t.file, t.dialect, t.closed.table, t.closed.imports.toList, t.closed.stats,
        t.layout.lines⟩,
      (t.closed.note (.ended t.closed.table.size t.closed.imports.size t.closed.stats.omissions
        t.closed.stats.maxDepth)).trace.toList⟩ : Analysis) = ⟨t.model, t.trace⟩ := by
    rw [Recorder.note, Array.toList_push, t.trace_closed, t.table_closed, ← Array.length_toList,
      t.imports_closed, t.stats_closed, SourceTree.trace]
    simp [SourceTree.model]
  unfold ofTree
  rw [bind_eq_ok]
  constructor
  · rintro ⟨l, hl, h⟩
    obtain ⟨hsize, rfl⟩ := Layout.ofTree_ok_iff.mp hl
    obtain ⟨r, hr, h⟩ := bind_eq_ok.mp h
    obtain ⟨hroot, rfl⟩ := start_ok_iff.mp hr
    obtain ⟨r, hr, h⟩ := bind_eq_ok.mp h
    obtain ⟨-, rfl⟩ := Recorder.enter_ok_iff.mp hr
    obtain ⟨r, hr, h⟩ := bind_eq_ok.mp h
    obtain ⟨hdrafts, hfits, rfl⟩ := recordAll_opened_iff.mp hr
    obtain ⟨r, hr, h⟩ := bind_eq_ok.mp h
    obtain ⟨-, hclosed, rfl⟩ := Recorder.leave_ok_iff.mp hr
    obtain ⟨r, hr, h⟩ := bind_eq_ok.mp h
    obtain ⟨-, rfl⟩ := Recorder.finish_ok_iff.mp hr
    obtain rfl := Except.ok.inj h
    refine ⟨⟨hsize, hroot, hdrafts, ?_⟩, hresult⟩
    rw [← t.stats_closed]
    exact ⟨hfits.opened, hclosed, hfits.omissions⟩
  · rintro ⟨⟨hsize, hroot, hdrafts, hstats⟩, rfl⟩
    rw [← t.stats_closed] at hstats
    have hafter : (t.opened.stats.join (Located.tallyAll 1 (t.located t.layout))).Fits :=
      hstats.of_join
    refine ⟨t.layout, Layout.ofTree_ok_iff.mpr ⟨hsize, rfl⟩, ?_⟩
    refine bind_eq_ok.mpr ⟨_, start_ok_iff.mpr ⟨hroot, rfl⟩, ?_⟩
    refine bind_eq_ok.mpr ⟨_, Recorder.enter_ok_iff.mpr ⟨t.fits_opened.opened, rfl⟩, ?_⟩
    refine bind_eq_ok.mpr ⟨_, recordAll_opened_iff.mpr ⟨hdrafts, hafter, rfl⟩, ?_⟩
    refine bind_eq_ok.mpr ⟨_, Recorder.leave_ok_iff.mpr ⟨List.cons_ne_nil _ _, hstats.closed, rfl⟩, ?_⟩
    refine bind_eq_ok.mpr ⟨_, Recorder.finish_ok_iff.mpr ⟨t.scopes_closed, rfl⟩, ?_⟩
    exact congrArg Except.ok hresult

/-- **An analysis fails only where a number leaves its word.**  All that is opened is closed, and in
the right order, so that in the end nothing is open. -/
theorem onlyOverflows_ofTree (t : SourceTree) : OnlyOverflows (ofTree t) := by
  unfold ofTree
  have hlayout : OnlyOverflows (Layout.ofTree t) := by
    rw [Layout.ofTree_eq]
    exact (OnlyOverflows.ok _).ite
  have hrecord : OnlyOverflows (t.opened.recordAll (Finding.ofRoot t.layout t.node)) := by
    rw [← t.findings_located]
    exact Recorder.onlyOverflows_recordAll t.owns_rootTable t.fits_opened _
      (t.kept_located (Located.kept_wellScoped t.layout))
  refine hlayout.bind ?_
  intro l hl
  obtain ⟨-, rfl⟩ := Layout.ofTree_ok_iff.mp hl
  refine OnlyOverflows.bind ((OnlyOverflows.ok _).ite) ?_
  intro r hr
  obtain ⟨-, rfl⟩ := start_ok_iff.mp hr
  refine (Recorder.onlyOverflows_enter _ _).bind ?_
  intro r hr
  obtain ⟨-, rfl⟩ := Recorder.enter_ok_iff.mp hr
  refine hrecord.bind ?_
  intro r hr
  obtain ⟨-, -, rfl⟩ := recordAll_opened_iff.mp hr
  refine (Recorder.onlyOverflows_leave (List.cons_ne_nil _ _)).bind ?_
  intro r hr
  obtain ⟨-, -, rfl⟩ := Recorder.leave_ok_iff.mp hr
  have hfinish : t.closed.finish = .ok t.closed :=
    Recorder.finish_ok_iff.mpr ⟨t.scopes_closed, rfl⟩
  show OnlyOverflows (t.closed.finish >>= _)
  rw [hfinish]
  exact .ok _

end Analysis

/-! ### Symbols and their sites -/

namespace SourceTree

variable {t : SourceTree} {s : Site} {id : SymbolId}

/-- The sites of the symbols, in the order of their numbers. -/
def recorded (t : SourceTree) : List Site := (draftsOf t.readings).map (·.1)

/-- The sites of the omissions, in the order of the trace. -/
def omitted (t : SourceTree) : List Site := (omissionsOf t.readings).map (·.1)

theorem recorded_append_omitted_perm (t : SourceTree) :
    (t.recorded ++ t.omitted).Perm (Placed.visible t.layout t.node.nodes) :=
  (perm_draftsOf_omissionsOf t.readings).trans t.readings_perm

theorem mem_recorded_append_omitted :
    s ∈ t.recorded ++ t.omitted ↔
      s ∈ t.node.nodes ∧ s.isConstruct t.layout = true ∧ s.isHidden t.layout = false := by
  rw [t.recorded_append_omitted_perm.mem_iff, Placed.visible, List.mem_filter]
  simp

theorem nodup_recorded_append_omitted (t : SourceTree) : (t.recorded ++ t.omitted).Nodup := by
  rw [t.recorded_append_omitted_perm.nodup_iff]
  exact t.nodup_nodes.filter _

theorem entries_recorded (t : SourceTree) : t.entries.map (·.site) = t.recorded := by
  have h := congrArg (List.map (·.1))
    (Located.entriesAll_eq_draftsOf SymbolId.root 1 (t.located t.layout))
  rw [List.map_map] at h
  exact h

/-- The site that a symbol comes from.  The symbol of the file comes from none. -/
def origin? (t : SourceTree) : SymbolId → Option Site
  | 0 => none
  | i + 1 => t.entries[i]?.map (·.site)

/-- The symbol of the file. -/
def fileSymbol (t : SourceTree) : Symbol :=
  Symbol.adopt (Located.tops 1 (t.located t.layout))
    ⟨⟨t.file.render, .file, t.node.ref, (t.layout.span? t.node).getD .zero, none⟩,
      SymbolId.root, none, []⟩

theorem toList_model (t : SourceTree) :
    t.model.table.toList = t.fileSymbol :: t.entries.map Entry.symbol := rfl

theorem symbols_model (t : SourceTree) :
    t.model.table.toList.tail = t.entries.map Entry.symbol := rfl

theorem size_model (t : SourceTree) : t.model.table.size = t.entries.length + 1 := by
  have hroot : t.rootTable.size = 1 := rfl
  rw [model, SymbolTable.size_extend, List.length_map, hroot, Nat.add_comm]

/-- Entries have the numbers of their symbols. -/
theorem getElem?_entries {e : Entry} {i : Nat} (h : t.entries[i]? = some e) : e.id = i + 1 := by
  have hids : t.entries.map (·.id) = List.range' 1 t.entries.length := by
    rw [entries, Located.entriesAll_ids, Located.length_entriesAll]
  have hmap : (t.entries.map (·.id))[i]? = some e.id := by
    rw [List.getElem?_map, h]
    rfl
  obtain ⟨hlt, -⟩ := List.getElem?_eq_some_iff.mp h
  rw [hids, List.getElem?_range' hlt] at hmap
  simpa [Nat.add_comm] using (Option.some.inj hmap).symm

theorem get?_model_of_entry {e : Entry} (he : e ∈ t.entries) :
    t.model.table.get? e.id = some e.symbol ∧ t.origin? e.id = some e.site := by
  obtain ⟨i, hi⟩ := List.getElem?_of_mem he
  have hsymbol : t.model.table.toList[i + 1]? = some e.symbol := by
    rw [show t.model.table.toList[i + 1]? = t.model.table.toList.tail[i]? from
      List.getElem?_tail.symm, symbols_model, List.getElem?_map, hi]
    rfl
  rw [getElem?_entries hi, SymbolTable.get?_eq_toList]
  refine ⟨hsymbol, ?_⟩
  simp [origin?, hi]

/-- Every symbol below that of the file is the symbol of an entry. -/
theorem entry_of_get? {symbol : Symbol} (h : t.model.table.get? id = some symbol) (hid : id ≠ SymbolId.root) :
    ∃ e ∈ t.entries, e.id = id ∧ e.symbol = symbol := by
  cases id with
  | zero => exact absurd rfl hid
  | succ i =>
      rw [SymbolTable.get?_eq_toList, ← List.getElem?_tail, symbols_model,
        List.getElem?_map] at h
      obtain ⟨e, he, hs⟩ := Option.map_eq_some_iff.mp h
      exact ⟨e, List.mem_of_getElem? he, getElem?_entries he, hs⟩

theorem entry_of_origin? (h : t.origin? id = some s) :
    ∃ e ∈ t.entries, e.id = id ∧ e.site = s := by
  cases id with
  | zero => simp [origin?] at h
  | succ i =>
      obtain ⟨e, he, hsite⟩ := Option.map_eq_some_iff.mp h
      exact ⟨e, List.mem_of_getElem? he, getElem?_entries he, hsite⟩

/-- Different symbols come from different sites. -/
theorem origin?_injective {other : SymbolId} (h : t.origin? id = some s)
    (hother : t.origin? other = some s) : other = id := by
  cases id with
  | zero => simp [origin?] at h
  | succ i =>
      cases other with
      | zero => simp [origin?] at hother
      | succ j =>
          rw [origin?, ← List.getElem?_map, entries_recorded] at h hother
          have hnodup : t.recorded.Nodup := (List.nodup_append.mp t.nodup_recorded_append_omitted).1
          obtain ⟨hi, -⟩ := List.getElem?_eq_some_iff.mp h
          rw [(List.getElem?_inj hi hnodup).mp (h.trans hother.symm)]

end SourceTree

/-! ### Analyses within bounds succeed -/

namespace SourceTree

/-- The text is shorter than `2 ^ 31 - 1` bytes, and there are fewer than `2 ^ 32 - 1` nodes. -/
structure InBounds (t : SourceTree) : Prop where
  size : t.size < 2147483647
  nodes : t.node.nodes.length < 4294967295

variable {t : SourceTree}

theorem mem_readings_of_entry {e : Entry} (he : e ∈ t.entries) :
    (e.site, .ok e.draft) ∈ t.readings := by
  have hmem : (e.site, e.draft) ∈ draftsOf t.readings := by
    rw [readings, ← Located.entriesAll_eq_draftsOf SymbolId.root 1]
    exact List.mem_map_of_mem he
  obtain ⟨⟨site, reading⟩, hx, hdraft⟩ := List.mem_filterMap.mp hmem
  cases reading with
  | error reason => simp [Except.toOption] at hdraft
  | ok draft =>
      have heq : (site, draft) = (e.site, e.draft) := Option.some.inj hdraft
      obtain ⟨rfl, rfl⟩ := Prod.mk.inj heq
      exact hx

/-- The draft of an entry was read off the node of its site. -/
theorem isOf_of_entry {e : Entry} (he : e ∈ t.entries) :
    e.draft.IsOf t.layout e.site.1 e.site.1.kind.opensScope := by
  obtain ⟨c, hc⟩ := t.reading?_of_mem (mem_readings_of_entry he)
  exact (Site.reading?_readsAs hc).isOf e.draft rfl

theorem range_of_entry {e : Entry} (he : e ∈ t.entries) : e.symbol.range = e.site.1.range :=
  congrArg NodeRef.range (isOf_of_entry he).node

theorem draft_fits (hsize : t.size < 2147483647) {e : Entry} (he : e ∈ t.entries) :
    e.draft.fits = true := by
  have hof := isOf_of_entry he
  obtain ⟨hstart, hstop⟩ := t.span_lines hof.span
  have hspan : e.draft.span.fits = true :=
    Span.fits_of_lines (m := t.size + 1) (by omega) hstart.2 hstop.2
  have hfold : e.draft.data.fold?.all Fold.fits = true := by
    cases hf : e.draft.data.fold? with
    | none => rfl
    | some f =>
        rw [hof.fold f hf, Option.all_some]
        exact Fold.fits_ofSpan (m := t.size + 1) (by omega) hstart hstop
  rw [Draft.fits, hspan, hfold]
  rfl

theorem root_fits (hsize : t.size < 2147483647) :
    ((t.layout.span? t.node).getD .zero).fits = true := by
  cases hspan : t.layout.span? t.node with
  | none => rfl
  | some span =>
      obtain ⟨hstart, hstop⟩ := t.span_lines hspan
      exact Span.fits_of_lines (m := t.size + 1) (by omega) hstart.2 hstop.2

theorem length_readings_le (t : SourceTree) : t.readings.length ≤ t.node.nodes.length := by
  have hperm := t.readings_perm.length_eq
  rw [List.length_map] at hperm
  rw [hperm]
  exact List.length_filter_le _ _

/-- There are as many entries as drafts, and every reading is a draft or an omission. -/
theorem length_readings (t : SourceTree) :
    t.readings.length = t.entries.length + (omissionsOf t.readings).length := by
  have hperm := (perm_draftsOf_omissionsOf t.readings).length_eq
  have hdrafts := congrArg List.length
    (Located.entriesAll_eq_draftsOf SymbolId.root 1 (t.located t.layout))
  rw [List.length_map] at hdrafts
  rw [List.length_append, List.length_map, List.length_map, List.length_map] at hperm
  rw [← hperm, readings, ← hdrafts]
  rfl

theorem omissions_stats (t : SourceTree) : t.stats.omissions = (omissionsOf t.readings).length := by
  obtain ⟨homit, -, -⟩ := Located.tallyAll_counts 1 (t.located t.layout)
  simp only [stats, Stats.join, homit, Nat.zero_add]
  rfl

theorem stats_fits (hnodes : t.node.nodes.length < 4294967295) : t.stats.Fits := by
  obtain ⟨-, hopen, hclose⟩ := Located.tallyAll_counts 1 (t.located t.layout)
  have hle := t.length_readings_le
  have hlen := t.length_readings
  have hentries : t.entries.length = Located.symbolCountAll (t.located t.layout) :=
    Located.length_entriesAll ..
  refine ⟨?_, ?_, ?_⟩
  · simp only [stats, Stats.join, Word.bound]
    omega
  · simp only [stats, Stats.join, Word.bound]
    omega
  · rw [omissions_stats, Word.bound]
    omega

theorem InBounds.fits (h : t.InBounds) : t.Fits where
  size := Nat.lt_trans h.size (by decide)
  root := root_fits h.size
  drafts := fun _ he => draft_fits h.size he
  stats := stats_fits h.nodes

end SourceTree

/-- **Every analysis within bounds succeeds.** -/
theorem Analysis.ofTree_of_inBounds {t : SourceTree} (h : t.InBounds) :
    Analysis.ofTree t = .ok ⟨t.model, t.trace⟩ :=
  Analysis.ofTree_ok_iff.mpr ⟨h.fits, rfl⟩

end LpcSymbols
