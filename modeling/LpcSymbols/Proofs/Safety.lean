/-
Nothing goes wrong within bounds.

An analysis can fail in a number of ways, and so can the questions that an editor asks
about its outcome: a line or a counter may not fit its word, a symbol may be created below
one that is no scope, a list may hold the number of a symbol that does not exist, a loop
may not end.  None of this happens for a text and a tree within the bounds of words.

That the analysis itself succeeds is known from its closed form.  What is left are the
questions.  They follow the lists of children and of imports, which hold existing symbols
only, and they go down from the file, where numbers grow; so they end before the numbers
do, and the steps they are given beyond that make no difference.
-/
import LpcSymbols.Editor.Decoration
import LpcSymbols.Editor.Navigation
import LpcSymbols.Editor.Outline
import LpcSymbols.Proofs.Balance
import LpcSymbols.Proofs.Ranges

namespace LpcSymbols

theorem mapM_eq_ok {α β : Type} {f : α → Except Fault β} {g : α → β} (xs : List α)
    (h : ∀ x ∈ xs, f x = .ok (g x)) : xs.mapM f = .ok (xs.map g) := by
  induction xs with
  | nil => rfl
  | cons x xs ih =>
      rw [List.mapM_cons, h x List.mem_cons_self, ih (fun y hy => h y (List.mem_cons_of_mem _ hy))]
      rfl

/-! ### Going down from the file -/

namespace SymbolTable

variable {t : SymbolTable} {id : SymbolId}

theorem get_eq_ok {s : Symbol} (h : t.get? id = some s) : t.get id = .ok s := by
  rw [get, h]

theorem children_of_size_le (h : t.size ≤ id) : t.children id = [] := by
  rw [children, get?, Array.getElem?_eq_none h]
  rfl

theorem childAt?_mem {accept : Symbol → Bool} {offset : Nat} {c : SymbolId}
    (h : t.childAt? accept offset id = some c) : c ∈ t.children id :=
  List.mem_of_find?_eq_some h

/-- **The search by offset ends at a symbol that has no child there.** -/
theorem WellFormed.exists_descend (h : t.WellFormed) (accept : Symbol → Bool) (offset : Nat)
    (id : SymbolId) (hid : id < t.size) :
    ∃ last, last < t.size ∧ t.childAt? accept offset last = none ∧
      ∀ steps, t.size ≤ id + steps → t.descend accept offset steps id = last := by
  induction id using h.induction_down with
  | down id ih =>
      cases hchild : t.childAt? accept offset id with
      | none =>
          refine ⟨id, hid, hchild, ?_⟩
          intro steps hsteps
          cases steps with
          | zero => rfl
          | succ steps => rw [descend, hchild]
      | some c =>
          have hmem : c ∈ t.children id := childAt?_mem hchild
          obtain ⟨last, hlast, hnone, hdescend⟩ := ih c hmem (h.child_bounds hmem).2
          refine ⟨last, hlast, hnone, ?_⟩
          intro steps hsteps
          cases steps with
          | zero => exact absurd hid (Nat.not_lt.mpr hsteps)
          | succ steps =>
              rw [descend, hchild]
              exact hdescend steps (h.size_le_child hmem hsteps)

end SymbolTable

namespace FileModel

open SymbolTable

variable {m : FileModel}

/-- What an outline has of a symbol, if these entries are inside it. -/
def listed (m : FileModel) (s : Symbol) (inside : List OutlineEntry) : List OutlineEntry :=
  if s.kind.isTransparent then inside
  else if s.kind.isListed then [OutlineEntry.ofSymbol m.lines s inside]
  else []

/-- The entries for the children of a symbol, down to `depth` levels. -/
def below (m : FileModel) : Nat → SymbolId → List OutlineEntry
  | 0, _ => []
  | depth + 1, scope => (m.table.children scope).flatMap fun child =>
      ((m.table.get? child).map fun s => m.listed s (m.below depth child)).getD []

/-- An outline never fails. -/
theorem outlineTo_eq (h : m.table.WellFormed) (depth : Nat) (scope : SymbolId) :
    m.outlineTo depth scope = .ok (m.below depth scope) := by
  induction depth generalizing scope with
  | zero => rfl
  | succ depth ih =>
      rw [outlineTo, mapM_eq_ok (g := fun child =>
        ((m.table.get? child).map fun s => m.listed s (m.below depth child)).getD [])]
      · rfl
      · intro child hchild
        obtain ⟨s, hs⟩ := lt_size_iff.mp (h.child_bounds hchild).2
        rw [get_eq_ok hs, hs, ih child]
        show (if s.kind.isTransparent = true then _ else _) = Except.ok (m.listed s _)
        unfold listed
        by_cases htransparent : s.kind.isTransparent = true
        · rw [if_pos htransparent, if_pos htransparent]
        · rw [if_neg htransparent, if_neg htransparent]
          by_cases hlisted : s.kind.isListed = true
          · rw [if_pos hlisted, if_pos hlisted]
            rfl
          · rw [if_neg hlisted, if_neg hlisted]
            rfl

theorem below_of_size_le {scope : SymbolId} (h : m.table.size ≤ scope) (depth : Nat) :
    m.below depth scope = [] := by
  cases depth with
  | zero => rfl
  | succ depth => rw [below, children_of_size_le h, List.flatMap_nil]

/-- Levels beyond the number of symbols make no difference. -/
theorem below_eq (h : m.table.WellFormed) (scope : SymbolId) : ∀ depth more,
    m.table.size ≤ scope + depth → m.table.size ≤ scope + more →
      m.below depth scope = m.below more scope := by
  induction scope using h.induction_down with
  | down scope ih =>
      intro depth more hdepth hmore
      cases depth with
      | zero => exact (below_of_size_le hdepth more).symm
      | succ depth =>
          cases more with
          | zero => exact below_of_size_le hmore (depth + 1)
          | succ more =>
              rw [below, below]
              apply List.flatMap_congr
              intro child hchild
              rw [ih child hchild depth more (h.size_le_child hchild hdepth)
                (h.size_le_child hchild hmore)]

/-- A selection never fails. -/
theorem exists_selection (h : m.table.WellFormed) (place : LineCol) :
    ∃ regions, m.selection place = .ok regions := by
  unfold selection
  cases hoffset : m.lines.offset? place with
  | none => exact ⟨[], rfl⟩
  | some offset =>
      obtain ⟨last, hlast, -, hdescend⟩ := h.exists_descend (fun _ => true) offset SymbolId.root
        h.nonempty
      obtain ⟨s, hs⟩ := lt_size_iff.mp hlast
      have hat : m.table.symbolAt offset = last := hdescend m.table.size (Nat.le_add_left _ _)
      refine ⟨((s :: m.table.ancestors last).map fun s => m.lines.region s.range).eraseReps, ?_⟩
      show (m.table.get (m.table.symbolAt offset) >>= _) = _
      rw [hat, get_eq_ok hs]
      rfl

/-- Whatever an editor asks about the model has an answer. -/
structure Answers (m : FileModel) : Prop where
  /-- The ranges to be turned into lines and columns lie inside the text. -/
  ranges : ∀ s ∈ m.table.toList, ∀ r ∈ s.range :: s.nameRange.toList,
    r.start ≤ r.stop ∧ r.stop ≤ m.lines.size
  /-- Before every line but the first there is a newline to be taken off. -/
  lines : ∀ i start, m.lines.starts[i + 1]? = some start → 0 < start ∧ start ≤ m.lines.size
  folds : ∀ f ∈ m.folds, f.fits = true
  /-- No import leads to a symbol that does not exist. -/
  links : m.links.length = m.imports.length
  /-- The recursion of an outline ends by itself. -/
  outline : ∃ entries, m.outline = .ok entries ∧
    ∀ depth, m.table.size ≤ depth → m.outlineTo depth SymbolId.root = .ok entries
  /-- The search by offset ends by itself, at a symbol that exists. -/
  innermost : ∀ accept offset, ∃ last, last < m.table.size ∧
    m.table.childAt? accept offset last = none ∧
      ∀ steps, m.table.size ≤ steps → m.table.descend accept offset steps SymbolId.root = last
  /-- The way up from a symbol ends by itself. -/
  owners : ∀ id, m.table.Climbs id (m.table.owners id)
  selection : ∀ place, ∃ regions, m.selection place = .ok regions

end FileModel

/-! ### The questions about a file -/

theorem Import.symbol_of_ofData? {data : SymbolData} {id : SymbolId} {entry : Import}
    (h : ofData? data id = some entry) : entry.symbol = id := by
  unfold ofData? at h
  split at h
  · obtain rfl := Option.some.inj h
    rfl
  · obtain rfl := Option.some.inj h
    rfl
  · simp at h

namespace SourceTree

open SymbolTable

variable {t : SourceTree}

theorem size_lines (t : SourceTree) : t.model.lines.size = t.size := t.size_text

theorem lines_bounds (t : SourceTree) {i start : Nat}
    (h : t.model.lines.starts[i + 1]? = some start) : 0 < start ∧ start ≤ t.model.lines.size := by
  have hmem : start ∈ LineMap.startsAfter 0 t.text.toList := List.mem_of_getElem? h
  obtain ⟨hpos, hle⟩ := LineMap.startsAfter_bounds hmem
  rw [String.ofList_toList, Nat.zero_add] at hle
  exact ⟨hpos, hle⟩

theorem range_bounds {s : Symbol} (hs : s ∈ t.model.table.toList) {r : TextRange}
    (hr : r ∈ s.range :: s.nameRange.toList) : r.start ≤ r.stop ∧ r.stop ≤ t.model.lines.size := by
  obtain ⟨hrange, hname⟩ := symbol_within hs
  have hwithin : r.Within t.node.range := by
    rcases List.mem_cons.mp hr with rfl | hr
    · exact hrange
    · exact (hname r (Option.mem_toList.mp hr)).trans hrange
  have hstop : t.node.range.stop = t.size := Nat.zero_add _
  rw [size_lines, ← hstop]
  exact ⟨hwithin.le, hwithin.stop_le⟩

/-- Every import leads to its symbol. -/
theorem length_links (t : SourceTree) : t.model.links.length = t.model.imports.length := by
  apply List.filterMap_length_eq_length.mpr
  intro entry hentry
  obtain ⟨e, he, hdata⟩ := List.mem_filterMap.mp hentry
  rw [Import.symbol_of_ofData? hdata, (get?_model_of_entry he).1]
  rfl

theorem folds_fit (hsize : t.size < 2147483647) {f : Fold} (hf : f ∈ t.model.folds) :
    f.fits = true := by
  obtain ⟨s, hs, hfold⟩ := List.mem_filterMap.mp (List.mem_mergeSort.mp hf)
  rw [toList_model] at hs
  rcases List.mem_cons.mp hs with rfl | hs
  · have hnone : t.fileSymbol.data.fold? = none := rfl
    rw [hnone] at hfold
    simp at hfold
  · obtain ⟨e, he, rfl⟩ := List.mem_map.mp hs
    have hdraft : e.draft.data.fold? = some f := by
      rw [← hfold]
      exact (SymbolData.fold?_withBranches e.owned e.draft.data).symm
    have hfits := draft_fits hsize he
    rw [Draft.fits, hdraft, Bool.and_eq_true] at hfits
    exact hfits.2

theorem answers (hsize : t.size < 2147483647) (hwf : t.model.table.WellFormed) :
    t.model.Answers where
  ranges := by
    intro s hs r hr
    exact range_bounds hs hr
  lines := by
    intro i start h
    exact t.lines_bounds h
  folds := by
    intro f hf
    exact folds_fit hsize hf
  links := t.length_links
  outline := by
    refine ⟨t.model.below t.model.table.size SymbolId.root, FileModel.outlineTo_eq hwf _ _, ?_⟩
    intro depth hdepth
    rw [FileModel.outlineTo_eq hwf, FileModel.below_eq hwf SymbolId.root depth t.model.table.size]
    · exact Nat.le_trans hdepth (Nat.le_add_left _ _)
    · exact Nat.le_add_left _ _
  innermost := by
    intro accept offset
    obtain ⟨last, hlast, hnone, hdescend⟩ := hwf.exists_descend accept offset SymbolId.root
      hwf.nonempty
    refine ⟨last, hlast, hnone, ?_⟩
    intro steps hsteps
    exact hdescend steps (Nat.le_trans hsteps (Nat.le_add_left _ _))
  owners := hwf.climbs_owners
  selection := by
    intro place
    exact FileModel.exists_selection hwf place

end SourceTree

/-! ### The counters of an analysis -/

/-- Number of clauses among the children of an `if` statement. -/
def Node.clauseCount (n : Node) : Nat := (n.childNodes.filter (·.kind.branch?.isSome)).length

namespace Placed

theorem length_childNodes_le (around : List Node) (ps : List Placed) :
    (ps.filterMap node?).length ≤ (nodesAll around ps).length := by
  induction ps with
  | nil => exact Nat.le_refl _
  | cons p ps ih =>
      rw [nodesAll, List.length_append]
      cases p with
      | token t =>
          rw [List.filterMap_cons_none rfl]
          omega
      | node kind range before children =>
          have hcons : (Placed.node kind range before children :: ps).filterMap node?
              = ⟨kind, range, before, children⟩ :: ps.filterMap node? := rfl
          rw [hcons, List.length_cons, nodes, List.length_cons]
          omega

mutual

theorem clauseCount_lt (around : List Node) : ∀ (p : Placed) (s : Site), s ∈ p.nodes around →
    s.1.clauseCount < (p.nodes around).length
  | .token _, s, hs => by simp [nodes] at hs
  | .node kind range before children, s, hs => by
    simp only [nodes, List.mem_cons, List.length_cons] at hs ⊢
    rcases hs with rfl | hs
    · have hfilter := List.length_filter_le (·.kind.branch?.isSome) (children.filterMap node?)
      have hnodes := length_childNodes_le (⟨kind, range, before, children⟩ :: around) children
      exact Nat.lt_succ_of_le (Nat.le_trans hfilter hnodes)
    · have := clauseCount_lt_all _ children s hs
      omega

/-- An `if` statement has fewer clauses than there are nodes. -/
theorem clauseCount_lt_all (around : List Node) : ∀ (ps : List Placed) (s : Site),
    s ∈ nodesAll around ps → s.1.clauseCount < (nodesAll around ps).length
  | [], s, hs => by simp [nodesAll] at hs
  | p :: ps, s, hs => by
    simp only [nodesAll, List.mem_append, List.length_append] at hs ⊢
    rcases hs with hs | hs
    · have := clauseCount_lt around p s hs
      omega
    · have := clauseCount_lt_all around ps s hs
      omega

end

end Placed

/-- An analysis in which nothing went wrong. -/
structure Analysis.Faultless (t : SourceTree) (a : Analysis) : Prop where
  /-- Every scope was closed, and each was the latest one open. -/
  closed : TraceEvent.replay [] a.trace = some []
  /-- Symbols were created below existing scopes only. -/
  wellFormed : a.model.table.WellFormed
  /-- The numbers of symbols are words. -/
  symbols : a.model.table.size < Word.bound
  /-- The clauses of an `if` statement are counted by a word. -/
  clauses : ∀ s ∈ t.node.nodes, s.1.clauseCount < Word.bound
  answers : a.model.Answers

/-- **Nothing goes wrong within bounds.** -/
theorem Analysis.exists_faultless {t : SourceTree} (h : t.InBounds) :
    ∃ a, Analysis.ofTree t = .ok a ∧ a.Faultless t := by
  have hok := Analysis.ofTree_of_inBounds h
  have hwf := wellFormed_table hok
  have hreadings := t.length_readings_le
  have hentries := t.length_readings
  have hnodes := h.nodes
  have hanswers := SourceTree.answers h.size hwf
  refine ⟨_, hok, (SourceTree.recounts_trace hwf).replay, hwf, ?_, ?_, hanswers⟩
  · show t.model.table.size < 4294967296
    rw [t.size_model]
    omega
  · intro s hs
    have hlt := Placed.clauseCount_lt [] t.node.toPlaced s hs
    show s.1.clauseCount < 4294967296
    exact Nat.lt_trans (Nat.lt_trans hlt hnodes) (by decide)

/-- The root is a function, one clause has no tokens, and another has one without text. -/
def SourceTree.malformed : SourceTree :=
  ⟨⟨0⟩, {}, Kind.functionDecl.tag,
    [.node Kind.ifStatement.tag
      [.node Kind.elseClause.tag [],
       .node Kind.ifClause.tag [.token Kind.ident.tag "", .token Kind.ident.tag "x"]],
     .token Kind.whitespace.tag "\n",
     .node Kind.includeDirective.tag [.token Kind.headerName.tag "<a>"]]⟩

theorem Analysis.exists_faultless_malformed :
    SourceTree.malformed.InBounds ∧ ∃ a, Analysis.ofTree .malformed = .ok a ∧
      a.Faultless .malformed := by
  have hbounds : SourceTree.malformed.InBounds := ⟨by decide +kernel, by decide +kernel⟩
  exact ⟨hbounds, exists_faultless hbounds⟩

end LpcSymbols
