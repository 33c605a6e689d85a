/-
Files are analysed item by item.

The top-level items of a file can be cut into two rows, and each row analysed as a
file of its own.  The symbols of the whole are then those of the first row, and those
of the second behind them.  The second row starts further back in the text, so what
its symbols know of places is moved by the extent of the first row, and their numbers
go on where those of the first row stop.

Nothing that is found at an item depends on the items around it: the count of clauses
does not matter below the root (`locatedAll_root`), and a span never leaves its node,
as long as tokens have text.  So the two rows inside the whole are twins of the two
files, in the likeness that moves all places (`Likeness.moved`).
-/
import LpcSymbols.Proofs.Moving
import LpcSymbols.Proofs.Outcome
import LpcSymbols.Proofs.Renumbering

namespace LpcSymbols

/-! ### Symbols that are moved -/

/-- A fold that is moved by an extent.  Its last line is one above the line of its last token. -/
def Fold.shift (e : Extent) (f : Fold) : Fold where
  startLine := f.startLine + e.lines
  startCol := if f.startLine = 0 then f.startCol + e.columns else f.startCol
  endLine := f.endLine + e.lines
  endCol := if f.endLine = -1 then f.endCol + e.columns else f.endCol

/-- The data with a change of the fold, if they have one. -/
def SymbolData.mapFold (f : Fold → Fold) : SymbolData → SymbolData
  | .method fold => .method (f fold)
  | .selection branch fold => .selection branch (f fold)
  | .inlineClosure displayName shape fold => .inlineClosure displayName shape (f fold)
  | data => data

/-- The name of a symbol that is moved.  A generated name holds the number of a token, of the
symbol's own first token or of that of the statement around a clause. -/
def Symbol.NameMoves (e : Extent) (s : Symbol) (name : String) : Prop :=
  match s.data with
  | .define _ | .preprocessor _ | .ifStatement _ | .inlineClosure _ _ _ | .expression =>
    ∃ stem, s.data.Stem stem ∧ s.name = stem ++ "_" ++ toString s.span.start.index ∧
      name = stem ++ "_" ++ toString (s.span.start.index + e.tokens)
  | .selection branch _ => ∃ stem, ∃ index count : Nat, branch.Stem stem ∧
    s.name = stem ++ "_" ++ toString index ++ "_" ++ toString count ∧
    name = stem ++ "_" ++ toString (index + e.tokens) ++ "_" ++ toString count
  | _ => name = s.name

/-- The second symbol is the first, moved by an extent and `k` numbers further back. -/
structure Symbol.Translated (e : Extent) (k : Nat) (s s' : Symbol) : Prop where
  id : s'.id = s.id.shift k
  parent : s'.parent = s.parent.map (SymbolId.shift k)
  children : s'.children = s.children.map (SymbolId.shift k)
  data : s'.data = (s.data.shift k).mapFold (Fold.shift e)
  node : s'.node = ⟨s.node.kind, s.node.range.shift e.bytes⟩
  span : s'.span = s.span.shift e
  nameRange : s'.nameRange = s.nameRange.map (TextRange.shift e.bytes)
  name : s.NameMoves e s'.name

/-- The third model has the symbols of the first, and those of the second moved by an extent. -/
structure FileModel.Joined (e : Extent) (a b c : FileModel) : Prop where
  symbols : ∃ moved, c.table.toList.tail = a.table.toList.tail ++ moved ∧
    List.Forall₂ (Symbol.Translated e (a.table.size - 1)) b.table.toList.tail moved
  imports : c.imports = a.imports ++ b.imports.map (Import.shift (a.table.size - 1))
  omissions : c.stats.omissions = a.stats.omissions + b.stats.omissions
  maxDepth : c.stats.maxDepth = max a.stats.maxDepth b.stats.maxDepth

/-! ### The likeness of moved text -/

/-- All places are moved by an extent, and all numbers by `k`. -/
def Likeness.moved (e : Extent) (k : Nat) : Likeness where
  range r r' := r' = r.shift e.bytes
  span s s' := s' = s.shift e
  ids := k
  within := by
    intro start start' length offset size h
    have hstart : start' = start + e.bytes := congrArg TextRange.start h
    rw [hstart, Nat.add_right_comm]
    exact Element.ofLength_shift _ _ _

theorem Fold.ofSpan_shift {e : Extent} {s : Span} (hstart : (s.shift e).start.line < 2147483648)
    (hstop : (s.shift e).stop.line < 2147483648) :
    Fold.ofSpan (s.shift e) = (Fold.ofSpan s).shift e := by
  have hline : s.start.line + e.lines < 2147483648 := hstart
  have hline' : s.stop.line + e.lines < 2147483648 := hstop
  have h1 : (s.start.line : Int) - 1 = 0 ↔ s.start.line = 1 := by omega
  have h2 : (s.stop.line : Int) - 2 = -1 ↔ s.stop.line = 1 := by omega
  unfold Fold.ofSpan Fold.shift Span.shift TokenPos.shift
  simp only [Word.toSigned_of_lt hline, Word.toSigned_of_lt hline',
    Word.toSigned_of_lt (show s.start.line < 2147483648 by omega),
    Word.toSigned_of_lt (show s.stop.line < 2147483648 by omega), h1, h2, Fold.mk.injEq, true_and,
    and_true]
  omega

theorem SymbolData.fold?_shift (k : Nat) (data : SymbolData) : (data.shift k).fold? = data.fold? := by
  cases data <;> rfl

theorem SymbolData.refold_eq_mapFold {data : SymbolData} {f : Fold} {g : Fold → Fold}
    (h : ∀ old, data.fold? = some old → f = g old) : data.refold f = data.mapFold g := by
  cases data with
  | method fold => exact congrArg _ (h fold rfl)
  | selection branch fold => exact congrArg _ (h fold rfl)
  | inlineClosure displayName shape fold => exact congrArg _ (h fold rfl)
  | _ => rfl

theorem Draft.NamesAlike.nameMoves {e : Extent} {k : Nat} {s s' : Symbol}
    (hspan : s'.span = s.span.shift e) (h : s.toDraft.NamesAlike (.moved e k) s'.toDraft) :
    s.NameMoves e s'.name := by
  unfold Draft.NamesAlike at h
  unfold Symbol.NameMoves
  rw [hspan] at h
  cases hdata : s.data with
  | define _ | preprocessor _ | ifStatement _ | inlineClosure _ _ _ | expression =>
      rw [hdata] at h
      exact h
  | selection branch fold =>
      rw [hdata] at h
      obtain ⟨stem, owner, _, count, hstem, rfl, hname, hname'⟩ := h
      exact ⟨stem, owner.start.index, count, hstem, hname, hname'⟩
  | _ =>
      rw [hdata] at h
      exact h.symm

/-- An entry that is moved has a symbol that is moved, if its lines still fit. -/
theorem Entry.Alike.translated {e : Extent} {k : Nat} {x x' : Entry}
    (h : x.Alike (.moved e k) x')
    (hfold : ∀ f, x.draft.data.fold? = some f → f = Fold.ofSpan x.draft.span)
    (hstart : x'.draft.span.start.line < 2147483648)
    (hstop : x'.draft.span.stop.line < 2147483648) : x.symbol.Translated e k x'.symbol := by
  have hsymbol := h.symbol
  have hspan : x'.draft.span = x.draft.span.shift e := h.draft.span
  refine ⟨hsymbol.id, hsymbol.parent, hsymbol.children, ?_, ?_, hspan, ?_, ?_⟩
  · rw [hsymbol.draft.data]
    refine SymbolData.refold_eq_mapFold ?_
    intro f hf
    have hold : x.draft.data.fold? = some f := by
      rw [SymbolData.fold?_shift] at hf
      exact (SymbolData.fold?_withBranches _ _).symm.trans hf
    show Fold.ofSpan x'.draft.span = f.shift e
    rw [hspan] at hstart hstop ⊢
    rw [hfold f hold, Fold.ofSpan_shift hstart hstop]
  · have hkind : x.draft.node.kind = x'.draft.node.kind := h.draft.kind
    have hrange : x'.draft.node.range = x.draft.node.range.shift e.bytes := h.draft.range
    show x'.draft.node = ⟨x.draft.node.kind, x.draft.node.range.shift e.bytes⟩
    rw [hkind, ← hrange]
  · have hname := h.draft.nameRange
    show x'.draft.nameRange = x.draft.nameRange.map (TextRange.shift e.bytes)
    generalize x.draft.nameRange = r at hname
    generalize x'.draft.nameRange = r' at hname
    cases hname with
    | none => rfl
    | some hr => exact congrArg some hr
  · exact hsymbol.draft.name.nameMoves hspan

/-! ### Nothing is moved by nothing -/

/-- The extent of no text. -/
def Extent.zero : Extent := ⟨0, 0, 0, 0⟩

theorem Span.shift_zero (s : Span) : s.shift .zero = s := by
  simp [Span.shift, TokenPos.shift, Extent.zero]

theorem Fold.shift_zero (f : Fold) : f.shift .zero = f := by
  simp [Fold.shift, Extent.zero]

theorem SymbolData.mapFold_shift_zero (data : SymbolData) :
    data.mapFold (Fold.shift .zero) = data := by
  cases data <;> simp only [SymbolData.mapFold, Fold.shift_zero]

theorem Symbol.NameMoves.eq_of_zero {s : Symbol} {name : String} (h : s.NameMoves .zero name) :
    name = s.name := by
  unfold Symbol.NameMoves at h
  cases hdata : s.data with
  | define _ | preprocessor _ | ifStatement _ | inlineClosure _ _ _ | expression =>
      rw [hdata] at h
      obtain ⟨stem, -, hname, hname'⟩ := h
      rw [hname, hname']
      rfl
  | selection branch fold =>
      rw [hdata] at h
      obtain ⟨stem, index, count, -, hname, hname'⟩ := h
      rw [hname, hname']
      rfl
  | _ =>
      rw [hdata] at h
      exact h

theorem Symbol.Translated.eq_of_zero {s s' : Symbol} (h : s.Translated .zero 0 s') : s' = s := by
  obtain ⟨⟨name, data, node, span, nameRange⟩, id, parent, children⟩ := s
  obtain ⟨⟨name', data', node', span', nameRange'⟩, id', parent', children'⟩ := s'
  obtain ⟨hid, hparent, hchildren, hdata, hnode, hspan, hnameRange, hname⟩ := h
  have hrange : TextRange.shift Extent.zero.bytes = fun r => r := rfl
  have hids : SymbolId.shift 0 = fun i => i := funext SymbolId.shift_zero
  simp only [hids, hrange, Option.map_id_fun', List.map_id_fun', id_eq, SymbolData.shift_zero,
    SymbolData.mapFold_shift_zero, Span.shift_zero] at hid hparent hchildren hdata hnode hspan hnameRange
  obtain rfl := hname.eq_of_zero
  subst hid hparent hchildren hdata hnode hspan hnameRange
  rfl

/-! ### Findings of items -/

namespace Located

/-- The count of clauses matters to no item of a file. -/
theorem atSite_root (l : Layout) (count : Nat) (n root : Node) (below : List Located) :
    atSite l count (n, [root]) below = atSite l 0 (n, [root]) below := by
  have hread : Site.reading? l count (n, [root]) = Site.reading? l 0 (n, [root]) := by
    unfold Site.reading?
    cases n.kind <;> rfl
  rw [atSite, atSite, hread]

end Located

theorem locatedAll_root (l : Layout) (root : Node) (late : Bool) (count : Nat) (ps : List Placed) :
    Placed.locatedAll l [root] late count ps = Placed.locatedAll l [root] late 0 ps := by
  induction ps generalizing count with
  | nil => rfl
  | cons p ps ih =>
      have hhead : Placed.located l [root] count p = Placed.located l [root] 0 p := by
        cases p with
        | token t => rfl
        | node kind range before children => exact Located.atSite_root l count _ root _
      rw [Placed.locatedAll, Placed.locatedAll, hhead, ih (count + p.clauses), ih (0 + p.clauses)]

/-- What is found in two rows of items is found in each of them. -/
theorem locatedAll_root_append (l : Layout) (root : Node) (late : Bool) (ps qs : List Placed) :
    Placed.locatedAll l [root] late 0 (ps ++ qs)
      = Placed.locatedAll l [root] late 0 ps ++ Placed.locatedAll l [root] late 0 qs := by
  induction ps with
  | nil => rfl
  | cons p ps ih =>
      rw [List.cons_append, Placed.locatedAll, Placed.locatedAll, locatedAll_root _ _ _ _ (ps ++ qs),
        locatedAll_root _ _ _ _ ps, ih, List.append_assoc]

namespace SourceTree

variable {p t w : SourceTree}

/-- The root is that of a source file. -/
def IsFile (t : SourceTree) : Prop := t.node.kind = .sourceFile

theorem isFile_ofItems (file : FileId) (dialect : Dialect) (items : List Element) :
    (ofItems file dialect items).IsFile := Kind.ofTag_tag .sourceFile

/-- Items inside a file are twins of the same items alone, moved by the extent of what is before
them. -/
theorem Follows.twins (h : p.Follows t w) (hw : w.WellNumbered) (k : Nat) :
    Placed.Twins (Likeness.moved p.extent k).range
      ((Likeness.moved p.extent k).Places t.layout w.layout) (Element.placeAll 0 0 t.children)
      (Element.placeAll p.size (Element.leafCountAll p.children) t.children) := by
  have htwins := Element.twins_moved p.size t.children 0 0 (Element.leafCountAll p.children)
  rw [Nat.zero_add] at htwins
  refine htwins.strengthen [t.node] [w.node] ?_
  intro s hs s' hs' hss'
  have hmem : s ∈ t.node.nodes := List.mem_cons_of_mem _ hs
  have hmem' : s' ∈ w.node.nodes := by
    refine List.mem_cons_of_mem _ ?_
    obtain ⟨behind, hchildren⟩ := h
    show s' ∈ Placed.nodesAll [w.node] (Element.placeAll 0 0 w.children)
    rw [hchildren, Element.placeAll_append, Element.placeAll_append, Placed.nodesAll_append,
      Placed.nodesAll_append, Nat.zero_add, Nat.zero_add]
    exact List.mem_append_right _ (List.mem_append_left _ hs')
  have hspan := h.span?_moved hw (t.standsIn_nodes hmem) (w.standsIn_nodes hmem') hss'.own
  refine ⟨hss'.own.range, ?_⟩
  rw [hspan]
  cases t.layout.span? s.1 with
  | none => exact .none
  | some span => exact .some rfl

/-- What is found at items inside a file is what is found at them alone. -/
theorem Follows.located (h : p.Follows t w) (hw : w.WellNumbered) (htfile : t.IsFile)
    (hwfile : w.IsFile) (k : Nat) :
    Located.Alike (.moved p.extent k) (t.located t.layout)
      (Placed.locatedAll w.layout [w.node] false 0
        (Element.placeAll p.size (Element.leafCountAll p.children) t.children)) :=
  located_alike (h.twins hw k) (.cons ⟨htfile.trans hwfile.symm, .inl htfile⟩ .nil) false 0

end SourceTree

/-! ### Two rows of items -/

theorem Located.tallyAll_append (depth : Nat) (fs gs : List Located) :
    tallyAll depth (fs ++ gs) = (tallyAll depth fs).join (tallyAll depth gs) := by
  induction fs with
  | nil => simp [tallyAll, Stats.join]
  | cons f fs ih => rw [List.cons_append, tallyAll, tallyAll, ih, Stats.join_assoc]

namespace SourceTree

variable (file : FileId) (dialect : Dialect) (xs ys : List Element)

theorem follows_first : (ofItems file dialect []).Follows (ofItems file dialect xs)
    (ofItems file dialect (xs ++ ys)) := ⟨ys, rfl⟩

theorem follows_second : (ofItems file dialect xs).Follows (ofItems file dialect ys)
    (ofItems file dialect (xs ++ ys)) := ⟨[], by simp [ofItems]⟩

theorem size_append : (ofItems file dialect (xs ++ ys)).size
    = (ofItems file dialect xs).size + (ofItems file dialect ys).size :=
  Element.sizeAll_append xs ys

/-- The findings of the two rows, one behind the other. -/
theorem located_append (hw : (ofItems file dialect (xs ++ ys)).WellNumbered) (k : Nat) :
    ∃ fs gs, (ofItems file dialect (xs ++ ys)).located (ofItems file dialect (xs ++ ys)).layout
        = fs ++ gs ∧
      Located.Alike (.moved .zero 0)
        ((ofItems file dialect xs).located (ofItems file dialect xs).layout) fs ∧
      Located.Alike (.moved (ofItems file dialect xs).extent k)
        ((ofItems file dialect ys).located (ofItems file dialect ys).layout) gs := by
  refine ⟨_, _, ?_,
    (follows_first file dialect xs ys).located hw (isFile_ofItems ..) (isFile_ofItems ..) 0,
    (follows_second file dialect xs ys).located hw (isFile_ofItems ..) (isFile_ofItems ..) k⟩
  show Placed.locatedAll _ _ false 0 (Element.placeAll 0 0 (xs ++ ys)) = _
  rw [Element.placeAll_append, locatedAll_root_append, Nat.zero_add, Nat.zero_add]
  rfl

variable {file dialect xs ys}

/-- The symbols of entries that are moved inside a file. -/
theorem translated_of_entries {t w : SourceTree} {e : Extent} {k : Nat} {es : List Entry}
    (hsize : w.size < 2147483647) (hmem : ∀ x ∈ es, x ∈ w.entries)
    (h : List.Forall₂ (Entry.Alike (.moved e k)) t.entries es) :
    List.Forall₂ (Symbol.Translated e k) (t.entries.map Entry.symbol) (es.map Entry.symbol) := by
  rw [List.forall₂_map_left_iff, List.forall₂_map_right_iff]
  refine imp_related_of_mem h ?_
  intro x hx x' hx' hxx'
  obtain ⟨hstart, hstop⟩ := w.span_lines (isOf_of_entry (hmem x' hx')).span
  exact hxx'.translated (isOf_of_entry hx).fold (by omega) (by omega)

theorem eq_of_translated_zero {ss ss' : List Symbol}
    (h : List.Forall₂ (Symbol.Translated .zero 0) ss ss') : ss' = ss := by
  induction h with
  | nil => rfl
  | cons hs _ ih => rw [hs.eq_of_zero, ih]

/-- Both rows are counted on top of the symbol of the file. -/
theorem stats_append (hw : (ofItems file dialect (xs ++ ys)).WellNumbered) : ∃ a b : Stats,
    (ofItems file dialect xs).stats = Stats.join ⟨1, 1, 1, 0⟩ a ∧
    (ofItems file dialect ys).stats = Stats.join ⟨1, 1, 1, 0⟩ b ∧
    (ofItems file dialect (xs ++ ys)).stats = Stats.join ⟨1, 1, 1, 0⟩ (a.join b) := by
  obtain ⟨fs, gs, hlocated, hfs, hgs⟩ := located_append file dialect xs ys hw 0
  refine ⟨_, _, rfl, rfl, ?_⟩
  rw [stats, hlocated, Located.tallyAll_append, ← hfs.tallyAll, ← hgs.tallyAll]

/-- The entries of the two rows, those of the second numbered on. -/
theorem entries_append (hw : (ofItems file dialect (xs ++ ys)).WellNumbered) : ∃ es es',
    (ofItems file dialect (xs ++ ys)).entries = es ++ es' ∧
    List.Forall₂ (Entry.Alike (.moved .zero 0)) (ofItems file dialect xs).entries es ∧
    List.Forall₂ (Entry.Alike
      (.moved (ofItems file dialect xs).extent (ofItems file dialect xs).entries.length))
      (ofItems file dialect ys).entries es' := by
  obtain ⟨fs, gs, hlocated, hfs, hgs⟩ :=
    located_append file dialect xs ys hw (ofItems file dialect xs).entries.length
  have hcount : Located.symbolCountAll fs = (ofItems file dialect xs).entries.length := by
    rw [← hfs.symbolCountAll]
    exact (Located.length_entriesAll ..).symm
  refine ⟨_, _, ?_, hfs.entriesAll rfl Nat.one_pos rfl, hgs.entriesAll rfl Nat.one_pos rfl⟩
  rw [entries, hlocated, Located.entriesAll_append, hcount]
  rfl

/-- **The model of two rows of items is that of the first, and that of the second behind it.** -/
theorem joined_append (hw : (ofItems file dialect (xs ++ ys)).WellNumbered)
    (hsize : (ofItems file dialect (xs ++ ys)).size < 2147483647) :
    FileModel.Joined (ofItems file dialect xs).extent (ofItems file dialect xs).model
      (ofItems file dialect ys).model (ofItems file dialect (xs ++ ys)).model := by
  obtain ⟨es, es', hentries, hfirst, hsecond⟩ := entries_append hw
  obtain ⟨a, b, hxs, hys, hall⟩ := stats_append hw
  have hids : (ofItems file dialect xs).model.table.size - 1
      = (ofItems file dialect xs).entries.length := by
    rw [size_model, Nat.add_sub_cancel]
  have hsame := eq_of_translated_zero (translated_of_entries hsize
    (fun x hx => by rw [hentries]; exact List.mem_append_left _ hx) hfirst)
  have hmoved := translated_of_entries hsize
    (fun x hx => by rw [hentries]; exact List.mem_append_right _ hx) hsecond
  refine ⟨⟨es'.map Entry.symbol, ?_, ?_⟩, ?_, ?_, ?_⟩
  · rw [symbols_model, symbols_model, hentries, List.map_append, hsame]
  · rw [hids]
    exact hmoved
  · have himports := Entry.imports_alike hfirst
    rw [show Import.shift (Likeness.moved .zero 0).ids = id from funext Import.shift_zero,
      List.map_id] at himports
    show Entry.imports _ = Entry.imports _ ++ (Entry.imports _).map _
    rw [hids, hentries, ← himports, Entry.imports, List.filterMap_append]
    exact congrArg _ (Entry.imports_alike hsecond)
  · show (stats _).omissions = (stats _).omissions + (stats _).omissions
    rw [hxs, hys, hall]
    simp only [Stats.join, Nat.zero_add]
  · show (stats _).maxDepth = max (stats _).maxDepth (stats _).maxDepth
    rw [hxs, hys, hall]
    simp only [Stats.join]
    omega

/-- Two rows fit if they fit together. -/
theorem fits_of_append (hw : (ofItems file dialect (xs ++ ys)).WellNumbered)
    (hsize : (ofItems file dialect (xs ++ ys)).size < 2147483647)
    (h : (ofItems file dialect (xs ++ ys)).Fits) :
    (ofItems file dialect xs).Fits ∧ (ofItems file dialect ys).Fits := by
  obtain ⟨a, b, hxs, hys, hall⟩ := stats_append hw
  obtain ⟨hopened, hclosed, homissions⟩ := h.stats
  rw [size_append] at hsize
  have hbound : 2147483647 < Word.bound := by decide
  simp only [hall, Stats.join] at hopened hclosed homissions
  refine ⟨⟨by omega, root_fits (by omega), fun _ he => draft_fits (by omega) he, ?_⟩,
    ⟨by omega, root_fits (by omega), fun _ he => draft_fits (by omega) he, ?_⟩⟩
  · rw [hxs]
    exact ⟨by simp only [Stats.join]; omega, by simp only [Stats.join]; omega,
      by simp only [Stats.join]; omega⟩
  · rw [hys]
    exact ⟨by simp only [Stats.join]; omega, by simp only [Stats.join]; omega,
      by simp only [Stats.join]; omega⟩

end SourceTree

/-- **Files are analysed item by item.**  The symbols of a file are those of its first items
alone, and behind them those of the other items alone, moved by the extent of the first.  No
token may be empty, and the text has to be shorter than `2 ^ 31 - 1` bytes. -/
theorem Analysis.joined_of_append (file : FileId) (dialect : Dialect) (xs ys : List Element)
    (htext : (SourceTree.ofItems file dialect (xs ++ ys)).AllText)
    (hsize : (SourceTree.ofItems file dialect (xs ++ ys)).size < 2147483647) :
    ((SourceTree.ofItems file dialect (xs ++ ys)).node.nodes.length < 4294967295 →
      ∃ c, Analysis.ofTree (.ofItems file dialect (xs ++ ys)) = .ok c) ∧
    ∀ c, Analysis.ofTree (.ofItems file dialect (xs ++ ys)) = .ok c → ∃ a b,
      Analysis.ofTree (.ofItems file dialect xs) = .ok a ∧
      Analysis.ofTree (.ofItems file dialect ys) = .ok b ∧
      FileModel.Joined (SourceTree.ofItems file dialect xs).extent a.model b.model c.model := by
  refine ⟨fun hnodes => ⟨_, ofTree_of_inBounds ⟨hsize, hnodes⟩⟩, ?_⟩
  intro c hc
  obtain ⟨hfits, rfl⟩ := ofTree_ok_iff.mp hc
  have hnumbered := htext.wellNumbered hfits.size
  obtain ⟨hxs, hys⟩ := SourceTree.fits_of_append hnumbered hsize hfits
  exact ⟨_, _, ofTree_ok_iff.mpr ⟨hxs, rfl⟩, ofTree_ok_iff.mpr ⟨hys, rfl⟩,
    SourceTree.joined_append hnumbered hsize⟩

/-- An include, and the first columns of the next line. -/
def Element.inclusion : List Element :=
  [.node Kind.includeDirective.tag [.token Kind.headerName.tag "<a.h>"],
   .token Kind.whitespace.tag "\n  "]

/-- A function with a condition in it. -/
def Element.function : List Element :=
  [.node Kind.functionDecl.tag
    [.node Kind.functionHeader.tag [.node Kind.name.tag [.token Kind.ident.tag "f"]],
     .node Kind.ifStatement.tag
      [.node Kind.ifClause.tag [.node Kind.identExpr.tag [.token Kind.ident.tag "x"]]]]]

theorem Analysis.joined_of_append_inclusion : ∃ a b c,
    Analysis.ofTree (.ofItems ⟨0⟩ {} Element.inclusion) = .ok a ∧
      Analysis.ofTree (.ofItems ⟨0⟩ {} Element.function) = .ok b ∧
      Analysis.ofTree (.ofItems ⟨0⟩ {} (Element.inclusion ++ Element.function)) = .ok c ∧
      c.model.table.size = 6 ∧
      (SourceTree.ofItems ⟨0⟩ {} Element.inclusion).extent = ⟨8, 2, 1, 2⟩ ∧
      FileModel.Joined (SourceTree.ofItems ⟨0⟩ {} Element.inclusion).extent a.model b.model
        c.model := by
  have htext : (SourceTree.ofItems ⟨0⟩ {} (Element.inclusion ++ Element.function)).AllText := by
    unfold SourceTree.AllText
    decide +kernel
  have htable : (Analysis.ofTree (.ofItems ⟨0⟩ {} (Element.inclusion ++ Element.function))).toOption.map
      (·.model.table.size) = some 6 := by decide +kernel
  obtain ⟨hok, hjoined⟩ := joined_of_append ⟨0⟩ {} Element.inclusion Element.function htext
    (by decide +kernel)
  obtain ⟨c, hc⟩ := hok (by decide +kernel)
  obtain ⟨a, b, ha, hb, hab⟩ := hjoined c hc
  rw [hc] at htable
  exact ⟨a, b, c, ha, hb, hc, Option.some.inj htable, by decide +kernel, hab⟩

end LpcSymbols
