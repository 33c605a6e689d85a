/-
Highlights stand at the names.

A highlight is known by line, column and length.  Lines and columns are turned back into offsets
(`LineMap.offset?_lineCol`), so a highlight stands for the range of a name, and each symbol with
such a range has one, because only the symbols without a name in the text have no class.  Sorting
changes nothing but the order, and symbols can be put in the order of their highlights
(`FileModel.exists_order`).
-/
import LpcSymbols.Proofs.Names
import LpcSymbols.Proofs.Outline
import Mathlib.Data.List.Perm.Basic

namespace LpcSymbols

/-! ### The order of highlights -/

namespace Highlight

theorem startsBefore_iff {a b : Highlight} : a.startsBefore b = true ↔
    a.place.line < b.place.line ∨ a.place.line = b.place.line ∧ a.place.col ≤ b.place.col := by
  simp [startsBefore]

theorem startsBefore_trans (a b c : Highlight) (hab : a.startsBefore b = true)
    (hbc : b.startsBefore c = true) : a.startsBefore c = true := by
  rw [startsBefore_iff] at *
  omega

theorem startsBefore_total (a b : Highlight) : (a.startsBefore b || b.startsBefore a) = true := by
  rw [Bool.or_eq_true, startsBefore_iff, startsBefore_iff]
  omega

/-- A highlight has the place and the length of a name, and its class. -/
theorem ofSymbol?_spec {lines : LineMap} {s : Symbol} {h : Highlight}
    (hh : ofSymbol? lines s = some h) : ∃ r, s.nameRange = some r ∧ h.place = lines.lineCol r.start ∧
      h.length = r.length ∧ NameClass.ofData? s.data = some h.nameClass := by
  obtain ⟨r, hr, hh⟩ := Option.bind_eq_some_iff.mp hh
  obtain ⟨nameClass, hclass, hh⟩ := Option.bind_eq_some_iff.mp hh
  obtain rfl := Option.some.inj hh
  exact ⟨r, hr, rfl, rfl, hclass⟩

end Highlight

/-- What a partial function gives, beside what it gives it for. -/
theorem forall₂_filterMap {α β : Type} (f : α → Option β) (l : List α) :
    List.Forall₂ (fun b a => f a = some b) (l.filterMap f) (l.filter fun a => (f a).isSome) := by
  induction l with
  | nil => exact .nil
  | cons a l ih =>
      cases hfa : f a with
      | none => simpa [hfa] using ih
      | some b => simpa [hfa] using ih

namespace FileModel

/-- **There is one highlight for each symbol that has one, and they are in the order of their
places.** -/
theorem exists_order (m : FileModel) : ∃ order : List Symbol,
    order.Perm (m.table.toList.filter fun s => (Highlight.ofSymbol? m.lines s).isSome) ∧
      List.Forall₂ (fun h s => Highlight.ofSymbol? m.lines s = some h) m.highlights order ∧
      m.highlights.Pairwise fun a b => a.startsBefore b = true := by
  have hsorted := List.pairwise_mergeSort Highlight.startsBefore_trans Highlight.startsBefore_total
    (m.table.toList.filterMap (Highlight.ofSymbol? m.lines))
  obtain ⟨order, hrel, hperm⟩ := List.perm_comp_forall₂ (List.mergeSort_perm _ _)
    (forall₂_filterMap (Highlight.ofSymbol? m.lines) m.table.toList)
  exact ⟨order, hperm, hrel, hsorted⟩

end FileModel

/-! ### The names in a file -/

/-- Only symbols without a name in the text have no class. -/
theorem NameClass.isSome_ofData? {data : SymbolData} (h : data.kind.isNameless = false) :
    (ofData? data).isSome = true := by
  cases data with
  | reference usage => cases usage <;> rfl
  | _ => first | rfl | simp [SymbolData.kind, SymbolKind.isNameless] at h

/-- An entry of an outline, and how the name that it shows is related to the range of the name of
its symbol, if that is a macro. -/
structure FileModel.ShowsName (m : FileModel) (text : String) (x : Nat × OutlineEntry)
    (s : Symbol) : Prop where
  entry : ∃ inside, x.2 = .ofSymbol m.lines s inside
  standsAt : s.kind = .define → ∀ r, s.nameRange = some r → Text.StandsAt text r x.2.name
  none_iff : s.kind = .define → (s.nameRange = none ↔ x.2.name = "")

/-- A highlight is that of a symbol: it stands where the symbol's name stands. -/
structure FileModel.MarksName (m : FileModel) (h : Highlight) (s : Symbol) (r : TextRange) :
    Prop where
  range : s.nameRange = some r
  offset : m.lines.offset? h.place = some r.start
  length : h.length = r.length
  nameClass : NameClass.ofData? s.data = some h.nameClass

/-- The ranges of names in a model are where the names stand in the tree's text. -/
structure SourceTree.NamesExact (t : SourceTree) (m : FileModel) : Prop where
  /-- Functions, variables, parameters, references and included files are spelled out. -/
  spelled : ∀ s ∈ m.table.toList, s.kind.isSpelled = true →
    ∃ r, s.nameRange = some r ∧ Text.StandsAt t.text r s.name
  /-- Macros are spelled as the outline shows them. -/
  defined : ∃ entries, m.outline = .ok entries ∧
    List.Forall₂ (m.ShowsName t.text) (OutlineEntry.flattenAll 0 entries) m.listedSymbols
  /-- An inherited file is named by the target of the statement, and by every node that spans the
  same text. -/
  inherited : ∀ s ∈ m.table.toList, s.kind = .inheritFile → ∃ r, s.nameRange = some r ∧
    (∃ site ∈ t.node.nodes, site.1.kind = .inheritTarget ∧ site.1.range = r) ∧
    ∀ site ∈ t.node.nodes, site.1.range = r → site.1.significantText = s.name
  nameless : ∀ s ∈ m.table.toList, s.kind.isNameless = true → s.nameRange = none
  /-- There is one highlight for each name, and the highlights are in the order of their places. -/
  highlighted : ∃ order : List Symbol,
    order.Perm (m.table.toList.filter (·.nameRange.isSome)) ∧
    List.Forall₂ (fun h s => ∃ r, m.MarksName h s r) m.highlights order
  sorted : m.highlights.Pairwise fun a b =>
    a.place.line < b.place.line ∨ a.place.line = b.place.line ∧ a.place.col ≤ b.place.col

namespace SourceTree

variable {t : SourceTree} {s : Symbol}

/-- Every symbol of a table is that of the file, or it has an entry. -/
theorem fileSymbol_or_entry (hs : s ∈ t.model.table.toList) :
    s = t.fileSymbol ∨ ∃ e ∈ t.entries, e.symbol = s := by
  rw [toList_model] at hs
  exact (List.mem_cons.mp hs).imp_right List.mem_map.mp

theorem entry_of_mem (hs : s ∈ t.model.table.toList) (hkind : s.kind ≠ .file) :
    ∃ e ∈ t.entries, e.symbol = s := by
  rcases fileSymbol_or_entry hs with rfl | hentry
  · exact absurd rfl hkind
  · exact hentry

theorem spelled_model (hs : s ∈ t.model.table.toList) (hkind : s.kind.isSpelled = true) :
    ∃ r, s.nameRange = some r ∧ Text.StandsAt t.text r s.name := by
  have hfile : s.kind ≠ .file := by
    intro hfile
    simp [hfile, SymbolKind.isSpelled] at hkind
  obtain ⟨e, he, rfl⟩ := entry_of_mem hs hfile
  obtain ⟨_, hreads⟩ := reads_of_entry he
  rw [e.kind_symbol] at hkind
  obtain ⟨tok, htok, hname, hrange⟩ := hreads.spelled hkind
  refine ⟨tok.range, hrange, ?_⟩
  rw [show e.symbol.name = tok.text from hname]
  exact standsAt_token (mem_tokens_of_site (site_mem_nodes he) htok)

theorem nameless_model (hs : s ∈ t.model.table.toList) (hkind : s.kind.isNameless = true) :
    s.nameRange = none := by
  rcases fileSymbol_or_entry hs with rfl | ⟨e, he, rfl⟩
  · rfl
  · obtain ⟨_, hreads⟩ := reads_of_entry he
    rw [e.kind_symbol] at hkind
    exact hreads.nameless hkind

theorem inherited_model (hs : s ∈ t.model.table.toList) (hkind : s.kind = .inheritFile) :
    ∃ r, s.nameRange = some r ∧
      (∃ site ∈ t.node.nodes, site.1.kind = .inheritTarget ∧ site.1.range = r) ∧
      ∀ site ∈ t.node.nodes, site.1.range = r → site.1.significantText = s.name := by
  obtain ⟨e, he, rfl⟩ := entry_of_mem hs (by simp [hkind])
  obtain ⟨_, hreads⟩ := reads_of_entry he
  rw [e.kind_symbol] at hkind
  obtain ⟨target, -, htarget, hname, hrange⟩ := hreads.inherited hkind
  have hmem := mem_nodes_of_childNodes (site_mem_nodes he) (List.mem_of_find?_eq_some htarget)
  have htkind : target.kind = .inheritTarget := by
    simpa using List.find?_some htarget
  refine ⟨target.range, hrange, ⟨_, hmem, htkind, rfl⟩, ?_⟩
  intro site hsite hsame
  rw [show e.symbol.name = target.significantText from hname.symm, significantText_eq hsite,
    hsame, significantText_eq hmem]

/-- The body of a macro starts with the name that the outline shows. -/
theorem showsName_model {x : Nat × OutlineEntry} (hs : s ∈ t.model.table.toList)
    (hx : ∃ inside, x.2 = .ofSymbol t.model.lines s inside) : t.model.ShowsName t.text x s := by
  have hdefine : s.kind = .define → (∀ r, s.nameRange = some r → Text.StandsAt t.text r x.2.name) ∧
      (s.nameRange = none ↔ x.2.name = "") := by
    intro hkind
    obtain ⟨e, he, rfl⟩ := entry_of_mem hs (by simp [hkind])
    obtain ⟨_, hreads⟩ := reads_of_entry he
    rw [e.kind_symbol] at hkind
    obtain ⟨line, hline, hdata, hrange⟩ := hreads.defined hkind
    have hbody : e.symbol.data = .define e.site.1.defineBody := by
      show e.draft.data.withBranches e.owned = _
      rw [hdata]
      rfl
    have hname : x.2.name = Text.leadingName e.site.1.defineBody := by
      obtain ⟨inside, hx⟩ := hx
      simp [hx, OutlineEntry.ofSymbol, OutlineEntry.describe, hbody, OutlineEntry.name]
    have hstands : Text.StandsAt t.text line.range line.text := standsAt_token
      (mem_tokens_of_site (site_mem_nodes he) (Node.mem_tokens_of_token? hline))
    rw [hname, show e.symbol.nameRange = Node.macroNameRange? line from hrange]
    exact ⟨fun r hr => Node.standsAt_macroName hstands hline hr,
      Node.macroNameRange?_eq_none_iff hline⟩
  exact ⟨hx, fun hkind => (hdefine hkind).1, fun hkind => (hdefine hkind).2⟩

theorem isSome_ofSymbol?_model (hs : s ∈ t.model.table.toList) :
    (Highlight.ofSymbol? t.model.lines s).isSome = s.nameRange.isSome := by
  cases hr : s.nameRange with
  | none => simp [Highlight.ofSymbol?, hr]
  | some r =>
      have hkind : s.data.kind.isNameless = false := by
        rw [Bool.eq_false_iff]
        intro hkind
        rw [nameless_model hs hkind] at hr
        simp at hr
      obtain ⟨nameClass, hclass⟩ := Option.isSome_iff_exists.mp (NameClass.isSome_ofData? hkind)
      simp [Highlight.ofSymbol?, hr, hclass]

/-- The place of a name leads back to the name. -/
theorem marksName_model {h : Highlight} (hs : s ∈ t.model.table.toList)
    (hh : Highlight.ofSymbol? t.model.lines s = some h) : ∃ r, t.model.MarksName h s r := by
  obtain ⟨r, hr, hplace, hlength, hclass⟩ := Highlight.ofSymbol?_spec hh
  have hmem : r ∈ s.range :: s.nameRange.toList := by simp [hr]
  obtain ⟨hle, hstop⟩ := range_bounds hs hmem
  refine ⟨r, hr, ?_, hlength, hclass⟩
  rw [hplace]
  exact LineMap.offset?_lineCol t.text (Nat.le_trans hle hstop)

/-- **There is one highlight for each symbol with a name, it stands where the name stands, and the
highlights are in the order of their places.** -/
theorem exists_order_model (t : SourceTree) : ∃ order : List Symbol,
    order.Perm (t.model.table.toList.filter (·.nameRange.isSome)) ∧
      List.Forall₂ (fun h s => Highlight.ofSymbol? t.model.lines s = some h ∧
        ∃ r, t.model.MarksName h s r) t.model.highlights order ∧
      t.model.highlights.Pairwise fun a b => a.startsBefore b = true := by
  obtain ⟨order, hperm, hmarks, hsorted⟩ := t.model.exists_order
  refine ⟨order, ?_, ?_, hsorted⟩
  · rw [← List.filter_congr fun s hs => isSome_ofSymbol?_model hs]
    exact hperm
  · refine imp_related_of_mem hmarks ?_
    intro h _ s hs hh
    exact ⟨hh, marksName_model (List.mem_filter.mp (hperm.mem_iff.mp hs)).1 hh⟩

end SourceTree

/-- **The ranges of names are where the names stand, and highlights stand there too.** -/
theorem Analysis.names_exact (t : SourceTree) :
    (t.InBounds → ∃ a, Analysis.ofTree t = .ok a) ∧
      ∀ a, Analysis.ofTree t = .ok a → t.NamesExact a.model := by
  refine ⟨fun h => ⟨_, Analysis.ofTree_of_inBounds h⟩, ?_⟩
  intro a ha
  have hwf := wellFormed_table ha
  obtain ⟨-, rfl⟩ := Analysis.ofTree_ok_iff.mp ha
  obtain ⟨order, hperm, hmarks, hsorted⟩ := t.exists_order_model
  refine ⟨fun s hs => SourceTree.spelled_model hs,
    ⟨t.outlineEntries, SourceTree.outline_model hwf, ?_⟩,
    fun s hs => SourceTree.inherited_model hs, fun s hs => SourceTree.nameless_model hs,
    ⟨order, hperm, hmarks.imp fun _ _ hh => hh.2⟩, hsorted.imp Highlight.startsBefore_iff.mp⟩
  refine imp_related_of_mem (SourceTree.ofSymbol_model hwf) ?_
  intro x _ s hs hx
  exact SourceTree.showsName_model (List.mem_filter.mp hs).1 hx

/-- Two macro definitions, one of them without a name, an inherit statement whose target has a
blank in it, and a function. -/
def SourceTree.declaring : SourceTree :=
  .ofItems ⟨0⟩ {}
    [.token Kind.comment.tag "/* é */",
     .node Kind.defineDirective.tag [.token Kind.defineLine.tag "#define MAX(a) a"],
     .node Kind.defineDirective.tag [.token Kind.defineLine.tag "#define"],
     .node Kind.inheritStatement.tag
      [.node Kind.inheritTarget.tag
        [.token Kind.stringLit.tag "\"a\"", .token Kind.whitespace.tag " ",
         .token Kind.stringLit.tag "\"b\""]],
     .node Kind.functionDecl.tag
      [.node Kind.functionHeader.tag [.node Kind.name.tag [.token Kind.ident.tag "f"]]]]

theorem Analysis.names_exact_declaring :
    SourceTree.declaring.InBounds ∧ ∃ a, Analysis.ofTree .declaring = .ok a ∧
      SourceTree.declaring.NamesExact a.model ∧
      (a.model.table.toList.map fun s => (s.name, s.nameRange)) =
        [("file#0", none), ("#define_1", some ⟨16, 19⟩), ("#define_2", none),
         ("\"a\"\"b\"", some ⟨31, 38⟩), ("f", some ⟨38, 39⟩)] ∧
      a.model.highlights =
        [⟨⟨0, 16⟩, 3, .macroName⟩, ⟨⟨0, 31⟩, 7, .namespaceName⟩, ⟨⟨0, 38⟩, 1, .functionName⟩] := by
  have hbounds : SourceTree.declaring.InBounds := ⟨by decide +kernel, by decide +kernel⟩
  have hnames : ((Analysis.ofTree .declaring).toOption.map fun a =>
      (a.model.table.toList.map fun s => (s.name, s.nameRange),
       a.model.table.toList.filterMap (Highlight.ofSymbol? a.model.lines))) = some
        ([("file#0", none), ("#define_1", some ⟨16, 19⟩), ("#define_2", none),
          ("\"a\"\"b\"", some ⟨31, 38⟩), ("f", some ⟨38, 39⟩)],
         [⟨⟨0, 16⟩, 3, .macroName⟩, ⟨⟨0, 31⟩, 7, .namespaceName⟩,
          ⟨⟨0, 38⟩, 1, .functionName⟩]) := by decide +kernel
  obtain ⟨hok, hexact⟩ := names_exact .declaring
  obtain ⟨a, ha⟩ := hok hbounds
  rw [ha] at hnames
  obtain ⟨hsymbols, hhighlights⟩ := Prod.mk.inj (Option.some.inj hnames)
  refine ⟨hbounds, a, ha, hexact a ha, hsymbols, ?_⟩
  -- The symbols are in the order of their names already.
  rw [FileModel.highlights, hhighlights]
  exact List.mergeSort_of_pairwise (by decide)

end LpcSymbols
