/-
Imports, their symbols and their links.

An import is listed when its symbol is recorded, so the list and the table grow side by side, and
whatever is left out of one is left out of the other: the list can be read off the table
(`imports_model`).  A link goes the other way.  It looks the symbol up again by its number and
turns the range of its name into a region, and from the ends of the region the range is found
again (`LineMap.offset?_lineCol`).  That range is where the target is written, and the significant
text there is the target (`SourceTree.significantTextAt`).
-/
import LpcSymbols.Proofs.Highlights

namespace LpcSymbols

/-- Symbols of the kind stand for imported files. -/
def SymbolKind.isImport : SymbolKind → Bool
  | .includeFile | .inheritFile => true
  | _ => false

/-- What the symbol of an import of the kind stands for. -/
def ImportKind.data : ImportKind → String → SymbolData
  | .includeFile => .includeFile
  | .inheritFile => .inheritFile

/-- The import is that of the symbol. -/
structure Import.Lists (u : Import) (s : Symbol) : Prop where
  symbol : u.symbol = s.id
  data : s.data = u.kind.data u.target
  name : s.name = u.target

/-- What the node of a site imports, and the range at which it names it: a token of an include
directive, or the target of an inherit statement as a whole. -/
inductive Site.Targets (s : Site) : ImportKind → String → TextRange → Prop
  | includeFile {target : Token} (kind : s.1.kind = .includeDirective)
      (part : s.1.includeTarget? = some target) :
      Targets s .includeFile target.text target.range
  | inheritFile {target : Node} (kind : s.1.kind = .inheritStatement)
      (part : s.1.inheritTarget? = some target) :
      Targets s .inheritFile target.significantText target.range

/-- The text at a range, without blanks and comments. -/
def SourceTree.significantTextAt (t : SourceTree) (r : TextRange) : String :=
  Token.textAll (t.node.tokens.filter (contributes r))

/-- The link is that of the import, and it starts and stops with the target where that is
written. -/
structure SourceTree.LinkOf (t : SourceTree) (m : FileModel) (link : Link) (u : Import) : Prop where
  kind : link.kind = u.kind
  target : link.target = u.target
  written : ∃ s site parent r, m.table.get? u.symbol = some s ∧
    t.BuiltFrom u.symbol parent site s ∧ site.Targets u.kind u.target r ∧
    t.significantTextAt r = u.target ∧ m.lines.offset? link.region.start = some r.start ∧
    m.lines.offset? link.region.stop = some r.stop

/-- Imports, the symbols of imports and links stand side by side. -/
structure SourceTree.Linked (t : SourceTree) (m : FileModel) : Prop where
  listed : List.Forall₂ Import.Lists m.imports (m.table.toList.filter (·.kind.isImport))
  ascending : m.imports.Pairwise fun u v => u.symbol < v.symbol
  linked : List.Forall₂ (t.LinkOf m) m.links m.imports

/-! ### Imports and symbols -/

/-- Where a partial function gives something for every member, the rows match as they are. -/
theorem forall₂_filterMap_of_isSome {α β : Type} {f : α → Option β} {l : List α}
    (h : ∀ a ∈ l, (f a).isSome = true) :
    List.Forall₂ (fun b a => f a = some b) (l.filterMap f) l := by
  have hrows := forall₂_filterMap f l
  rwa [List.filter_eq_self.mpr h] at hrows

namespace Import

variable {data : SymbolData} {id : SymbolId} {u : Import}

theorem isSome_ofData? (data : SymbolData) (id : SymbolId) :
    (ofData? data id).isSome = data.kind.isImport := by
  cases data <;> rfl

theorem data_of_ofData? (h : ofData? data id = some u) : data = u.kind.data u.target := by
  cases data with
  | includeFile target => cases h; rfl
  | inheritFile target => cases h; rfl
  | _ => simp [ofData?] at h

end Import

/-- An import is named by its target, and the range of the name is that of the target. -/
theorem Site.Reads.imported {l : Layout} {count : Nat} {s : Site} {d : Draft} {id : SymbolId}
    {u : Import} (h : s.Reads l count d) (hu : Import.ofData? d.data id = some u) :
    d.name = u.target ∧ ∃ r, d.nameRange = some r ∧ s.Targets u.kind u.target r := by
  cases h with
  | includeFile kind part hspan =>
      cases hu
      exact ⟨rfl, _, rfl, .includeFile kind part⟩
  | @inheritFile n target around text span kind part htext hspan =>
      cases hu
      simp only [Node.targetText?, Option.ite_none_left_eq_some, Option.some.injEq] at htext
      obtain ⟨-, rfl⟩ := htext
      exact ⟨rfl, _, rfl, .inheritFile kind part⟩
  | _ => simp [Import.ofData?] at hu

namespace SourceTree

variable {t : SourceTree}

/-- **The imports are those of the symbols, one by one.** -/
theorem imports_model (t : SourceTree) : t.model.imports
    = t.model.table.toList.filterMap fun s => Import.ofData? s.data s.id := by
  have hfile : Import.ofData? t.fileSymbol.data t.fileSymbol.id = none := rfl
  rw [toList_model, List.filterMap_cons, hfile, List.filterMap_map]
  refine List.filterMap_congr ?_
  intro e _
  exact (e.ofData?_symbol e.id).symm

theorem lists_of_entry {e : Entry} (he : e ∈ t.entries) {u : Import}
    (hu : Import.ofData? e.symbol.data e.id = some u) : u.Lists e.symbol := by
  obtain ⟨_, hreads⟩ := reads_of_entry he
  refine ⟨Import.symbol_of_ofData? hu, Import.data_of_ofData? hu, ?_⟩
  rw [Entry.ofData?_symbol] at hu
  exact (hreads.imported hu).1

/-- Every symbol that stands for an imported file has its import, in the same order. -/
theorem listed_model (t : SourceTree) : List.Forall₂ Import.Lists t.model.imports
    (t.model.table.toList.filter (·.kind.isImport)) := by
  have hrows := forall₂_filterMap (fun s : Symbol => Import.ofData? s.data s.id)
    t.model.table.toList
  rw [← imports_model] at hrows
  simp only [Import.isSome_ofData?] at hrows
  refine imp_related_of_mem hrows ?_
  intro u _ s hs hu
  obtain ⟨hmem, hkind⟩ := List.mem_filter.mp hs
  have hfile : s.kind ≠ .file := by
    intro hfile
    rw [hfile] at hkind
    exact Bool.false_ne_true hkind
  obtain ⟨e, he, rfl⟩ := entry_of_mem hmem hfile
  exact lists_of_entry he hu

/-! ### The text at a target -/

/-- At the range of a token with something to say, the significant text is the token. -/
theorem significantTextAt_token {tok : Token} (htok : tok ∈ t.node.tokens)
    (hsig : tok.isSignificant = true) : t.significantTextAt tok.range = tok.text := by
  obtain ⟨before, behind, hsplit⟩ := List.append_of_mem htok
  have hrow := t.pairwise_tokens
  rw [hsplit, List.pairwise_append, List.pairwise_cons] at hrow
  obtain ⟨-, ⟨hright, -⟩, hleft⟩ := hrow
  have hbefore : before.filter (contributes tok.range) = [] :=
    filter_contributes_eq_nil fun u hu => Or.inl (hleft u hu tok List.mem_cons_self)
  have hbehind : behind.filter (contributes tok.range) = [] :=
    filter_contributes_eq_nil fun u hu => Or.inr (hright u hu)
  rw [significantTextAt, hsplit, List.filter_append, List.filter_cons, hbefore, hbehind]
  have hself : tok.range.contains tok.range = true := by simp [TextRange.contains]
  by_cases htext : tok.text = ""
  · simp [contributes, htext, Token.textAll]
  · simp [contributes, hsig, htext, hself, Token.textAll]

/-- **At the range where a file is named, the significant text is the file's name.** -/
theorem significantTextAt_targets {s : Site} (hs : s ∈ t.node.nodes) {kind : ImportKind}
    {text : String} {r : TextRange} (h : s.Targets kind text r) : t.significantTextAt r = text := by
  cases h with
  | @includeFile target _ part =>
      have hsig : target.isSignificant = true := by
        have hkind := List.find?_some part
        simp only [Bool.or_eq_true, beq_iff_eq] at hkind
        rcases hkind with hkind | hkind <;> simp [Token.isSignificant, hkind, Kind.isTrivia]
      have htok := Node.mem_tokens_of_childTokens (List.mem_of_find?_eq_some part)
      exact significantTextAt_token (mem_tokens_of_site hs htok) hsig
  | inheritFile _ part =>
      have hmem := mem_nodes_of_childNodes hs (List.mem_of_find?_eq_some part)
      exact (significantText_eq hmem).symm

/-! ### Links -/

/-- The ends of the region of a symbol or of its name lead back to the range in the text. -/
theorem offset?_region {s : Symbol} (hs : s ∈ t.model.table.toList) {r : TextRange}
    (hr : r ∈ s.range :: s.nameRange.toList) :
    t.model.lines.offset? (t.model.lines.region r).start = some r.start ∧
      t.model.lines.offset? (t.model.lines.region r).stop = some r.stop := by
  obtain ⟨hle, hstop⟩ := range_bounds hs hr
  exact ⟨LineMap.offset?_lineCol t.text (Nat.le_trans hle hstop),
    LineMap.offset?_lineCol t.text hstop⟩

/-- The link of an import is that of the symbol that the import lists. -/
theorem linkOf_entry {e : Entry} (he : e ∈ t.entries) {u : Import}
    (hu : Import.ofData? e.draft.data e.id = some u) : t.LinkOf t.model
      ⟨t.model.lines.region (e.symbol.nameRange.getD e.symbol.range), u.kind, u.target⟩ u := by
  obtain ⟨_, hreads⟩ := reads_of_entry he
  obtain ⟨-, r, hr, htargets⟩ := hreads.imported hu
  have hname : e.symbol.nameRange = some r := hr
  have hmem : e.symbol ∈ t.model.table.toList := by
    rw [toList_model]
    exact List.mem_cons_of_mem _ (List.mem_map_of_mem he)
  obtain ⟨hstart, hstop⟩ :=
    offset?_region hmem (List.mem_cons_of_mem _ (Option.mem_toList.mpr hname))
  have hget := (get?_model_of_entry he).1
  have hbuilt := builtFrom_entry he
  rw [← Import.symbol_of_ofData? hu] at hget hbuilt
  rw [hname, Option.getD_some]
  exact ⟨rfl, rfl, e.symbol, e.site, e.parent, r, hget, hbuilt, htargets,
    significantTextAt_targets (site_mem_nodes he) htargets, hstart, hstop⟩

/-- **Every import has its link, in the same order.** -/
theorem linked_model (t : SourceTree) :
    List.Forall₂ (t.LinkOf t.model) t.model.links t.model.imports := by
  refine imp_related_of_mem (forall₂_filterMap_of_isSome ?_) ?_
  · intro u hu
    obtain ⟨s, hs, -⟩ := symbol_of_import hu
    rw [hs]
    rfl
  · intro link _ u hu hlink
    obtain ⟨e, he, hdata⟩ := List.mem_filterMap.mp hu
    rw [Import.symbol_of_ofData? hdata, (get?_model_of_entry he).1] at hlink
    obtain rfl := Option.some.inj hlink
    exact linkOf_entry he hdata

end SourceTree

/-- **Imports, the symbols of included and inherited files and links correspond one to one and in
order, and every link covers its target in the text.** -/
theorem Analysis.imports_linked (t : SourceTree) :
    (t.InBounds → ∃ a, Analysis.ofTree t = .ok a) ∧
      ∀ a, Analysis.ofTree t = .ok a → t.Linked a.model := by
  refine ⟨fun h => ⟨_, Analysis.ofTree_of_inBounds h⟩, ?_⟩
  intro a ha
  obtain ⟨-, rfl⟩ := Analysis.ofTree_ok_iff.mp ha
  exact ⟨t.listed_model, t.pairwise_imports, t.linked_model⟩

/-- An inherit statement without a target, an inclusion, and an inherit statement whose target
goes over two lines and holds an inclusion. -/
def SourceTree.importing : SourceTree :=
  .ofItems ⟨0⟩ {}
    [.node Kind.inheritStatement.tag [.token Kind.stringLit.tag "\"x\""],
     .token Kind.whitespace.tag "\n",
     .node Kind.includeDirective.tag
      [.token Kind.ppKeyword.tag "#include", .token Kind.whitespace.tag " ",
       .token Kind.headerName.tag "<a>"],
     .token Kind.whitespace.tag "\n",
     .node Kind.inheritStatement.tag
      [.node Kind.inheritTarget.tag
        [.token Kind.stringLit.tag "\"b\"", .token Kind.comment.tag "// é\n",
         .node Kind.includeDirective.tag [.token Kind.stringLit.tag "\"c\""]]]]

theorem Analysis.imports_linked_importing :
    SourceTree.importing.InBounds ∧ ∃ a, Analysis.ofTree .importing = .ok a ∧
      SourceTree.importing.Linked a.model ∧
      a.model.imports =
        [⟨.includeFile, "<a>", 1⟩, ⟨.inheritFile, "\"b\"\"c\"", 2⟩, ⟨.includeFile, "\"c\"", 3⟩] ∧
      a.model.links =
        [⟨⟨⟨1, 9⟩, ⟨1, 12⟩⟩, .includeFile, "<a>"⟩,
         ⟨⟨⟨2, 0⟩, ⟨3, 3⟩⟩, .inheritFile, "\"b\"\"c\""⟩,
         ⟨⟨⟨3, 0⟩, ⟨3, 3⟩⟩, .includeFile, "\"c\""⟩] := by
  have hbounds : SourceTree.importing.InBounds := ⟨by decide +kernel, by decide +kernel⟩
  have hlists : ((Analysis.ofTree .importing).toOption.map fun a =>
      (a.model.imports, a.model.links)) = some
        ([⟨.includeFile, "<a>", 1⟩, ⟨.inheritFile, "\"b\"\"c\"", 2⟩, ⟨.includeFile, "\"c\"", 3⟩],
         [⟨⟨⟨1, 9⟩, ⟨1, 12⟩⟩, .includeFile, "<a>"⟩,
          ⟨⟨⟨2, 0⟩, ⟨3, 3⟩⟩, .inheritFile, "\"b\"\"c\""⟩,
          ⟨⟨⟨3, 0⟩, ⟨3, 3⟩⟩, .includeFile, "\"c\""⟩]) := by decide +kernel
  obtain ⟨hok, hlinked⟩ := imports_linked .importing
  obtain ⟨a, ha⟩ := hok hbounds
  rw [ha] at hlists
  obtain ⟨himports, hlinks⟩ := Prod.mk.inj (Option.some.inj hlists)
  exact ⟨hbounds, a, ha, hlinked a ha, himports, hlinks⟩

end LpcSymbols
