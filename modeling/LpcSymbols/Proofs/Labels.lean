/-
Generated names tell symbols apart.

A generated name ends in the number of a token, behind an underscore.  What stands before the
underscore may be any text of the file, but digits are no underscores, so the number can be
read back from the end of the name (`Text.numbered_inj`).  Two symbols with one generated name
start at the same token.

Their nodes have that token in common, so one node is around the other.  A macro definition
keeps the constructs below it from being symbols at all.  Every other construct with a
generated name is a scope, and the symbols below it are not its siblings.
-/
import LpcSymbols.Proofs.Branching
import LpcSymbols.Proofs.Innermost
import LpcSymbols.Proofs.Positions

namespace LpcSymbols

/-! ### The number at the end of a name -/

namespace Text

theorem takeWhile_numbered (stem : String) (n : Nat) :
    (stem ++ "_" ++ toString n).toList.reverse.takeWhile Char.isDigit
      = (Nat.toDigits 10 n).reverse := by
  have hdigits : ∀ c ∈ (Nat.toDigits 10 n).reverse, Char.isDigit c = true := by
    intro c hc
    exact Nat.isDigit_of_mem_toDigits (by decide) (by decide) (List.mem_reverse.mp hc)
  have hlist : (stem ++ "_" ++ toString n).toList.reverse
      = (Nat.toDigits 10 n).reverse ++ '_' :: stem.toList.reverse := by
    simp
  rw [hlist, List.takeWhile_append_of_pos hdigits]
  simp

/-- **The number behind the last underscore of a name can be read back.** -/
theorem numbered_inj {stem stem' : String} {m n : Nat}
    (h : stem ++ "_" ++ toString m = stem' ++ "_" ++ toString n) : m = n := by
  have hdigits := congrArg (·.toList.reverse.takeWhile Char.isDigit) h
  simp only [takeWhile_numbered, List.reverse_inj] at hdigits
  calc
    m = Nat.ofDigitChars 10 (Nat.toDigits 10 m) 0 := Nat.ofDigitChars_ten_toDigits.symm
    _ = Nat.ofDigitChars 10 (Nat.toDigits 10 n) 0 := by rw [hdigits]
    _ = n := Nat.ofDigitChars_ten_toDigits

end Text

/-- The symbols of the kind have a label, with the number of their first token. -/
def SymbolKind.isLabelled : SymbolKind → Bool
  | .define | .preprocessor | .ifStatement | .inlineClosure | .expression => true
  | _ => false

theorem SymbolKind.ne_file_of_isLabelled {k : SymbolKind} (h : k.isLabelled = true) : k ≠ .file := by
  rintro rfl
  simp [isLabelled] at h

theorem SymbolKind.isScope_of_isLabelled {k : SymbolKind} (h : k.isLabelled = true) :
    k = .define ∨ k.isScope = true := by
  cases k <;> simp_all [isLabelled, isScope]

theorem Site.Reads.label_of_isLabelled {l : Layout} {count : Nat} {s : Site} {d : Draft}
    (h : s.Reads l count d) (hkind : d.data.kind.isLabelled = true) :
    ∃ stem, d.name = Draft.label stem d.span := by
  cases h with
  | define kind part hspan => exact ⟨_, rfl⟩
  | directive kind part hspan => exact ⟨_, rfl⟩
  | ifStatement kind hspan => exact ⟨_, rfl⟩
  | closure kind hspan => exact ⟨_, rfl⟩
  | primary kind hspan => exact ⟨_, rfl⟩
  | includeFile | inheritFile | function | parameter | declarator | clause | identifier =>
      simp [SymbolData.kind, SymbolKind.isLabelled] at hkind

theorem Site.Reads.kind_of_define {l : Layout} {count : Nat} {s : Site} {d : Draft}
    (h : s.Reads l count d) (hkind : d.data.kind = .define) : s.1.kind = .defineDirective := by
  cases h with
  | define kind part hspan => exact kind
  | _ => simp [SymbolData.kind] at hkind

/-! ### Nodes with one first token -/

namespace SourceTree

variable {t : SourceTree} {e f : Entry}

/-- Of two nodes whose spans start at the same token, one is around the other. -/
theorem WellNumbered.around_of_start (h : t.WellNumbered) {s r : Site} (hs : s ∈ t.node.nodes)
    (hr : r ∈ t.node.nodes) {p q : Span} (hp : t.layout.span? s.1 = some p)
    (hq : t.layout.span? r.1 = some q) (hindex : p.start.index = q.start.index) :
    s = r ∨ s ∈ Site.outward r.2 ∨ r ∈ Site.outward s.2 := by
  obtain ⟨x, -, hx, -, hxat, -⟩ := h.ends_of_span? hs hp
  obtain ⟨y, -, hy, -, hyat, -⟩ := h.ends_of_span? hr hq
  obtain rfl : x = y := by
    have hget := hxat.getElem?
    rw [hindex, hyat.getElem?] at hget
    exact (Option.some.inj hget).symm
  have hpos := Text.size_pos (h.text x (List.mem_of_getElem? hxat.getElem?))
  have hwithin : ∀ m ∈ t.node.nodes, (m.1.tokens.filter Token.isSignificant).head? = some x →
      x.range.Within m.1.range := by
    intro m hm hhead
    obtain ⟨_, _, -, -, -, hown, -⟩ := t.standsIn_nodes hm
    have hmem : x ∈ m.1.tokens := (List.mem_filter.mp (List.mem_of_head? hhead)).1
    obtain ⟨hlo, hhi⟩ := hown.token_bounds (Leaf.mem_tokens.mp hmem)
    exact ⟨hlo, Nat.le_add_right _ _, hhi⟩
  have hlt : x.range.start < x.range.stop := Nat.lt_add_of_pos_right hpos
  exact t.around_of_within hs hr hlt (hwithin s hs hx) (hwithin r hr hy)

/-- Nothing below a macro definition with a symbol has a symbol. -/
theorem not_outward_of_define (he : e ∈ t.entries) (hf : f ∈ t.entries)
    (hkind : e.draft.data.kind = .define) : e.site ∉ Site.outward f.site.2 := by
  intro hout
  have hrecorded : ∀ g ∈ t.entries, g.site ∈ t.recorded := by
    intro g hg
    rw [← t.entries_recorded]
    exact List.mem_map_of_mem hg
  obtain ⟨-, -, hopen⟩ := mem_recorded.mp (hrecorded f hf)
  obtain ⟨_, hreads⟩ := reads_of_entry he
  exact (not_hidden_iff (site_mem_nodes hf)).mpr hopen e.site hout (hreads.kind_of_define hkind)
    (hrecorded e he)

/-- Symbols with one generated name are the same symbol, or the node of one is around that of the
other. -/
theorem WellNumbered.around_of_label (h : t.WellNumbered) (he : e ∈ t.entries) (hf : f ∈ t.entries)
    (hke : e.draft.data.kind.isLabelled = true) (hkf : f.draft.data.kind.isLabelled = true)
    (hname : e.draft.name = f.draft.name) :
    e.id = f.id ∨ e.site ∈ Site.outward f.site.2 ∨ f.site ∈ Site.outward e.site.2 := by
  obtain ⟨_, hreads⟩ := reads_of_entry he
  obtain ⟨_, hreads'⟩ := reads_of_entry hf
  obtain ⟨stem, hstem⟩ := hreads.label_of_isLabelled hke
  obtain ⟨stem', hstem'⟩ := hreads'.label_of_isLabelled hkf
  have hindex : e.draft.span.start.index = f.draft.span.start.index := by
    rw [hstem, hstem'] at hname
    exact Text.numbered_inj hname
  refine (h.around_of_start (site_mem_nodes he) (site_mem_nodes hf) (isOf_of_entry he).span
    (isOf_of_entry hf).span hindex).imp_left ?_
  intro hsite
  have horigin : t.origin? e.id = some f.site := by
    rw [← hsite]
    exact (get?_model_of_entry he).2
  exact origin?_injective (get?_model_of_entry hf).2 horigin

/-- The node of a symbol with a generated name is not around that of a sibling. -/
theorem not_outward_of_sibling (hwf : t.model.table.WellFormed) (he : e ∈ t.entries)
    (hf : f ∈ t.entries) (hkind : e.draft.data.kind.isLabelled = true)
    (hparent : e.parent = f.parent) : e.site ∉ Site.outward f.site.2 := by
  intro hout
  rcases SymbolKind.isScope_of_isLabelled hkind with hdefine | hscope
  · exact not_outward_of_define he hf hdefine hout
  · have hno := not_isScope_of_outward hwf he hf hparent hout
    rw [isScope_symbol, hscope] at hno
    simp at hno

/-! ### Clauses -/

/-- Clauses of one `if` statement have names with different numbers. -/
theorem pairwise_name_of_isClause {table : SymbolTable} {site : Site} {index : Nat}
    {clauses : List (SymbolId × Branch)} {xs : List (Node × Nat)}
    (h : List.Forall₂ (t.IsClause table site index) clauses xs)
    (hxs : xs.Pairwise fun x y => x.2 < y.2) :
    clauses.Pairwise fun c d => ∀ s r, table.get? c.1 = some s → table.get? d.1 = some r →
      s.name ≠ r.name := by
  induction h with
  | nil => exact .nil
  | @cons c x clauses xs hc hrest ih =>
      obtain ⟨hfirst, hlater⟩ := List.pairwise_cons.mp hxs
      refine List.pairwise_cons.mpr ⟨?_, ih hlater⟩
      intro d hd s r hs hr hname
      obtain ⟨k, hk, rfl⟩ := List.mem_iff_getElem.mp hd
      have hd' := hrest.get hk (hrest.length_eq ▸ hk)
      obtain ⟨s', -, _, hs', -, -, hsname⟩ := hc.symbol
      obtain ⟨r', -, _, hr', -, -, hrname⟩ := hd'.symbol
      obtain rfl := Option.some.inj (hs.symm.trans hs')
      obtain rfl := Option.some.inj (hr.symm.trans hr')
      rw [hsname, hrname] at hname
      have hlt := hfirst _ (List.getElem_mem (hrest.length_eq ▸ hk))
      exact absurd (Text.numbered_inj hname) (Nat.ne_of_lt hlt)

theorem mem_selections {i p : SymbolId} {s : Symbol} (hwf : t.model.table.WellFormed)
    (hi : i ∈ t.model.table.children p) (hs : t.model.table.get? i = some s)
    (hkind : s.kind = .selection) : ∃ branch, (i, branch) ∈ t.model.table.selections p := by
  obtain ⟨branch, hbranch⟩ : ∃ branch, s.data.branch? = some branch := by
    rw [Symbol.kind] at hkind
    cases hdata : s.data with
    | selection branch fold => exact ⟨branch, rfl⟩
    | _ => simp [hdata, SymbolData.kind] at hkind
  obtain rfl : s.id = i := hwf.numbered i s hs
  refine ⟨branch, List.mem_filterMap.mpr ⟨s, List.mem_filterMap.mpr ⟨_, hi, hs⟩, ?_⟩⟩
  rw [hbranch, Option.map_some]

end SourceTree

/-! ### The names of a table -/

/-- Different symbols of the sort have different names. -/
def SymbolTable.TellsApart (table : SymbolTable) (sort : SymbolId → Symbol → Prop) : Prop :=
  ∀ i j s r, table.get? i = some s → table.get? j = some r → sort i s → sort j r → i ≠ j →
    s.name ≠ r.name

namespace SourceTree

variable {t : SourceTree}

theorem WellNumbered.tellsApart_defines (h : t.WellNumbered) :
    t.model.table.TellsApart fun _ s => s.kind = .define := by
  intro i j s r hs hr hks hkr hne hname
  obtain ⟨e, he, rfl, rfl⟩ := entry_of_kind_ne hs (by simp [hks])
  obtain ⟨f, hf, rfl, rfl⟩ := entry_of_kind_ne hr (by simp [hkr])
  rw [Entry.kind_symbol] at hks hkr
  rcases h.around_of_label he hf (by rw [hks]; rfl) (by rw [hkr]; rfl) hname with hid | hout | hout
  · exact hne hid
  · exact not_outward_of_define he hf hks hout
  · exact not_outward_of_define hf he hkr hout

theorem WellNumbered.tellsApart_siblings (h : t.WellNumbered) (hwf : t.model.table.WellFormed)
    (p : SymbolId) : t.model.table.TellsApart fun i s =>
      i ∈ t.model.table.children p ∧ s.kind.isLabelled = true := by
  rintro i j s r hs hr ⟨hi, hks⟩ ⟨hj, hkr⟩ hne hname
  obtain ⟨e, he, rfl, rfl⟩ := entry_of_kind_ne hs (SymbolKind.ne_file_of_isLabelled hks)
  obtain ⟨f, hf, rfl, rfl⟩ := entry_of_kind_ne hr (SymbolKind.ne_file_of_isLabelled hkr)
  have hparent : e.parent = f.parent := by
    have hpi := (holds_entry he).parent.symm.trans ((hwf.listed p _).mp hi)
    have hpj := (holds_entry hf).parent.symm.trans ((hwf.listed p _).mp hj)
    exact Option.some.inj (hpi.trans hpj.symm)
  rw [Entry.kind_symbol] at hks hkr
  rcases h.around_of_label he hf hks hkr hname with hid | hout | hout
  · exact hne hid
  · exact not_outward_of_sibling hwf he hf hks hparent hout
  · exact not_outward_of_sibling hwf hf he hkr hparent.symm hout

theorem tellsApart_clauses (hwf : t.model.table.WellFormed) {p : SymbolId} {owner : Symbol}
    (howner : t.model.table.get? p = some owner) (hkind : owner.kind = .ifStatement) :
    t.model.table.TellsApart fun i s =>
      i ∈ t.model.table.children p ∧ s.kind = .selection := by
  rintro i j s r hs hr ⟨hi, hks⟩ ⟨hj, hkr⟩ hne
  obtain ⟨e, he, rfl, rfl⟩ := entry_of_kind_ne howner (by simp [hkind])
  rw [Entry.kind_symbol] at hkind
  have hnumbers : (Located.spanned t.layout e.site.1.clauses.zipIdx).Pairwise
      fun x y => x.2 < y.2 := by
    have hall : (e.site.1.clauses.zipIdx.map Prod.snd).Pairwise (· < ·) := by
      rw [List.zipIdx_map_snd]
      exact List.pairwise_lt_range'
    exact (List.pairwise_map.mp hall).filter _
  have hnames := pairwise_name_of_isClause (isClause_of_entry he hkind) hnumbers
  obtain ⟨b, hb⟩ := mem_selections hwf hi hs hks
  obtain ⟨c, hc⟩ := mem_selections hwf hj hr hkr
  have hsymm : Std.Symm fun c d : SymbolId × Branch => ∀ s r,
      t.model.table.get? c.1 = some s → t.model.table.get? d.1 = some r → s.name ≠ r.name :=
    ⟨fun _ _ hcd s r hs hr => (hcd r s hr hs).symm⟩
  exact hnames.forall hb hc (fun heq => hne (congrArg Prod.fst heq)) s r hs hr

end SourceTree

/-- **Generated names tell macro definitions apart, and the symbols that are owned by one scope, and
the clauses of one `if` statement.** -/
theorem Analysis.labels_tellApart {t : SourceTree} (h : t.AllText) :
    (t.InBounds → ∃ a, Analysis.ofTree t = .ok a) ∧ ∀ a, Analysis.ofTree t = .ok a →
      (a.model.table.TellsApart fun _ s => s.kind = .define) ∧
      (∀ p, a.model.table.TellsApart fun i s =>
        i ∈ a.model.table.children p ∧ s.kind.isLabelled = true) ∧
      ∀ p owner, a.model.table.get? p = some owner → owner.kind = .ifStatement →
        a.model.table.TellsApart fun i s =>
          i ∈ a.model.table.children p ∧ s.kind = .selection := by
  refine ⟨fun h => ⟨_, Analysis.ofTree_of_inBounds h⟩, ?_⟩
  intro a ha
  have hwf := wellFormed_table ha
  obtain ⟨hfits, rfl⟩ := Analysis.ofTree_ok_iff.mp ha
  have hnumbered := h.wellNumbered hfits.size
  exact ⟨hnumbered.tellsApart_defines, hnumbered.tellsApart_siblings hwf,
    fun p owner howner hkind => SourceTree.tellsApart_clauses hwf howner hkind⟩

/-- Two definitions of one macro, and an `if` statement with two clauses. -/
def SourceTree.repeated : SourceTree :=
  .ofItems ⟨0⟩ {}
    [.node Kind.defineDirective.tag [.token Kind.defineLine.tag "#define A"],
     .node Kind.defineDirective.tag [.token Kind.defineLine.tag "#define A"],
     .node Kind.ifStatement.tag
      [.node Kind.elseIfClause.tag [.token Kind.ident.tag "x"],
       .node Kind.elseIfClause.tag [.token Kind.ident.tag "x"]]]

theorem Analysis.labels_tellApart_repeated :
    SourceTree.repeated.AllText ∧ SourceTree.repeated.InBounds ∧
      ∃ a, Analysis.ofTree .repeated = .ok a ∧
        (a.model.table.toList.map fun s => (s.kind, s.name)) =
          [(.file, "file#0"), (.define, "#define_0"), (.define, "#define_1"), (.ifStatement, "if_2"),
           (.selection, "elseif_2_0"), (.selection, "elseif_2_1")] ∧
        (a.model.table.TellsApart fun _ s => s.kind = .define) ∧
        ∀ owner, a.model.table.get? 3 = some owner → owner.kind = .ifStatement →
          a.model.table.TellsApart fun i s =>
            i ∈ a.model.table.children 3 ∧ s.kind = .selection := by
  have htext : SourceTree.repeated.AllText := by
    unfold SourceTree.AllText
    decide +kernel
  have hbounds : SourceTree.repeated.InBounds := ⟨by decide +kernel, by decide +kernel⟩
  have hnames : ((Analysis.ofTree .repeated).toOption.map fun a =>
      a.model.table.toList.map fun s => (s.kind, s.name)) = some
        [(.file, "file#0"), (.define, "#define_0"), (.define, "#define_1"), (.ifStatement, "if_2"),
         (.selection, "elseif_2_0"), (.selection, "elseif_2_1")] := by decide +kernel
  obtain ⟨hok, happart⟩ := labels_tellApart htext
  obtain ⟨a, ha⟩ := hok hbounds
  rw [ha] at hnames
  obtain ⟨hdefines, -, hclauses⟩ := happart a ha
  exact ⟨htext, hbounds, a, ha, Option.some.inj hnames, hdefines, hclauses 3⟩

end LpcSymbols
