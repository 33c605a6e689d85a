/-
The parent of a symbol is the scope around its node.

The recorder takes the parent of a symbol from the symbols that are open at the time.
In terms of the tree this is the symbol of the nearest node around the symbol's own
node that has a symbol which owns others, and the symbol of the file if there is no
such node.  `Nearest` says so by walking outward over the nodes around a site.

The invariant is about one row of findings: if the parent of the row is the nearest
scope of the row, then the parents of all entries in it are the nearest scopes of
their sites (`WithinScopes`).  A site keeps it, whatever is read there, because a
site that becomes a scope is the parent of what is inside it, and a site that does
not is passed over.
-/
import LpcSymbols.Proofs.Outcome

namespace LpcSymbols

/-- Going outward, symbol `id` is the scope of the first site that has one, and the symbol of
the file if none has. -/
inductive Nearest (scope : Site → SymbolId → Prop) : List Site → SymbolId → Prop
  | file : Nearest scope [] SymbolId.root
  | here {m : Site} {rest : List Site} {id : SymbolId} (h : scope m id) :
      Nearest scope (m :: rest) id
  | outer {m : Site} {rest : List Site} {id : SymbolId} (hm : ∀ other, ¬ scope m other)
      (h : Nearest scope rest id) : Nearest scope (m :: rest) id

/-- Symbol `id` was built from the site, and it owns others. -/
def Analysis.ScopeOf (a : Analysis) (t : SourceTree) (m : Site) (id : SymbolId) : Prop :=
  t.origin? id = some m ∧ ∃ s, a.model.table.get? id = some s ∧ s.isScope = true

namespace Located

/-- If the parent of the findings is the nearest scope around them, and their scopes are scopes,
then the parents of all entries are the nearest scopes around their sites. -/
def WithinScopes (scope : Site → SymbolId → Prop) (around : List Node) (fs : List Located) : Prop :=
  ∀ parent next, Nearest scope (Site.outward around) parent →
    (∀ e ∈ entriesAll parent next fs, e.draft.data.kind.isScope = true → scope e.site e.id) →
    ∀ e ∈ entriesAll parent next fs, Nearest scope (Site.outward e.site.2) e.parent

variable {scope : Site → SymbolId → Prop} {l : Layout} {around : List Node} {n : Node}

theorem WithinScopes.nil : WithinScopes scope around [] := by
  intro parent next _ _ e he
  simp [entriesAll] at he

theorem WithinScopes.append {fs gs : List Located} (hf : WithinScopes scope around fs)
    (hg : WithinScopes scope around gs) : WithinScopes scope around (fs ++ gs) := by
  intro parent next hparent hscopes e he
  rw [entriesAll_append] at hscopes he
  rcases List.mem_append.mp he with he | he
  · exact hf parent next hparent (fun x hx => hscopes x (List.mem_append_left _ hx)) e he
  · exact hg parent _ hparent (fun x hx => hscopes x (List.mem_append_right _ hx)) e he

/-- What is below a site that is no scope has the scope around the site. -/
theorem WithinScopes.pass {fs : List Located} (hn : ∀ id, ¬ scope (n, around) id)
    (h : WithinScopes scope (n :: around) fs) : WithinScopes scope around fs := by
  intro parent next hparent hscopes
  exact h parent next (.outer hn hparent) hscopes

theorem withinScopes_leaf (d : Draft) : WithinScopes scope around [.leaf (n, around) d] := by
  intro parent next hparent _ e he
  simp only [entriesAll, entries, List.append_nil, List.mem_singleton] at he
  subst he
  exact hparent

theorem withinScopes_omitted (reason : Omission) :
    WithinScopes scope around [.omitted (n, around) reason] := by
  intro parent next _ _ e he
  simp [entriesAll, entries] at he

theorem withinScopes_scope {d : Draft} (hd : d.data.kind.isScope = true) {inside : List Located}
    (h : WithinScopes scope (n :: around) inside) :
    WithinScopes scope around [.scope (n, around) d inside] := by
  intro parent next hparent hscopes e he
  simp only [entriesAll, entries, List.append_nil] at hscopes he
  have hown : scope (n, around) next := hscopes _ List.mem_cons_self hd
  rcases List.mem_cons.mp he with rfl | he
  · exact hparent
  · exact h next (next + 1) (.here hown) (fun x hx => hscopes x (List.mem_cons_of_mem _ hx)) e he

/-- A site keeps its entries within their scopes. -/
theorem withinScopes_atSite (count : Nat) {below : List Located}
    (hscope : ∀ s id, scope s id → s.isRead l = true ∧ s.1.kind.opensScope = true)
    (h : WithinScopes scope (n :: around) below) :
    WithinScopes scope around (atSite l count (n, around) below) := by
  have hread := Site.reading?_ok_iff l count (n, around)
  unfold atSite
  split
  · rename_i hnone
    refine h.pass fun id hid => ?_
    have hyes := hread.mpr (hscope _ id hid).1
    simp [hnone] at hyes
  · rename_i reason herror
    have hbelow : WithinScopes scope around below := h.pass fun id hid => by
      have hyes := hread.mpr (hscope _ id hid).1
      simp [herror] at hyes
    exact (withinScopes_omitted reason).append hbelow
  · rename_i draft hok
    have hkind := ((Site.reading?_readsAs hok).isOf draft rfl).isScope
    split
    · exact withinScopes_leaf draft
    · split
      · rename_i hyes
        exact withinScopes_scope hyes h
      · rename_i hno
        have hbelow : WithinScopes scope around below := h.pass fun id hid => by
          rw [hkind] at hno
          exact hno (hscope _ id hid).2
        exact (withinScopes_leaf draft).append hbelow

theorem kept_withinScopes
    (hscope : ∀ s id, scope s id → s.isRead l = true ∧ s.1.kind.opensScope = true) :
    Kept l (WithinScopes scope) where
  nil _ := WithinScopes.nil
  append _ _ _ := WithinScopes.append
  atSite _ _ count := withinScopes_atSite count hscope

end Located

namespace SourceTree

variable {t : SourceTree}

theorem isScope_symbol (e : Entry) : e.symbol.isScope = e.draft.data.kind.isScope := by
  rw [Entry.symbol, Symbol.isScope_adopt]
  rfl

theorem scopeOf_entry {e : Entry} (he : e ∈ t.entries) (hscope : e.draft.data.kind.isScope = true) :
    Analysis.ScopeOf ⟨t.model, t.trace⟩ t e.site e.id := by
  obtain ⟨hget, horigin⟩ := get?_model_of_entry he
  exact ⟨horigin, e.symbol, hget, by rw [isScope_symbol, hscope]⟩

/-- A site with a scope is read, and its kind opens scopes. -/
theorem isRead_of_scopeOf {m : Site} {id : SymbolId}
    (h : Analysis.ScopeOf ⟨t.model, t.trace⟩ t m id) :
    m.isRead t.layout = true ∧ m.1.kind.opensScope = true := by
  obtain ⟨horigin, s, hget, hs⟩ := h
  obtain ⟨e, he, rfl, rfl⟩ := entry_of_origin? horigin
  obtain ⟨hsymbol, -⟩ := get?_model_of_entry he
  obtain rfl := Option.some.inj (hget.symm.trans hsymbol)
  obtain ⟨c, hc⟩ := t.reading?_of_mem (mem_readings_of_entry he)
  refine ⟨(Site.reading?_ok_iff _ _ _).mp ⟨e.draft, hc⟩, ?_⟩
  rw [← (isOf_of_entry he).isScope, ← isScope_symbol, hs]

/-- The root is no scope of its own: its symbol is that of the file. -/
theorem nearest_root (t : SourceTree) :
    Nearest (Analysis.ScopeOf ⟨t.model, t.trace⟩ t) (Site.outward [t.node]) SymbolId.root := by
  refine .outer ?_ .file
  intro id h
  have hread := (isRead_of_scopeOf h).1
  simp [Site.isRead, Site.isConstruct] at hread

/-- The parents of the entries are the nearest scopes of their sites. -/
theorem nearest_of_entry {e : Entry} (he : e ∈ t.entries) :
    Nearest (Analysis.ScopeOf ⟨t.model, t.trace⟩ t) (Site.outward e.site.2) e.parent := by
  have hwithin : Located.WithinScopes (Analysis.ScopeOf ⟨t.model, t.trace⟩ t) [t.node]
      (t.located t.layout) :=
    t.kept_located (Located.kept_withinScopes fun _ _ h => isRead_of_scopeOf h)
  exact hwithin SymbolId.root 1 t.nearest_root (fun x hx => scopeOf_entry hx) e he

theorem site_mem_nodes {e : Entry} (he : e ∈ t.entries) : e.site ∈ t.node.nodes := by
  have hmem : e.site ∈ t.recorded := by
    rw [← t.entries_recorded]
    exact List.mem_map_of_mem he
  exact (mem_recorded_append_omitted.mp (List.mem_append_left _ hmem)).1

end SourceTree

/-- Symbol `id` was built from the node at a site, below the symbol `parent`. -/
structure SourceTree.BuiltFrom (t : SourceTree) (id parent : SymbolId) (site : Site) (s : Symbol) :
    Prop where
  origin : t.origin? id = some site
  node : site ∈ t.node.nodes
  ref : s.node = site.1.ref
  /-- The symbol is the draft that is read at the site, with the symbols that it owns. -/
  draft : ∃ count draft owned, site.reading? t.layout count = some (.ok draft) ∧
    s = (Symbol.ofDraft draft id parent).adopt owned
  /-- No other symbol was built from the site. -/
  only : ∀ other, t.origin? other = some site → other = id

theorem SourceTree.builtFrom_entry {t : SourceTree} {e : Entry} (he : e ∈ t.entries) :
    t.BuiltFrom e.id e.parent e.site e.symbol := by
  obtain ⟨-, horigin⟩ := get?_model_of_entry he
  obtain ⟨c, hc⟩ := t.reading?_of_mem (mem_readings_of_entry he)
  exact ⟨horigin, site_mem_nodes he, (isOf_of_entry he).node, ⟨c, e.draft, e.owned, hc, rfl⟩,
    fun _ h => origin?_injective horigin h⟩

/-- **The parent of a symbol is the nearest scope around the node it was built from.** -/
theorem Analysis.parent_nearest {t : SourceTree} {a : Analysis} (ha : Analysis.ofTree t = .ok a)
    {id : SymbolId} {s : Symbol} (hs : a.model.table.get? id = some s) (hid : id ≠ SymbolId.root) :
    ∃ site parent, t.BuiltFrom id parent site s ∧ s.parent = some parent ∧
      Nearest (a.ScopeOf t) (Site.outward site.2) parent := by
  obtain ⟨-, rfl⟩ := Analysis.ofTree_ok_iff.mp ha
  obtain ⟨e, he, rfl, rfl⟩ := SourceTree.entry_of_get? hs hid
  exact ⟨e.site, e.parent, SourceTree.builtFrom_entry he, rfl, SourceTree.nearest_of_entry he⟩

/-- A name inside a function without a name inside a function with one. -/
def SourceTree.nested : SourceTree :=
  .ofItems ⟨0⟩ {}
    [.node Kind.functionDecl.tag
      [.node Kind.functionHeader.tag
        [.node Kind.name.tag [.token Kind.ident.tag "f"]],
       .node Kind.functionDecl.tag
        [.node Kind.identExpr.tag [.token Kind.ident.tag "x"]]]]

theorem Analysis.parent_nearest_nested : ∃ a s, Analysis.ofTree .nested = .ok a ∧
    a.model.table.get? 2 = some s ∧ s.parent = some 1 ∧ ∃ site parent,
      SourceTree.nested.BuiltFrom 2 parent site s ∧ s.parent = some parent ∧
        Nearest (a.ScopeOf .nested) (Site.outward site.2) parent := by
  have hparent : ((Analysis.ofTree .nested).toOption.bind fun a =>
      (a.model.table.get? 2).map (·.parent)) = some (some 1) := by decide +kernel
  cases ha : Analysis.ofTree .nested with
  | error fault =>
      rw [ha] at hparent
      simp [Except.toOption] at hparent
  | ok a =>
      rw [ha] at hparent
      obtain ⟨s, hs, hone⟩ := Option.map_eq_some_iff.mp hparent
      exact ⟨a, s, rfl, hs, hone, parent_nearest ha hs (by decide)⟩

end LpcSymbols
