/-
Declarations and their variables.

The declarators of a declaration are read one after the other, each before whatever is in it, but
between two of them come all the symbols of the first one's initialiser.  So what a declaration
gives is not a piece of what is read in the tree, but a subsequence: the readings below a node are a
subsequence of all readings (`below_sublist_readings`), and among these the readings of its
declarators (`declarators_sublist`).

A subsequence of readings falls into a subsequence of the symbols and one of the omissions, so the
variables keep the order of their declarators, and the declarators that are left out drop out of it.
-/
import LpcSymbols.Proofs.Accounting
import LpcSymbols.Proofs.Overlaps

namespace LpcSymbols

namespace Node

/-- The declarator has all that its variable needs: a name and a span. -/
def isDeclared (l : Layout) (c : Node) : Bool := c.nameIdent?.isSome && (l.span? c).isSome

/-- Why a declarator is left out.  Its name is looked for first. -/
def whyUndeclared (c : Node) : Omission :=
  if c.nameIdent?.isSome then .noSignificantToken c.kind else .missingPart c.kind "name"

end Node

/-- A declaration with a type, below the root and not below a macro definition with a symbol. -/
structure SourceTree.IsDeclaration (t : SourceTree) (d : Site) (type : Node) : Prop where
  node : d ∈ t.node.nodes
  belowRoot : d.2 ≠ []
  kind : d.1.kind = .variableDecl
  type : d.1.type? = some type
  notHidden : ∀ m ∈ Site.outward d.2, m.1.kind = .defineDirective → ∀ id, t.origin? id ≠ some m

/-- The symbol is the variable of a declarator of the declaration. -/
structure SourceTree.Declares (t : SourceTree) (d : Site) (type : Node) (parent : SymbolId)
    (s : Symbol) (c : Node) : Prop where
  builtFrom : t.BuiltFrom s.id parent (c, d.1 :: d.2) s
  name : c.nameIdent?.map (·.text) = some s.name
  data : s.data = .variable (.ofSpelling type.significantText)
  parent : s.parent = some parent

/-- All omissions of an analysis, with the nodes that were left out. -/
structure Analysis.Skips (a : Analysis) (skips : List (Site × Omission)) : Prop where
  nodup : (skips.map (·.1)).Nodup
  events : a.trace.filterMap TraceEvent.omission? = skips.map fun x => (x.1.1.ref, x.2)
  count : a.model.stats.omissions = skips.length

/-- The variables of a declaration. -/
structure SourceTree.Declared (t : SourceTree) (a : Analysis) (skips : List (Site × Omission))
    (d : Site) (type : Node) (parent : SymbolId) (symbols : List Symbol) : Prop where
  scope : Nearest (a.ScopeOf t) (Site.outward (d.1 :: d.2)) parent
  listed : symbols.Sublist a.model.table.toList
  ascending : symbols.Pairwise fun x y => x.id < y.id
  /-- There is one symbol for each declarator with a name and a span, in the order of the text. -/
  declares : List.Forall₂ (t.Declares d type parent) symbols
    (d.1.declarators.filter (·.isDeclared t.layout))
  /-- The declarators have no other symbols. -/
  complete : ∀ s ∈ a.model.table.toList, ∀ c ∈ d.1.declarators,
    t.origin? s.id = some (c, d.1 :: d.2) → s ∈ symbols
  /-- There is one omission for each of the other declarators. -/
  skipped : ((d.1.declarators.filter (!·.isDeclared t.layout)).map
    fun c => (((c, d.1 :: d.2) : Site), c.whyUndeclared)).Sublist skips
  /-- The declarators have no other omissions. -/
  skippedOnly : ∀ x ∈ skips, ∀ c ∈ d.1.declarators, x.1 = (c, d.1 :: d.2) →
    c.isDeclared t.layout = false

/-! ### What is read at a declarator -/

namespace Draft

variable {l : Layout} {type : ValueType} {c : Node} {d : Draft}

theorem ofDeclarator_spec (h : ofDeclarator l type c = .ok d) :
    c.nameIdent?.map (·.text) = some d.name ∧ d.data = .variable type := by
  obtain ⟨ident, span, hident, -, rfl⟩ := eq_of_part h
  rw [hident]
  exact ⟨rfl, rfl⟩

/-- A declarator is read if it has a name and a span, and else it is left out. -/
theorem ofDeclarator_cases (l : Layout) (type : ValueType) (c : Node) :
    (c.isDeclared l = true ∧ ∃ d, ofDeclarator l type c = .ok d) ∨
      (c.isDeclared l = false ∧ ofDeclarator l type c = .error c.whyUndeclared) := by
  unfold ofDeclarator Node.isDeclared Node.whyUndeclared
  cases c.nameIdent? with
  | none => exact Or.inr ⟨rfl, rfl⟩
  | some ident =>
      rw [require_some]
      cases hspan : l.span? c with
      | none =>
          rw [spanOf_none hspan]
          exact Or.inr ⟨rfl, rfl⟩
      | some span =>
          rw [spanOf_some hspan]
          exact Or.inl ⟨rfl, _, rfl⟩

end Draft

/-- What is read at the declarators of a declaration. -/
def Node.declaratorReadings (l : Layout) (type : ValueType) (around : List Node) (cs : List Node) :
    List (Site × Except Omission Draft) :=
  cs.map fun c => ((c, around), Draft.ofDeclarator l type c)

namespace Node

variable (l : Layout) (type : ValueType) (around : List Node)

theorem declaratorReadings_cons (c : Node) (cs : List Node) :
    declaratorReadings l type around (c :: cs)
      = ((c, around), Draft.ofDeclarator l type c) :: declaratorReadings l type around cs := rfl

/-- The drafts among them are those of the declarators with a name and a span. -/
theorem forall₂_draftsOf_declarators (cs : List Node) :
    List.Forall₂ (fun x c => x.1 = (c, around) ∧ Draft.ofDeclarator l type c = .ok x.2)
      (draftsOf (declaratorReadings l type around cs)) (cs.filter (·.isDeclared l)) := by
  induction cs with
  | nil => exact .nil
  | cons c cs ih =>
      rw [declaratorReadings_cons]
      rcases Draft.ofDeclarator_cases l type c with ⟨hyes, d, hd⟩ | ⟨hno, hd⟩
      · rw [List.filter_cons_of_pos hyes, hd]
        exact .cons ⟨rfl, hd⟩ ih
      · rw [List.filter_cons_of_neg (by simp [hno]), hd]
        exact ih

/-- The omissions among them are those of the other declarators. -/
theorem omissionsOf_declarators (cs : List Node) :
    omissionsOf (declaratorReadings l type around cs)
      = (cs.filter (!·.isDeclared l)).map fun c => (((c, around) : Site), c.whyUndeclared) := by
  induction cs with
  | nil => rfl
  | cons c cs ih =>
      rw [declaratorReadings_cons]
      rcases Draft.ofDeclarator_cases l type c with ⟨hyes, d, hd⟩ | ⟨hno, hd⟩
      · rw [List.filter_cons_of_neg (by simp [hyes]), hd]
        exact ih
      · rw [List.filter_cons_of_pos (by simp [hno]), hd, List.map_cons, ← ih]
        rfl

end Node

/-- A variable is read at a declarator, right below a declaration with a type. -/
theorem Site.Reads.declared {l : Layout} {count : Nat} {s : Site} {d : Draft}
    (h : s.Reads l count d) (hkind : d.data.kind = .variable) :
    s.1.kind = .variableDeclarator ∧ ∃ decl outer rest type, s.2 = decl :: outer :: rest ∧
      decl.kind = .variableDecl ∧ decl.type? = some type := by
  cases h with
  | declarator kind htype part hspan =>
      refine ⟨kind, ?_⟩
      unfold declaredType? at htype
      split at htype
      · rename_i decl outer rest
        split at htype
        · rename_i hdecl
          obtain ⟨type, hsome, -⟩ := Option.map_eq_some_iff.mp htype
          exact ⟨decl, outer, rest, type, rfl, hdecl, hsome⟩
        · simp at htype
      · simp at htype
  | _ => simp [SymbolData.kind] at hkind

/-! ### Readings in the order of the walk -/

namespace Placed

open Located

mutual

/-- What is read below a site that is looked at is read in this order among all else. -/
theorem below_sublist_located (l : Layout) {s : Site} (hopen : s.isHidden l = false)
    (hpass : s.hides l = false) : ∀ (p : Placed) (around : List Node) (count : Nat),
      s ∈ p.nodes around →
        (readingsAll (s.below l)).Sublist (readingsAll (p.located l around count))
  | .token _, _, _, hs => by simp [nodes] at hs
  | .node kind range before children, around, count, hs => by
    rw [located, readingsAll_atSite]
    refine List.Sublist.trans ?_ (List.sublist_append_right _ _)
    rcases List.mem_cons.mp hs with rfl | hs
    · rw [hpass]
      exact List.Sublist.refl _
    · have hshown : Site.hides l (⟨kind, range, before, children⟩, around) = false := by
        have hsuffix := (nodesAll_outward (m := s) children hs).1
        rw [Bool.eq_false_iff]
        intro hhides
        rw [Site.isHidden_below hsuffix hhides] at hopen
        exact Bool.false_ne_true hopen.symm
      rw [hshown, readingsAll_append]
      obtain ⟨late, hsub⟩ := below_sublist_locatedAll l hopen hpass children
        (⟨kind, range, before, children⟩ :: around) 0 hs
      cases late with
      | false => exact hsub.trans (List.sublist_append_left _ _)
      | true => exact hsub.trans (List.sublist_append_right _ _)

theorem below_sublist_locatedAll (l : Layout) {s : Site} (hopen : s.isHidden l = false)
    (hpass : s.hides l = false) : ∀ (ps : List Placed) (around : List Node) (count : Nat),
      s ∈ nodesAll around ps → ∃ late,
        (readingsAll (s.below l)).Sublist (readingsAll (locatedAll l around late count ps))
  | [], _, _, hs => by simp [nodesAll] at hs
  | p :: ps, around, count, hs => by
    rcases List.mem_append.mp hs with hs | hs
    · refine ⟨p.isLate around, ?_⟩
      rw [locatedAll, if_pos rfl, readingsAll_append]
      exact (below_sublist_located l hopen hpass p around count hs).trans
        (List.sublist_append_left _ _)
    · obtain ⟨late, hsub⟩ := below_sublist_locatedAll l hopen hpass ps around _ hs
      refine ⟨late, ?_⟩
      rw [locatedAll, readingsAll_append]
      exact hsub.trans (List.sublist_append_right _ _)

end

/-- A declarator of a declaration with a type is read as one. -/
theorem reading?_declarator (l : Layout) {around : List Node} {type : ValueType}
    (htype : Site.declaredType? around = some type) {c : Node} (hkind : c.kind = .variableDeclarator)
    (count : Nat) : Site.reading? l count (c, around) = some (Draft.ofDeclarator l type c) := by
  have hne : around.isEmpty = false := by
    cases around with
    | nil => simp [Site.declaredType?] at htype
    | cons n around => rfl
  simp [Site.reading?, hne, hkind, htype]

/-- A declarator of a declaration with a type comes late, and what is read there comes before
whatever is in it. -/
theorem declarator_sublist_located (l : Layout) {around : List Node} {type : ValueType}
    (htype : Site.declaredType? around = some type) {c : Node} (hkind : c.kind = .variableDeclarator)
    (count : Nat) : c.toPlaced.isLate around = true ∧
      [((c, around), Draft.ofDeclarator l type c)].Sublist
        (readingsAll (c.toPlaced.located l around count)) := by
  refine ⟨by simp [Node.toPlaced, isLate, hkind, htype], ?_⟩
  rw [Node.toPlaced, located, readingsAll_atSite, reading?_declarator l htype hkind]
  exact List.sublist_append_left _ _

/-- The declarators of a declaration with a type are read one after the other. -/
theorem declarators_sublist_locatedAll (l : Layout) {around : List Node} {type : ValueType}
    (htype : Site.declaredType? around = some type) (ps : List Placed) (count : Nat) :
    (Node.declaratorReadings l type around
      ((ps.filterMap node?).filter (·.kind == .variableDeclarator))).Sublist
        (readingsAll (locatedAll l around true count ps)) := by
  induction ps generalizing count with
  | nil => exact List.nil_sublist _
  | cons p ps ih =>
      rw [locatedAll, readingsAll_append]
      have hrest := ih (count + p.clauses)
      cases p with
      | token tok => exact hrest.trans (List.sublist_append_right _ _)
      | node kind range before children =>
          rw [List.filterMap_cons_some (show node? (.node kind range before children)
            = some ⟨kind, range, before, children⟩ from rfl)]
          by_cases hkind : kind = .variableDeclarator
          · obtain ⟨hlate, hhead⟩ := declarator_sublist_located l htype
              (c := ⟨kind, range, before, children⟩) hkind count
            rw [Node.toPlaced] at hlate hhead
            rw [List.filter_cons_of_pos (by simpa using hkind), Node.declaratorReadings_cons,
              if_pos hlate]
            exact hhead.append hrest
          · rw [List.filter_cons_of_neg (by simpa using hkind)]
            exact hrest.trans (List.sublist_append_right _ _)

end Placed

namespace SourceTree

variable {t : SourceTree} {d : Site}

/-- **What is read below a node is a subsequence of all that is read in the tree.** -/
theorem below_sublist_readings (hd : d ∈ t.node.nodes) (hroot : d.2 ≠ [])
    (hopen : d.isHidden t.layout = false) (hpass : d.hides t.layout = false) :
    (Located.readingsAll (d.below t.layout)).Sublist t.readings := by
  have hbelow : d ∈ Placed.nodesAll [t.node] t.node.children := by
    refine (List.mem_cons.mp hd).resolve_left ?_
    rintro rfl
    exact hroot rfl
  obtain ⟨late, hsub⟩ := Placed.below_sublist_locatedAll t.layout hopen hpass t.node.children
    [t.node] 0 hbelow
  cases late with
  | false => exact hsub
  | true =>
      rw [Placed.locatedAll_late rfl] at hsub
      exact hsub.trans (List.nil_sublist _)

/-- A declaration gives its declarators their type. -/
theorem IsDeclaration.declaredType? {type : Node} (h : t.IsDeclaration d type) :
    Site.declaredType? (d.1 :: d.2) = some (.ofSpelling type.significantText) := by
  obtain ⟨n, around⟩ := d
  cases around with
  | nil => exact absurd rfl h.belowRoot
  | cons outer around =>
      have hkind : n.kind = .variableDecl := h.kind
      have htype : n.type? = some type := h.type
      simp [Site.declaredType?, hkind, htype, Draft.typeOf]

/-- The sites with a symbol are those that a symbol comes from. -/
theorem mem_recorded_iff_origin? {m : Site} : m ∈ t.recorded ↔ ∃ id, t.origin? id = some m := by
  rw [← entries_recorded, List.mem_map]
  constructor
  · rintro ⟨e, he, rfl⟩
    exact ⟨e.id, (get?_model_of_entry he).2⟩
  · rintro ⟨id, hid⟩
    obtain ⟨e, he, -, hsite⟩ := entry_of_origin? hid
    exact ⟨e, he, hsite⟩

/-- A node is looked at if no symbol comes from a macro definition around it. -/
theorem not_defined_iff (hd : d ∈ t.node.nodes) :
    (∀ m ∈ Site.outward d.2, m.1.kind = .defineDirective → ∀ id, t.origin? id ≠ some m) ↔
      d.isHidden t.layout = false := by
  rw [← not_hidden_iff hd]
  simp only [mem_recorded_iff_origin?, not_exists, ne_eq]

/-- **The declarators of a declaration are read one after the other, whatever is read between.** -/
theorem declarators_sublist {type : Node} (h : t.IsDeclaration d type) :
    (Node.declaratorReadings t.layout (.ofSpelling type.significantText) (d.1 :: d.2)
      d.1.declarators).Sublist t.readings := by
  have hpass : d.hides t.layout = false := by simp [Site.hides, h.kind]
  have hopen := (not_defined_iff h.node).mp h.notHidden
  refine List.Sublist.trans ?_ (below_sublist_readings h.node h.belowRoot hopen hpass)
  rw [Site.below, Located.readingsAll_append]
  exact (Placed.declarators_sublist_locatedAll t.layout h.declaredType? d.1.children 0).trans
    (List.sublist_append_right _ _)

/-! ### The variables of a declaration -/

/-- The entries of a declaration's variables. -/
theorem exists_entries {type : Node} (h : t.IsDeclaration d type) :
    ∃ es, es.Sublist t.entries ∧ List.Forall₂ (fun e c => e.site = (c, d.1 :: d.2) ∧
      Draft.ofDeclarator t.layout (.ofSpelling type.significantText) c = .ok e.draft) es
        (d.1.declarators.filter (·.isDeclared t.layout)) := by
  have hsub : (draftsOf (Node.declaratorReadings t.layout (.ofSpelling type.significantText)
      (d.1 :: d.2) d.1.declarators)).Sublist (draftsOf t.readings) :=
    (declarators_sublist h).filterMap _
  rw [readings, ← Located.entriesAll_eq_draftsOf SymbolId.root 1] at hsub
  obtain ⟨es, hes, heq⟩ := List.sublist_map_iff.mp hsub
  have hrows := Node.forall₂_draftsOf_declarators t.layout (.ofSpelling type.significantText)
    (d.1 :: d.2) d.1.declarators
  rw [heq, List.forall₂_map_left_iff] at hrows
  exact ⟨es, hes, hrows⟩

end SourceTree

theorem exists_related_of_mem {α β : Type} {R : α → β → Prop} {xs : List α} {ys : List β}
    (h : List.Forall₂ R xs ys) {b : β} (hb : b ∈ ys) : ∃ a ∈ xs, R a b := by
  induction h with
  | nil => simp at hb
  | @cons a c xs ys hac _ ih =>
      rcases List.mem_cons.mp hb with rfl | hb
      · exact ⟨a, List.mem_cons_self, hac⟩
      · obtain ⟨x, hx, hxb⟩ := ih hb
        exact ⟨x, List.mem_cons_of_mem _ hx, hxb⟩

theorem exists_nearest (scope : Site → SymbolId → Prop) (sites : List Site) :
    ∃ id, Nearest scope sites id := by
  induction sites with
  | nil => exact ⟨_, .file⟩
  | cons m sites ih =>
      by_cases hm : ∃ id, scope m id
      · obtain ⟨id, hid⟩ := hm
        exact ⟨id, .here hid⟩
      · obtain ⟨id, hid⟩ := ih
        exact ⟨id, .outer (fun other hother => hm ⟨other, hother⟩) hid⟩

/-- There is one nearest scope, if no site has two. -/
theorem Nearest.unique {scope : Site → SymbolId → Prop} {sites : List Site} {id other : SymbolId}
    (hscope : ∀ m i j, scope m i → scope m j → i = j) (h : Nearest scope sites id)
    (h' : Nearest scope sites other) : id = other := by
  induction h with
  | file =>
      cases h'
      rfl
  | here hm =>
      cases h' with
      | here hm' => exact hscope _ _ _ hm hm'
      | outer hno _ => exact absurd hm (hno _)
  | outer hno _ ih =>
      cases h' with
      | here hm' => exact absurd hm' (hno _)
      | outer _ h' => exact ih h'

namespace SourceTree

variable {t : SourceTree} {d : Site}

/-- The symbol of such an entry is the variable of its declarator. -/
theorem declares_entry {type c : Node} {parent : SymbolId} {e : Entry}
    (hparent : Nearest (Analysis.ScopeOf ⟨t.model, t.trace⟩ t) (Site.outward (d.1 :: d.2)) parent)
    (he : e ∈ t.entries) (hsite : e.site = (c, d.1 :: d.2))
    (hdraft : Draft.ofDeclarator t.layout (.ofSpelling type.significantText) c = .ok e.draft) :
    t.Declares d type parent e.symbol c := by
  have hnearest := nearest_of_entry he
  rw [hsite] at hnearest
  obtain rfl : e.parent = parent :=
    hnearest.unique (fun m i j hi hj => origin?_injective hj.1 hi.1) hparent
  obtain ⟨hname, hdata⟩ := Draft.ofDeclarator_spec hdraft
  have hbuilt := builtFrom_entry he
  rw [hsite] at hbuilt
  refine ⟨hbuilt, hname, ?_, rfl⟩
  show e.draft.data.withBranches e.owned = _
  rw [hdata]
  rfl

/-- A draft is read at a declarator of the declaration if it has a name and a span. -/
theorem IsDeclaration.isDeclared_iff {type c : Node} (h : t.IsDeclaration d type)
    (hc : c ∈ d.1.declarators) {reading : Except Omission Draft}
    (hread : ((c, d.1 :: d.2), reading) ∈ t.readings) :
    c.isDeclared t.layout = true ↔ ∃ draft, reading = .ok draft := by
  have hkind : c.kind = .variableDeclarator := by
    simpa using (List.mem_filter.mp hc).2
  obtain ⟨count, hcount⟩ := t.reading?_of_mem hread
  rw [Placed.reading?_declarator t.layout h.declaredType? hkind] at hcount
  obtain rfl := Option.some.inj hcount
  rcases Draft.ofDeclarator_cases t.layout (.ofSpelling type.significantText) c with
    ⟨hyes, hok⟩ | ⟨hno, herror⟩
  · exact iff_of_true hyes hok
  · rw [hno, herror]
    simp

theorem mem_omissionsOf {rs : List (Site × Except Omission Draft)} {s : Site} {reason : Omission}
    (h : (s, reason) ∈ omissionsOf rs) : (s, .error reason) ∈ rs := by
  obtain ⟨⟨site, reading⟩, hmem, heq⟩ := List.mem_filterMap.mp h
  cases reading with
  | ok draft => simp [omission?] at heq
  | error other =>
      obtain ⟨rfl, rfl⟩ := Prod.mk.inj (Option.some.inj heq)
      exact hmem

theorem skips_model (t : SourceTree) :
    Analysis.Skips ⟨t.model, t.trace⟩ (omissionsOf t.readings) where
  nodup := (List.nodup_append.mp t.nodup_recorded_append_omitted).2.1
  events := t.omissions_trace
  count := t.omissions_stats

/-- **Every declaration with a type has its variables.** -/
theorem exists_declared {type : Node} (hwf : t.model.table.WellFormed) (h : t.IsDeclaration d type) :
    ∃ parent symbols, t.Declared ⟨t.model, t.trace⟩ (omissionsOf t.readings) d type parent symbols := by
  obtain ⟨parent, hparent⟩ := exists_nearest (Analysis.ScopeOf ⟨t.model, t.trace⟩ t)
    (Site.outward (d.1 :: d.2))
  obtain ⟨es, hes, hrows⟩ := exists_entries h
  have hlisted : (es.map Entry.symbol).Sublist t.model.table.toList := by
    rw [toList_model]
    exact (hes.map _).cons _
  refine ⟨parent, es.map Entry.symbol, hparent, hlisted, ?_, ?_, ?_, ?_, ?_⟩
  · have hids := (List.pairwise_lt_range (n := t.model.table.size))
    rw [← hwf.ids_eq_range, List.pairwise_map] at hids
    exact hids.sublist hlisted
  · rw [List.forall₂_map_left_iff]
    refine imp_related_of_mem hrows ?_
    intro e he c _ hec
    exact declares_entry hparent (hes.subset he) hec.1 hec.2
  · intro s hs c hc horigin
    obtain ⟨e, he, hid, hsite⟩ := entry_of_origin? horigin
    have hread := mem_readings_of_entry he
    rw [hsite] at hread
    have hyes : c.isDeclared t.layout = true :=
      h.isDeclared_iff hc hread |>.mpr ⟨e.draft, rfl⟩
    obtain ⟨f, hf, hfsite, -⟩ := exists_related_of_mem hrows (List.mem_filter.mpr ⟨hc, hyes⟩)
    obtain ⟨hget, hforigin⟩ := get?_model_of_entry (hes.subset hf)
    rw [hfsite] at hforigin
    rw [← origin?_injective hforigin horigin, hwf.get?_of_mem hs] at hget
    rw [Option.some.inj hget]
    exact List.mem_map_of_mem hf
  · rw [← Node.omissionsOf_declarators t.layout (.ofSpelling type.significantText)]
    exact (declarators_sublist h).filterMap _
  · rintro ⟨_, reason⟩ hx c hc rfl
    rw [Bool.eq_false_iff, Ne, h.isDeclared_iff hc (mem_omissionsOf hx)]
    rintro ⟨_, hok⟩
    simp at hok

/-- **Every variable is that of a declarator of a declaration with a type.** -/
theorem exists_declaration {s : Symbol} (hs : s ∈ t.model.table.toList) (hkind : s.kind = .variable) :
    ∃ d type, t.IsDeclaration d type ∧ ∃ c ∈ d.1.declarators,
      t.origin? s.id = some (c, d.1 :: d.2) := by
  obtain ⟨e, he, rfl⟩ := entry_of_mem hs (by simp [hkind])
  obtain ⟨_, hreads⟩ := reads_of_entry he
  rw [e.kind_symbol] at hkind
  obtain ⟨hc, d, outer, rest, type, haround, hd, htype⟩ := hreads.declared hkind
  have horigin := (get?_model_of_entry he).2
  obtain ⟨hmem, -, hopen⟩ := mem_recorded.mp (mem_recorded_iff_origin?.mpr ⟨_, horigin⟩)
  have hsite : e.site = (e.site.1, d :: outer :: rest) := by rw [← haround]
  rw [hsite] at hmem hopen horigin
  have hout : (d, outer :: rest) ∈ Site.outward (d :: outer :: rest) := List.mem_cons_self
  have hdmem := t.mem_nodes_of_outward hmem hout
  have hnone := (not_defined_iff hdmem).mpr (Site.isHidden_of_outward hout hopen)
  refine ⟨(d, outer :: rest), type, ⟨hdmem, by simp, hd, htype, hnone⟩, e.site.1, ?_, horigin⟩
  refine List.mem_filter.mpr ⟨mem_childNodes_of_mem_nodes hmem, ?_⟩
  simpa using hc

end SourceTree

/-- **The declarators of a declaration with a type become its variables, one by one and in order;
those without a name or a span are left out alone, and there are no other variables.** -/
theorem Analysis.variables_declared (t : SourceTree) :
    (t.InBounds → ∃ a, Analysis.ofTree t = .ok a) ∧
      ∀ a, Analysis.ofTree t = .ok a → ∃ skips, a.Skips skips ∧
        (∀ d type, t.IsDeclaration d type → ∃ parent symbols,
          t.Declared a skips d type parent symbols) ∧
        ∀ s ∈ a.model.table.toList, s.kind = .variable → ∃ d type, t.IsDeclaration d type ∧
          ∃ c ∈ d.1.declarators, t.origin? s.id = some (c, d.1 :: d.2) := by
  refine ⟨fun h => ⟨_, Analysis.ofTree_of_inBounds h⟩, ?_⟩
  intro a ha
  have hwf := wellFormed_table ha
  obtain ⟨-, rfl⟩ := Analysis.ofTree_ok_iff.mp ha
  exact ⟨_, t.skips_model, fun _ _ h => SourceTree.exists_declared hwf h,
    fun _ hs hkind => SourceTree.exists_declaration hs hkind⟩

/-- A declaration of four variables: the first has another declaration in its initialiser, the
second has no name, the third starts with a node without children, and the last is in order. -/
def SourceTree.enumerating : SourceTree :=
  .ofItems ⟨0⟩ {}
    [.node Kind.variableDecl.tag
      [.node Kind.primitiveType.tag [.token Kind.typeKw.tag "int"], .token Kind.whitespace.tag " ",
       .node Kind.variableDeclarator.tag
        [.node Kind.name.tag [.token Kind.ident.tag "x"],
         .node Kind.inlineClosure.tag
          [.token Kind.closureOpen.tag "(:",
           .node Kind.variableDecl.tag
            [.node Kind.primitiveType.tag [.token Kind.typeKw.tag "string"],
             .node Kind.variableDeclarator.tag
              [.node Kind.name.tag [.token Kind.ident.tag "q"]]]]],
       .node Kind.variableDeclarator.tag [.token Kind.eq.tag "="],
       .node Kind.variableDeclarator.tag
        [.node Kind.modifierList.tag [], .node Kind.name.tag [.token Kind.ident.tag "z"]],
       .node Kind.variableDeclarator.tag [.node Kind.name.tag [.token Kind.ident.tag "y"]]]]

theorem Analysis.variables_declared_enumerating :
    SourceTree.enumerating.InBounds ∧ ∃ a skips d type parent symbols,
      Analysis.ofTree .enumerating = .ok a ∧ a.Skips skips ∧
      SourceTree.enumerating.IsDeclaration d type ∧ type.significantText = "int" ∧
      SourceTree.enumerating.Declared a skips d type parent symbols ∧
      symbols.map (·.name) = ["x", "y"] ∧ a.model.stats.omissions = 2 := by
  have hbounds : SourceTree.enumerating.InBounds := ⟨by decide +kernel, by decide +kernel⟩
  have hsite : (SourceTree.enumerating.node.nodes[1]?.map fun d =>
      (d.1.kind, (Site.outward d.2).map (·.1.kind), d.1.type?.map (·.significantText),
        (d.1.declarators.filter (·.isDeclared SourceTree.enumerating.layout)).map
          fun c => c.nameIdent?.map (·.text)))
        = some (.variableDecl, [.sourceFile], some "int", [some "x", some "y"]) := by
    decide +kernel
  have hstats : ((Analysis.ofTree .enumerating).toOption.map (·.model.stats.omissions)) = some 2 := by
    decide +kernel
  obtain ⟨d, hd, hsite⟩ := Option.map_eq_some_iff.mp hsite
  simp only [Prod.mk.injEq] at hsite
  obtain ⟨hkind, haround, htype, hnames⟩ := hsite
  obtain ⟨type, htype, hint⟩ := Option.map_eq_some_iff.mp htype
  have hdecl : SourceTree.enumerating.IsDeclaration d type := by
    refine ⟨List.mem_of_getElem? hd, ?_, hkind, htype, ?_⟩
    · intro hnil
      simp [hnil, Site.outward] at haround
    · intro m hm hdefine
      have hmem : m.1.kind ∈ (Site.outward d.2).map (·.1.kind) := List.mem_map_of_mem hm
      simp [haround, hdefine] at hmem
  obtain ⟨hok, hall⟩ := variables_declared .enumerating
  obtain ⟨a, ha⟩ := hok hbounds
  obtain ⟨skips, hskips, hdeclared, -⟩ := hall a ha
  obtain ⟨parent, symbols, hsymbols⟩ := hdeclared d type hdecl
  rw [ha] at hstats
  refine ⟨hbounds, a, skips, d, type, parent, symbols, ha, hskips, hdecl, hint, hsymbols, ?_,
    Option.some.inj hstats⟩
  have hsame : symbols.map (fun s => some s.name) = [some "x", some "y"] := by
    rw [← hnames]
    exact map_related hsymbols.declares fun s c h => h.name.symm
  simpa [List.map_eq_cons_iff] using hsame

end LpcSymbols
