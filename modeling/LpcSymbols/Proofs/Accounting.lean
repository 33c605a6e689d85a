/-
Every construct is accounted for.

Which nodes of a tree ask for a symbol is said here without the walk.  A node is
eligible if it is below the root, not below a macro definition with a symbol, and of
a kind that stands for a construct; a few kinds do so only as children of a
declaration or of an `if` statement with a symbol.

The walk turns each eligible node into one symbol or one omission, and nothing else
into either.  The two ways in which eligibility speaks of symbols, below a macro
definition and in an `if` statement, are both about nodes further out, so the
definition is not circular.
-/
import LpcSymbols.Proofs.Outcome

namespace LpcSymbols

/-- Nodes of the kind are constructs wherever they stand. -/
def Kind.standsAlone : Kind → Bool
  | .defineDirective | .selectionDirective | .includeDirective | .inheritStatement
  | .functionDecl | .param | .ifStatement | .inlineClosure | .primaryExpr | .identExpr => true
  | _ => false

namespace Site

/-- The site is a construct, given which sites have a symbol. -/
inductive Construct (hasSymbol : Site → Prop) : Site → Prop
  | alone {n : Node} {around : List Node} (kind : n.kind.standsAlone = true) :
      Construct hasSymbol (n, around)
  /-- A declaration without a type. -/
  | untyped {n : Node} {around : List Node} (kind : n.kind = .variableDecl)
      (type : ∀ c ∈ n.childNodes, c.kind ≠ .primitiveType) : Construct hasSymbol (n, around)
  /-- A variable of a declaration with a type. -/
  | declarator {n decl outer : Node} {around : List Node} (kind : n.kind = .variableDeclarator)
      (parent : decl.kind = .variableDecl) (type : ∃ c ∈ decl.childNodes, c.kind = .primitiveType) :
      Construct hasSymbol (n, decl :: outer :: around)
  /-- A clause of an `if` statement with a symbol. -/
  | clause {n stmt outer : Node} {around : List Node}
      (kind : n.kind = .ifClause ∨ n.kind = .elseIfClause ∨ n.kind = .elseClause)
      (parent : stmt.kind = .ifStatement) (symbol : hasSymbol (stmt, outer :: around)) :
      Construct hasSymbol (n, stmt :: outer :: around)

/-- The site asks for a symbol, given which sites have one. -/
structure Eligible (hasSymbol : Site → Prop) (s : Site) : Prop where
  belowRoot : s.2 ≠ []
  notHidden : ∀ m ∈ outward s.2, m.1.kind = .defineDirective → ¬ hasSymbol m
  construct : s.Construct hasSymbol

theorem isSome_type?_iff (n : Node) :
    n.type?.isSome = true ↔ ∃ c ∈ n.childNodes, c.kind = .primitiveType := by
  simp [Node.type?, Node.child?]

/-- Where the sites with a symbol are known, the constructs are those that are read. -/
theorem construct_iff {l : Layout} {hasSymbol : Site → Prop} {s : Site} (hbelow : s.2 ≠ [])
    (hparent : ∀ n m around, s.2 = n :: m :: around → n.kind = .ifStatement →
      (hasSymbol (n, m :: around) ↔ (l.span? n).isSome = true)) :
    s.Construct hasSymbol ↔ s.isConstruct l = true := by
  obtain ⟨n, around⟩ := s
  constructor
  · intro h
    cases h with
    | alone kind =>
        cases hk : n.kind <;> simp_all [Kind.standsAlone, isConstruct]
    | untyped kind type =>
        have htype : n.type?.isSome = false := by
          rw [Bool.eq_false_iff, Ne, isSome_type?_iff]
          rintro ⟨c, hc, hkind⟩
          exact type c hc hkind
        simp only [isConstruct, kind, htype]
        simpa using hbelow
    | declarator kind parent type =>
        obtain ⟨type, htype⟩ := Option.isSome_iff_exists.mp ((isSome_type?_iff _).mpr type)
        simp [isConstruct, kind, declaredType?, parent, htype]
    | clause kind parent symbol =>
        have hspan := (hparent _ _ _ rfl parent).mp symbol
        rcases kind with kind | kind | kind <;>
          simp [isConstruct, kind, ifSpan?, parent, hspan, Kind.branch?]
  · intro h
    unfold isConstruct at h
    rw [Bool.and_eq_true] at h
    obtain ⟨-, h⟩ := h
    split at h
    case h_11 hk =>
      refine .untyped hk ?_
      intro c hc hkind
      have hsome := (isSome_type?_iff n).mpr ⟨c, hc, hkind⟩
      simp [hsome] at h
    case h_12 hk =>
      simp only [declaredType?] at h
      split at h
      · rename_i decl outer rest
        split at h
        · rename_i hdecl
          refine .declarator hk hdecl ((isSome_type?_iff _).mp ?_)
          simpa using h
        · simp at h
      · simp at h
    case h_13 =>
      rw [Bool.and_eq_true] at h
      obtain ⟨hbranch, hspan⟩ := h
      have hkind : n.kind = .ifClause ∨ n.kind = .elseIfClause ∨ n.kind = .elseClause := by
        simp only [Kind.branch?] at hbranch
        split at hbranch <;> simp_all
      simp only [ifSpan?] at hspan
      split at hspan
      · rename_i stmt outer rest
        split at hspan
        · rename_i hstmt
          exact .clause hkind hstmt ((hparent _ _ _ rfl hstmt).mpr hspan)
        · simp at hspan
      · simp at hspan
    all_goals
      rename_i hk
      refine .alone ?_
      simp only at hk
      rw [hk]
      rfl

/-- What is around a site that is not hidden is not hidden. -/
theorem isHidden_of_outward {l : Layout} {s m : Site} (hm : m ∈ outward s.2)
    (hs : s.isHidden l = false) : m.isHidden l = false := by
  have hsuffix : m.2 <:+ s.2 := (List.suffix_cons _ _).trans (suffix_of_mem_outward hm)
  refine List.any_eq_false.mpr ?_
  intro x hx
  exact List.any_eq_false.mp hs x ((outward_suffix hsuffix).subset hx)

/-- A hidden site is hidden by a site that is not hidden itself. -/
theorem exists_hides_of_isHidden {l : Layout} {around : List Node}
    (h : (outward around).any (hides l) = true) :
    ∃ m ∈ outward around, m.hides l = true ∧ m.isHidden l = false := by
  induction around with
  | nil => simp [outward] at h
  | cons n around ih =>
      by_cases hrest : (outward around).any (hides l) = true
      · obtain ⟨m, hm, hhides⟩ := ih hrest
        exact ⟨m, List.mem_cons_of_mem _ hm, hhides⟩
      · simp only [Bool.not_eq_true] at hrest
        refine ⟨(n, around), List.mem_cons_self, ?_, hrest⟩
        simpa [outward, hrest] using h

end Site

namespace SourceTree

variable {t : SourceTree} {s : Site}

theorem mem_recorded_iff_reading :
    s ∈ t.recorded ↔ ∃ d, (s, .ok d) ∈ t.readings := by
  simp only [recorded, draftsOf, List.mem_map, List.mem_filterMap]
  constructor
  · rintro ⟨⟨_, d⟩, ⟨⟨site, e⟩, hx, hd⟩, rfl⟩
    cases e with
    | error reason => simp [Except.toOption] at hd
    | ok draft =>
        obtain ⟨rfl, rfl⟩ := Prod.mk.inj (Option.some.inj hd)
        exact ⟨_, hx⟩
  · rintro ⟨d, hd⟩
    exact ⟨(s, d), ⟨(s, .ok d), hd, rfl⟩, rfl⟩

/-- The sites with a symbol are those that are read and not hidden. -/
theorem mem_recorded :
    s ∈ t.recorded ↔
      s ∈ t.node.nodes ∧ s.isRead t.layout = true ∧ s.isHidden t.layout = false := by
  rw [mem_recorded_iff_reading]
  constructor
  · rintro ⟨d, hd⟩
    obtain ⟨c, hc⟩ := t.reading?_of_mem hd
    have hmem : s ∈ t.readings.map (·.1) := List.mem_map.mpr ⟨_, hd, rfl⟩
    rw [t.readings_perm.mem_iff, Placed.visible, List.mem_filter] at hmem
    obtain ⟨hnodes, hvisible⟩ := hmem
    simp only [Bool.and_eq_true, Bool.not_eq_true'] at hvisible
    exact ⟨hnodes, (Site.reading?_ok_iff _ _ _).mp ⟨d, hc⟩, hvisible.2⟩
  · rintro ⟨hnodes, hread, hhidden⟩
    have hconstruct : s.isConstruct t.layout = true := by
      simp only [Site.isRead, Bool.and_eq_true] at hread
      exact hread.1.1
    have hmem : s ∈ t.readings.map (·.1) := by
      rw [t.readings_perm.mem_iff, Placed.visible, List.mem_filter]
      simp [hnodes, hconstruct, hhidden]
    obtain ⟨⟨_, e⟩, hx, rfl⟩ := List.mem_map.mp hmem
    obtain ⟨c, hc⟩ := t.reading?_of_mem hx
    obtain ⟨d, hd⟩ := (Site.reading?_ok_iff _ c _).mpr hread
    obtain rfl : e = .ok d := Option.some.inj (hc.symm.trans hd)
    exact ⟨d, hx⟩

/-- Hidden below a definition that is read is hidden below one that has a symbol. -/
theorem not_hidden_iff (hs : s ∈ t.node.nodes) :
    (∀ m ∈ Site.outward s.2, m.1.kind = .defineDirective → m ∉ t.recorded) ↔
      s.isHidden t.layout = false := by
  constructor
  · intro h
    rw [Bool.eq_false_iff]
    intro hyes
    obtain ⟨m, hm, hhides, hopen⟩ := Site.exists_hides_of_isHidden hyes
    simp only [Site.hides, Bool.and_eq_true, beq_iff_eq] at hhides
    have hmem : m ∈ t.node.nodes := t.mem_nodes_of_outward hs hm
    exact h m hm hhides.1 (mem_recorded.mpr ⟨hmem, hhides.2, hopen⟩)
  · intro h m hm hkind hrecorded
    have hread := (mem_recorded.mp hrecorded).2.1
    have hno := List.any_eq_false.mp h m hm
    simp [Site.hides, hkind, hread] at hno

/-- An `if` statement around a site that is not hidden has a symbol if it has a span. -/
theorem ifStatement_mem_recorded (hs : s ∈ t.node.nodes) (hopen : s.isHidden t.layout = false)
    {n m : Node} {around : List Node} (hsplit : s.2 = n :: m :: around)
    (hkind : n.kind = .ifStatement) :
    (n, m :: around) ∈ t.recorded ↔ (t.layout.span? n).isSome = true := by
  have hmem : (n, m :: around) ∈ Site.outward s.2 := by
    rw [hsplit]
    exact List.mem_cons_self
  have hnodes := t.mem_nodes_of_outward hs hmem
  have hparent := Site.isHidden_of_outward hmem hopen
  rw [mem_recorded]
  simp [hnodes, hparent, Site.isRead, Site.isConstruct, hkind, Node.hasParts]

/-- **Eligible sites are the constructs that are not hidden.** -/
theorem eligible_iff (hs : s ∈ t.node.nodes) :
    s.Eligible (· ∈ t.recorded) ↔
      s.isConstruct t.layout = true ∧ s.isHidden t.layout = false := by
  constructor
  · intro h
    have hopen := (not_hidden_iff hs).mp h.notHidden
    refine ⟨(Site.construct_iff h.belowRoot ?_).mp h.construct, hopen⟩
    intro n m around hsplit hkind
    exact ifStatement_mem_recorded hs hopen hsplit hkind
  · rintro ⟨hconstruct, hopen⟩
    have hbelow : s.2 ≠ [] := by
      intro hnil
      simp [Site.isConstruct, hnil] at hconstruct
    refine ⟨hbelow, (not_hidden_iff hs).mpr hopen, (Site.construct_iff hbelow ?_).mpr hconstruct⟩
    intro n m around hsplit hkind
    exact ifStatement_mem_recorded hs hopen hsplit hkind

end SourceTree

/-! ### The account -/

/-- An account of an analysis: the sites that became symbols and those that were left out. -/
structure Analysis.Accounts (t : SourceTree) (a : Analysis) (recorded omitted : List Site) :
    Prop where
  /-- No site is treated twice. -/
  nodup : (recorded ++ omitted).Nodup
  /-- The eligible nodes are treated, and no others. -/
  eligible : ∀ s, s ∈ recorded ++ omitted ↔ s ∈ t.node.nodes ∧ s.Eligible (· ∈ recorded)
  /-- A site has a symbol if the parts that its construct needs are there and it has a span. -/
  complete : ∀ s ∈ recorded ++ omitted,
    (s ∈ recorded ↔ s.1.hasParts = true ∧ (t.layout.span? s.1).isSome = true)
  /-- The symbols below that of the file are those of the recorded sites. -/
  symbols : a.model.table.toList.tail.map (fun s => (s.node.kind, s.node.range))
    = recorded.map fun s => (s.1.kind, s.1.range)
  /-- The trace tells of the omitted sites. -/
  events : (a.trace.filterMap TraceEvent.omission?).map (fun x => (x.1.kind, x.1.range))
    = omitted.map fun s => (s.1.kind, s.1.range)
  /-- An omission names the kind of its node. -/
  named : ∀ x ∈ a.trace.filterMap TraceEvent.omission?, x.2.construct = x.1.kind
  count : a.model.table.size - 1 + a.model.stats.omissions = (recorded ++ omitted).length

namespace SourceTree

/-- Every symbol refers to the node of its site. -/
theorem nodes_symbols (t : SourceTree) :
    t.model.table.toList.tail.map (·.node) = t.recorded.map (·.1.ref) := by
  rw [symbols_model, ← entries_recorded, List.map_map, List.map_map]
  refine List.map_congr_left ?_
  intro e he
  exact (isOf_of_entry he).node

theorem omissions_trace (t : SourceTree) :
    t.trace.filterMap TraceEvent.omission?
      = (omissionsOf t.readings).map fun x => (x.1.1.ref, x.2) := by
  have h := Located.eventsAll_eq_omissionsOf 1 1 (t.located t.layout)
  simp only [trace, List.filterMap_append, h, List.filterMap_cons, TraceEvent.omission?,
    List.filterMap_nil, List.nil_append, List.append_nil]
  rfl

theorem construct_of_omission {t : SourceTree} {x : Site × Omission} (hx : x ∈ omissionsOf t.readings) :
    x.2.construct = x.1.1.kind := by
  obtain ⟨⟨site, e⟩, hmem, hreason⟩ := List.mem_filterMap.mp hx
  cases e with
  | ok draft => simp [omission?] at hreason
  | error reason =>
      obtain rfl := Option.some.inj hreason
      obtain ⟨c, hc⟩ := t.reading?_of_mem hmem
      exact (Site.reading?_readsAs hc).construct reason rfl

theorem accounts (t : SourceTree) : Analysis.Accounts t ⟨t.model, t.trace⟩ t.recorded t.omitted where
  nodup := t.nodup_recorded_append_omitted
  eligible := by
    intro s
    rw [mem_recorded_append_omitted]
    exact ⟨fun h => ⟨h.1, (eligible_iff h.1).mpr h.2⟩, fun h => ⟨h.1, (eligible_iff h.1).mp h.2⟩⟩
  complete := by
    intro s hs
    obtain ⟨hnodes, hconstruct, hopen⟩ := mem_recorded_append_omitted.mp hs
    rw [mem_recorded]
    simp [hnodes, hopen, Site.isRead, hconstruct]
  symbols := by
    have hpairs := congrArg (List.map fun n : NodeRef => (n.kind, n.range)) t.nodes_symbols
    rw [List.map_map, List.map_map] at hpairs
    exact hpairs
  events := by
    rw [omissions_trace, omitted, List.map_map, List.map_map]
    rfl
  named := by
    rw [omissions_trace]
    intro x hx
    obtain ⟨y, hy, rfl⟩ := List.mem_map.mp hx
    exact construct_of_omission hy
  count := by
    have hrecorded : t.recorded.length = t.entries.length := by
      rw [← entries_recorded, List.length_map]
    have homitted : t.omitted.length = t.stats.omissions := by
      rw [omissions_stats, omitted, List.length_map]
    rw [List.length_append, hrecorded, homitted, t.size_model]
    rfl

end SourceTree

/-- **Every eligible node becomes one symbol or one omission, and nothing else becomes either.** -/
theorem Analysis.exists_accounts (t : SourceTree) :
    (t.InBounds → ∃ a, Analysis.ofTree t = .ok a) ∧
      ∀ a, Analysis.ofTree t = .ok a → ∃ recorded omitted, a.Accounts t recorded omitted := by
  refine ⟨fun h => ⟨_, Analysis.ofTree_of_inBounds h⟩, ?_⟩
  intro a ha
  obtain ⟨-, rfl⟩ := Analysis.ofTree_ok_iff.mp ha
  exact ⟨t.recorded, t.omitted, t.accounts⟩

/-- A declaration without a type, a macro definition that hides a name, and a condition. -/
def SourceTree.conditional : SourceTree :=
  .ofItems ⟨0⟩ {}
    [.node Kind.variableDecl.tag [.token Kind.ident.tag "x"],
     .node Kind.defineDirective.tag
      [.token Kind.defineLine.tag "#define A 1",
       .node Kind.identExpr.tag [.token Kind.ident.tag "y"]],
     .node Kind.ifStatement.tag
      [.node Kind.ifClause.tag [.node Kind.identExpr.tag [.token Kind.ident.tag "z"]]]]

theorem Analysis.exists_accounts_conditional :
    SourceTree.conditional.InBounds ∧ ∃ a recorded omitted,
      Analysis.ofTree .conditional = .ok a ∧ a.Accounts .conditional recorded omitted ∧
        a.model.table.size = 5 ∧ a.model.stats.omissions = 1 := by
  have hbounds : SourceTree.conditional.InBounds := ⟨by decide +kernel, by decide +kernel⟩
  have hcounts : ((Analysis.ofTree .conditional).toOption.map fun a =>
      (a.model.table.size, a.model.stats.omissions)) = some (5, 1) := by decide +kernel
  obtain ⟨hok, haccounts⟩ := exists_accounts .conditional
  obtain ⟨a, ha⟩ := hok hbounds
  obtain ⟨recorded, omitted, h⟩ := haccounts a ha
  rw [ha] at hcounts
  obtain ⟨hsize, homissions⟩ := Prod.mk.inj (Option.some.inj hcounts)
  exact ⟨hbounds, a, recorded, omitted, ha, h, hsize, homissions⟩

end LpcSymbols
