/-
The innermost symbol at an offset.

The search by offset goes down from the file.  At each symbol it takes the first child
that the offset touches, so it could take a wrong turn wherever the offset touches two
children.  Nodes are nested or apart, and an offset inside one node does not touch a node
that is apart from it.  What is left are children of one symbol whose nodes are nested.

Two scopes are never in that position, because the inner one would be owned by the outer
one.  So the search for a scope is right: every scope with the offset inside it is the
answer or owns the answer.  But a symbol that is no scope does not own what is found below
its node.  It comes first among the children, the search takes it, and there it ends, with
smaller symbols at the offset.
-/
import LpcSymbols.Proofs.Nesting
import LpcSymbols.Proofs.SourceOrder
import Mathlib.Data.List.Pairwise

namespace LpcSymbols

namespace TextRange

/-- The offset lies inside the range, and not at one of its ends. -/
def Surrounds (r : TextRange) (offset : Nat) : Prop := r.start < offset ∧ offset < r.stop

variable {r outer : TextRange} {offset : Nat}

theorem touches_iff : r.touches offset = true ↔ r.start ≤ offset ∧ offset ≤ r.stop := by
  simp [touches]

theorem Surrounds.touches (h : r.Surrounds offset) : r.touches offset = true :=
  touches_iff.mpr ⟨Nat.le_of_lt h.1, Nat.le_of_lt h.2⟩

theorem Within.surrounds (h : r.Within outer) (hr : r.Surrounds offset) : outer.Surrounds offset :=
  ⟨Nat.lt_of_le_of_lt h.start_le hr.1, Nat.lt_of_lt_of_le hr.2 h.stop_le⟩

theorem Within.touches (h : r.Within outer) (hr : r.touches offset = true) :
    outer.touches offset = true := by
  obtain ⟨hstart, hstop⟩ := touches_iff.mp hr
  exact touches_iff.mpr ⟨Nat.le_trans h.start_le hstart, Nat.le_trans hstop h.stop_le⟩

theorem Within.antisymm (h : r.Within outer) (h' : outer.Within r) : r = outer := by
  have hstart := Nat.le_antisymm h'.start_le h.start_le
  have hstop := Nat.le_antisymm h.stop_le h'.stop_le
  obtain ⟨a, b⟩ := r
  obtain ⟨c, d⟩ := outer
  rw [mk.injEq]
  exact ⟨hstart, hstop⟩

end TextRange

/-! ### Nodes are nested or apart -/

namespace Site

theorem outward_trans {s m r : Site} (hsm : s ∈ outward m.2) (hmr : m ∈ outward r.2) :
    s ∈ outward r.2 := by
  have hsuffix : m.2 <:+ r.2 := (List.suffix_cons _ _).trans (suffix_of_mem_outward hmr)
  exact (outward_suffix hsuffix).subset hsm

/-- The first site is around the second, or it ends before the second starts. -/
def OpensFirst (s r : Site) : Prop := s ∈ outward r.2 ∨ s.1.range.stop ≤ r.1.range.start

end Site

namespace Element

mutual

theorem opensFirst_place (start before : Nat) (around : List Node) :
    ∀ e : Element, ((e.place start before).nodes around).Pairwise Site.OpensFirst
  | .token _ _ => by simp [place, Placed.nodes]
  | .node tag children => by
    simp only [place, Placed.nodes]
    refine List.pairwise_cons.mpr ⟨?_, opensFirst_placeAll start before _ children⟩
    intro r hr
    obtain ⟨-, -, hsuffix⟩ := nodesAll_place_bounds start before _ children r hr
    exact Or.inl ((Site.outward_suffix hsuffix).subset List.mem_cons_self)

/-- **In a placed row, an earlier node is around a later one, or it ends before it.** -/
theorem opensFirst_placeAll (start before : Nat) (around : List Node) :
    ∀ es : List Element,
      (Placed.nodesAll around (placeAll start before es)).Pairwise Site.OpensFirst
  | [] => List.Pairwise.nil
  | e :: es => by
    simp only [placeAll, Placed.nodesAll]
    refine List.pairwise_append.mpr ⟨opensFirst_place start before around e,
      opensFirst_placeAll _ _ around es, ?_⟩
    intro s hs r hr
    obtain ⟨_, _, -, -, -, -, hright⟩ := standsIn_place start before around e s hs
    obtain ⟨_, _, -, -, hleft, -⟩ := standsIn_placeAll _ _ around es r hr
    exact Or.inr (Nat.le_trans hright.le hleft.le)

end

end Element

namespace SourceTree

variable {s r : Site}

/-- Of two nodes, one opens first. -/
theorem opensFirst_or (t : SourceTree) (hs : s ∈ t.node.nodes) (hr : r ∈ t.node.nodes)
    (hne : s ≠ r) : Site.OpensFirst s r ∨ Site.OpensFirst r s := by
  have hnodes : t.node.nodes.Pairwise fun a b => Site.OpensFirst a b ∨ Site.OpensFirst b a :=
    (Element.opensFirst_place 0 0 [] t.root).imp Or.inl
  have hsymm : Std.Symm fun a b => Site.OpensFirst a b ∨ Site.OpensFirst b a := ⟨fun _ _ => Or.symm⟩
  exact hnodes.forall hs hr hne

/-- Of two nodes, one touched by an offset and the other with the offset inside it, one is around
the other. -/
theorem around_of_overlap (t : SourceTree) {offset : Nat} (hs : s ∈ t.node.nodes)
    (hr : r ∈ t.node.nodes) (htouch : s.1.range.touches offset = true)
    (hinside : r.1.range.Surrounds offset) :
    s = r ∨ s ∈ Site.outward r.2 ∨ r ∈ Site.outward s.2 := by
  by_cases heq : s = r
  · exact Or.inl heq
  obtain ⟨hlo, hhi⟩ := TextRange.touches_iff.mp htouch
  obtain ⟨hlo', hhi'⟩ := hinside
  rcases t.opensFirst_or hs hr heq with (hout | hapart) | (hout | hapart)
  · exact Or.inr (Or.inl hout)
  · omega
  · exact Or.inr (Or.inr hout)
  · omega

/-- Of two nodes with the same bytes inside them, one is around the other. -/
theorem around_of_within (t : SourceTree) {c : TextRange} (hs : s ∈ t.node.nodes)
    (hr : r ∈ t.node.nodes) (hc : c.start < c.stop) (hcs : c.Within s.1.range)
    (hcr : c.Within r.1.range) : s = r ∨ s ∈ Site.outward r.2 ∨ r ∈ Site.outward s.2 := by
  by_cases heq : s = r
  · exact Or.inl heq
  have hstart := hcs.start_le
  have hstop := hcs.stop_le
  have hstart' := hcr.start_le
  have hstop' := hcr.stop_le
  rcases t.opensFirst_or hs hr heq with (hout | hapart) | (hout | hapart)
  · exact Or.inr (Or.inl hout)
  · omega
  · exact Or.inr (Or.inr hout)
  · omega

end SourceTree

/-! ### Scopes around a node own what is below it -/

/-- The nearest scope is a given one, or it is further inside. -/
theorem Nearest.eq_or_inner {scope : Site → SymbolId → Prop} {around : List Node} {m : Site}
    {id other : SymbolId} (h : Nearest scope (Site.outward around) id)
    (hm : m ∈ Site.outward around) (hscope : scope m other) :
    ∃ s, scope s id ∧ (s = m ∨ m ∈ Site.outward s.2) := by
  induction around with
  | nil => simp [Site.outward] at hm
  | cons n around ih =>
      cases h with
      | here hid =>
          refine ⟨(n, around), hid, ?_⟩
          exact (List.mem_cons.mp hm).imp_left Eq.symm
      | outer hnone hrest =>
          rcases List.mem_cons.mp hm with rfl | hm
          · exact absurd hscope (hnone other)
          · exact ih hrest hm

namespace SourceTree

variable {t : SourceTree}

/-- **A scope owns every symbol that was built from a node below its own.** -/
theorem descends_of_outward (hwf : t.model.table.WellFormed) {e : Entry} (he : e ∈ t.entries)
    (hscope : e.symbol.isScope = true) {f : Entry} (hf : f ∈ t.entries)
    (hout : e.site ∈ Site.outward f.site.2) : t.model.table.Descends e.id f.parent := by
  have hkind : e.draft.data.kind.isScope = true := by
    rw [← isScope_symbol]
    exact hscope
  -- The induction goes up from the symbol of `f`, scope by scope, until that of `e` is met.
  have hall : ∀ id, ∀ f ∈ t.entries, f.id = id → e.site ∈ Site.outward f.site.2 →
      t.model.table.Descends e.id f.parent := by
    intro id
    induction id using hwf.induction_up with
    | top id hnone =>
        intro f hf hid _
        rw [← hid, (holds_entry hf).parent] at hnone
        simp at hnone
    | up id p hp ih =>
        intro f hf hid hout
        have hparent : f.parent = p := by
          rw [← hid, (holds_entry hf).parent] at hp
          exact Option.some.inj hp
        obtain ⟨s, ⟨horigin, -⟩, hs⟩ :=
          (nearest_of_entry hf).eq_or_inner hout (scopeOf_entry he hkind)
        obtain ⟨q, hq, hqid, rfl⟩ := entry_of_origin? horigin
        rcases hs with heq | hinner
        · have hsame : t.origin? e.id = some q.site := by
            rw [heq]
            exact (get?_model_of_entry he).2
          rw [origin?_injective hsame horigin]
          exact .self
        · have habove := ih q hq (hqid.trans hparent) hinner
          rw [← hqid]
          exact .step (holds_entry hq).parent habove
  exact hall f.id f hf rfl hout

/-- Of two children of one symbol, the outer one is no scope. -/
theorem not_isScope_of_outward (hwf : t.model.table.WellFormed) {e f : Entry} (he : e ∈ t.entries)
    (hf : f ∈ t.entries) (hparent : e.parent = f.parent) (hout : e.site ∈ Site.outward f.site.2) :
    e.symbol.isScope = false := by
  rw [Bool.eq_false_iff]
  intro hscope
  have hle := (descends_of_outward hwf he hscope hf hout).le hwf
  have hlt := hwf.parent_lt (holds_entry he).parent
  rw [hparent] at hlt
  exact absurd hle (Nat.not_le.mpr hlt)

/-! ### Symbols below nodes -/

/-- Symbol `j` was built from a node below that of symbol `i`. -/
def Encloses (t : SourceTree) (i j : SymbolId) : Prop :=
  ∃ s r, t.origin? i = some s ∧ t.origin? j = some r ∧ s ∈ Site.outward r.2

theorem Encloses.trans {i j k : SymbolId} (hij : t.Encloses i j) (hjk : t.Encloses j k) :
    t.Encloses i k := by
  obtain ⟨s, m, hs, hm, hsm⟩ := hij
  obtain ⟨m', r, hm', hr, hmr⟩ := hjk
  obtain rfl := Option.some.inj (hm.symm.trans hm')
  exact ⟨s, r, hs, hr, Site.outward_trans hsm hmr⟩

/-- A symbol was built from a node below that of its parent. -/
theorem encloses_of_parent? {p j : SymbolId} (hp : t.model.table.parent? j = some p)
    (hroot : p ≠ SymbolId.root) (hj : j ≠ SymbolId.root) : t.Encloses p j := by
  obtain ⟨f, hf, rfl⟩ := exists_entry (SymbolTable.lt_size_of_parent? hp) hj
  obtain rfl : f.parent = p := by
    rw [(holds_entry hf).parent] at hp
    exact Option.some.inj hp
  rcases (nearest_of_entry hf).root_or_mem with hfile | ⟨m, hm, horigin, -⟩
  · exact absurd hfile hroot
  · exact ⟨m, f.site, horigin, (get?_model_of_entry hf).2, hm⟩

/-- What is below a symbol was built from nodes below those around the symbol. -/
theorem Encloses.descends {i j k : SymbolId} (hwf : t.model.table.WellFormed)
    (hij : t.Encloses i j) (hjk : t.model.table.Descends j k) : t.Encloses i k := by
  induction hjk with
  | self => exact hij
  | @step k p hp _ ih =>
      have hnone : t.origin? SymbolId.root = none := rfl
      have hroot : p ≠ SymbolId.root := by
        rintro rfl
        obtain ⟨_, r, -, hr, -⟩ := ih
        rw [hnone] at hr
        simp at hr
      have hk : k ≠ SymbolId.root := by
        rintro rfl
        exact absurd (hwf.parent_lt hp) (Nat.not_lt_zero p)
      exact ih.trans (encloses_of_parent? hp hroot hk)

/-- The ranges of symbols lie inside the ranges of the symbols above them. -/
theorem within_of_descends (hwf : t.model.table.WellFormed) {i j : SymbolId} {x y : Symbol}
    (h : t.model.table.Descends i j) (hx : t.model.table.get? i = some x)
    (hy : t.model.table.get? j = some y) : y.range.Within x.range := by
  induction h generalizing y with
  | self =>
      obtain rfl := Option.some.inj (hx.symm.trans hy)
      have hmem : x ∈ t.model.table.toList := by
        rw [SymbolTable.get?_eq_toList] at hx
        exact List.mem_of_getElem? hx
      exact ⟨Nat.le_refl _, (symbol_within hmem).1.le, Nat.le_refl _⟩
  | @step j p hp _ ih =>
      have hroot : j ≠ SymbolId.root := by
        rintro rfl
        exact absurd (hwf.parent_lt hp) (Nat.not_lt_zero p)
      obtain ⟨f, hf, rfl, rfl⟩ := entry_of_get? hy hroot
      obtain ⟨owner, n, howner, hinside, hrange, -⟩ := exists_owner hf
      obtain rfl : f.parent = p := by
        rw [(holds_entry hf).parent] at hp
        exact Option.some.inj hp
      refine TextRange.Within.trans ?_ (ih howner)
      rw [hrange, range_of_entry hf]
      exact hinside.range

end SourceTree

/-! ### The search -/

namespace SymbolTable

variable {table : SymbolTable} {accept : Symbol → Bool} {offset : Nat} {i c : SymbolId}

/-- What holds where the search starts and passes to each child it takes holds where it ends. -/
theorem descend_induction {motive : SymbolId → Prop}
    (step : ∀ i c, motive i → table.childAt? accept offset i = some c → motive c) (steps : Nat) :
    motive i → motive (table.descend accept offset steps i) := by
  induction steps generalizing i with
  | zero => exact id
  | succ steps ih =>
      intro hi
      rw [descend]
      split
      · rename_i c hc
        exact ih (step i c hi hc)
      · exact hi

/-- The child that is taken is accepted and touched. -/
theorem childAt?_spec (h : table.childAt? accept offset i = some c) :
    ∃ s, table.get? c = some s ∧ accept s = true ∧ s.range.touches offset = true := by
  have hc := List.find?_some h
  simp only [Option.any_eq_true, Bool.and_eq_true] at hc
  exact hc

/-- No accepted child before it is touched. -/
theorem WellFormed.childAt?_le (hwf : table.WellFormed) (h : table.childAt? accept offset i = some c)
    {d : SymbolId} {s : Symbol} (hd : d ∈ table.children i) (hs : table.get? d = some s)
    (haccept : accept s = true) (htouch : s.range.touches offset = true) : c ≤ d := by
  obtain ⟨-, front, back, hsplit, hfront⟩ := List.find?_eq_some_iff_append.mp h
  have hascending := hwf.ascending i
  rw [hsplit] at hd hascending
  rcases List.mem_append.mp hd with hd | hd
  · have hno := hfront d hd
    simp [hs, haccept, htouch] at hno
  · rcases List.mem_cons.mp hd with rfl | hd
    · exact Nat.le_refl _
    · have hback := (List.pairwise_append.mp hascending).2.1
      exact Nat.le_of_lt (List.rel_of_pairwise_cons hback hd)

/-- What is above an accepted symbol is accepted. -/
def Upward (table : SymbolTable) (accept : Symbol → Bool) : Prop :=
  ∀ i j x y, table.Descends i j → table.get? i = some x → table.get? j = some y →
    accept y = true → accept x = true

/-- All owners are scopes. -/
theorem WellFormed.isScope_of_mem_owners (hwf : table.WellFormed) {j : SymbolId} {x : Symbol}
    (hi : i ∈ table.owners j) (hx : table.get? i = some x) : x.isScope = true := by
  induction j using hwf.induction_up with
  | top j hnone =>
      rw [owners_of_none hnone] at hi
      simp at hi
  | up j p hp ih =>
      rw [hwf.owners_of_parent hp] at hi
      rcases List.mem_cons.mp hi with rfl | hi
      · obtain ⟨-, owner, howner, hscope⟩ := hwf.parent_spec hp
        obtain rfl := Option.some.inj (hx.symm.trans howner)
        exact hscope
      · exact ih hi

theorem WellFormed.upward_isScope (hwf : table.WellFormed) : table.Upward Symbol.isScope := by
  intro i j x y hbelow hx hy hscope
  rcases (hwf.descends_iff_owners i j).mp hbelow with rfl | hmem
  · obtain rfl := Option.some.inj (hx.symm.trans hy)
    exact hscope
  · exact hwf.isScope_of_mem_owners hmem hx

end SymbolTable

namespace SourceTree

variable {t : SourceTree} {accept : Symbol → Bool} {offset : Nat} {i j c d : SymbolId} {x y : Symbol}

/-- Of two children of one symbol, the earlier touched by the offset and the later with the offset
inside it, the earlier one is no scope, and the later one comes from a node below its node. -/
theorem leaf_encloses (hwf : t.model.table.WellFormed) (hc : c ∈ t.model.table.children i)
    (hd : d ∈ t.model.table.children i) (hlt : c < d) (hx : t.model.table.get? c = some x)
    (hy : t.model.table.get? d = some y) (htouch : x.range.touches offset = true)
    (hinside : y.range.Surrounds offset) : x.isScope = false ∧ t.Encloses c d := by
  have hpos : ∀ k ∈ t.model.table.children i, k ≠ SymbolId.root := by
    intro k hk
    exact Nat.ne_of_gt (Nat.lt_of_le_of_lt (Nat.zero_le i) (hwf.child_bounds hk).1)
  obtain ⟨e, he, rfl, rfl⟩ := entry_of_get? hx (hpos c hc)
  obtain ⟨f, hf, rfl, rfl⟩ := entry_of_get? hy (hpos d hd)
  have hparent : e.parent = f.parent := by
    have hce := (hwf.listed i e.id).mp hc
    have hdf := (hwf.listed i f.id).mp hd
    rw [(holds_entry he).parent] at hce
    rw [(holds_entry hf).parent] at hdf
    exact Option.some.inj (hce.trans hdf.symm)
  have hesite := (get?_model_of_entry he).2
  have hfsite := (get?_model_of_entry hf).2
  rw [range_of_entry he] at htouch
  rw [range_of_entry hf] at hinside
  rcases t.around_of_overlap (site_mem_nodes he) (site_mem_nodes hf) htouch hinside with
    heq | hout | hout
  · rw [← heq] at hfsite
    exact absurd (origin?_injective hesite hfsite) (Nat.ne_of_gt hlt)
  · exact ⟨not_isScope_of_outward hwf he hf hparent hout, e.site, f.site, hesite, hfsite, hout⟩
  · exact absurd hout (related_of_id_lt Site.walkOrder_outward he hf hlt)

/-- The search may have come to symbol `i`: what is accepted and has the offset inside it is above
`i` or below it, or it comes from a node below that of `i`, and `i` is no scope. -/
structure OnTheWay (t : SourceTree) (accept : Symbol → Bool) (offset : Nat) (i : SymbolId) : Prop where
  here : i = SymbolId.root ∨ ∃ x, t.model.table.get? i = some x ∧ accept x = true ∧
    x.range.touches offset = true
  others : ∀ j y, t.model.table.get? j = some y → accept y = true → y.range.Surrounds offset →
    t.model.table.Descends j i ∨ t.model.table.Descends i j ∨
      (¬ t.model.table.Owns i ∧ t.Encloses i j)

theorem onTheWay_root (hwf : t.model.table.WellFormed) : t.OnTheWay accept offset SymbolId.root where
  here := Or.inl rfl
  others := by
    intro j y hy _ _
    have hmem : j ∈ t.model.table.descendants SymbolId.root := by
      rw [(inPreorder hwf).all, List.mem_range]
      exact SymbolTable.lt_size_iff.mpr ⟨y, hy⟩
    exact Or.inr (Or.inl (hwf.mem_descendants.mp hmem))

/-- Where the search ends, nothing below is both accepted and touched. -/
theorem not_touches_below (hwf : t.model.table.WellFormed)
    (hupward : t.model.table.Upward accept)
    (hlast : t.model.table.childAt? accept offset i = none) (hbelow : t.model.table.Descends i j)
    (hne : j ≠ i) (hy : t.model.table.get? j = some y) (haccept : accept y = true) :
    y.range.touches offset = false := by
  rw [Bool.eq_false_iff]
  intro htouch
  obtain ⟨d, hd, hdj⟩ := ((hwf.descends_iff_children i j).mp hbelow).resolve_left hne
  obtain ⟨x, hx⟩ := SymbolTable.lt_size_iff.mp (hwf.child_bounds hd).2
  have hdaccept := hupward d j x y hdj hx hy haccept
  have hdtouch := (within_of_descends hwf hdj hx hy).touches htouch
  have hno := List.find?_eq_none.mp hlast d hd
  simp [hx, hdaccept, hdtouch] at hno

namespace OnTheWay

/-- **The search keeps to the way.** -/
theorem step (hwf : t.model.table.WellFormed)
    (hupward : t.model.table.Upward accept)
    (h : t.OnTheWay accept offset i) (hchild : t.model.table.childAt? accept offset i = some c) :
    t.OnTheWay accept offset c := by
  have hc : c ∈ t.model.table.children i := SymbolTable.childAt?_mem hchild
  have hparent : t.model.table.parent? c = some i := (hwf.listed i c).mp hc
  obtain ⟨x, hx, haccept, htouch⟩ := SymbolTable.childAt?_spec hchild
  refine ⟨Or.inr ⟨x, hx, haccept, htouch⟩, ?_⟩
  intro j y hy hjaccept hinside
  rcases h.others j y hy hjaccept hinside with habove | hbelow | ⟨hleaf, -⟩
  · exact Or.inl (.step hparent habove)
  · rcases (hwf.descends_iff_children i j).mp hbelow with rfl | ⟨d, hd, hdj⟩
    · exact Or.inl (.step hparent .self)
    · -- The child above `j` has the offset inside it, too.
      obtain ⟨z, hz⟩ := SymbolTable.lt_size_iff.mp (hwf.child_bounds hd).2
      have hdaccept := hupward d j z y hdj hz hy hjaccept
      have hdinside := (within_of_descends hwf hdj hz hy).surrounds hinside
      have hle := hwf.childAt?_le hchild hd hz hdaccept hdinside.touches
      rcases Nat.eq_or_lt_of_le hle with rfl | hlt
      · exact Or.inr (Or.inl hdj)
      · obtain ⟨hscope, henclosed⟩ := leaf_encloses hwf hc hd hlt hx hz htouch hdinside
        refine Or.inr (Or.inr ⟨?_, henclosed.descends hwf hdj⟩)
        rintro ⟨x', hx', hyes⟩
        obtain rfl := Option.some.inj (hx.symm.trans hx')
        rw [hscope] at hyes
        exact Bool.false_ne_true hyes
  · exact absurd (hwf.parent_spec hparent).2 hleaf

/-- Where the search ends, what is accepted and has the offset inside it is the symbol itself or
above it, or it comes from a node below that of the symbol, which is then no scope. -/
theorem others_of_last (hwf : t.model.table.WellFormed)
    (hupward : t.model.table.Upward accept)
    (h : t.OnTheWay accept offset i) (hlast : t.model.table.childAt? accept offset i = none)
    (hy : t.model.table.get? j = some y) (haccept : accept y = true)
    (hinside : y.range.Surrounds offset) :
    j = i ∨ j ∈ t.model.table.owners i ∨ (¬ t.model.table.Owns i ∧ t.Encloses i j) := by
  by_cases heq : j = i
  · exact Or.inl heq
  rcases h.others j y hy haccept hinside with habove | hbelow | hleaf
  · rcases (hwf.descends_iff_owners j i).mp habove with hsame | hmem
    · exact absurd hsame.symm heq
    · exact Or.inr (Or.inl hmem)
  · have hno := not_touches_below hwf hupward hlast hbelow heq hy haccept
    rw [hinside.touches] at hno
    exact absurd hno.symm Bool.false_ne_true
  · exact Or.inr (Or.inr hleaf)

theorem exists_get? (h : t.OnTheWay accept offset i) : ∃ x, t.model.table.get? i = some x := by
  rcases h.here with rfl | ⟨x, hx, -, -⟩
  · exact ⟨t.fileSymbol, rfl⟩
  · exact ⟨x, hx⟩

theorem touches (h : t.OnTheWay accept offset i) {x : Symbol} (hx : t.model.table.get? i = some x) :
    i = SymbolId.root ∨ x.range.touches offset = true := by
  refine h.here.imp_right ?_
  rintro ⟨x', hx', -, htouch⟩
  obtain rfl := Option.some.inj (hx.symm.trans hx')
  exact htouch

end OnTheWay

/-- The search ends on the way, at a symbol without a child to go on to. -/
theorem onTheWay_descend (hwf : t.model.table.WellFormed) (hupward : t.model.table.Upward accept)
    (offset : Nat) : t.OnTheWay accept offset
        (t.model.table.descend accept offset t.model.table.size SymbolId.root) ∧
      t.model.table.childAt? accept offset
        (t.model.table.descend accept offset t.model.table.size SymbolId.root) = none := by
  refine ⟨SymbolTable.descend_induction (fun _ _ h hc => h.step hwf hupward hc) _
    (onTheWay_root hwf), ?_⟩
  obtain ⟨last, -, hnone, hdescend⟩ := hwf.exists_descend accept offset SymbolId.root hwf.nonempty
  rw [hdescend t.model.table.size (Nat.le_add_left _ _)]
  exact hnone

end SourceTree

/-! ### The innermost scope -/

/-- The symbol is the innermost scope at the offset. -/
structure SymbolTable.InnermostScope (table : SymbolTable) (offset : Nat) (id : SymbolId) :
    Prop where
  owns : table.Owns id
  touches : id = SymbolId.root ∨ ∃ x, table.get? id = some x ∧ x.range.touches offset = true
  below : ∀ j y, table.get? j = some y → y.isScope = true → j ∈ table.descendants id → j ≠ id →
    y.range.touches offset = false
  around : ∀ j y, table.get? j = some y → y.isScope = true → y.range.Surrounds offset →
    j = id ∨ j ∈ table.owners id

/-- **The search for a scope ends at the innermost scope.** -/
theorem Analysis.scopeAt_innermost (t : SourceTree) :
    (t.InBounds → ∃ a, Analysis.ofTree t = .ok a) ∧
      ∀ a, Analysis.ofTree t = .ok a → ∀ offset,
        a.model.table.InnermostScope offset (a.model.table.scopeAt offset) := by
  refine ⟨fun h => ⟨_, Analysis.ofTree_of_inBounds h⟩, ?_⟩
  intro a ha offset
  have hwf := wellFormed_table ha
  obtain ⟨-, rfl⟩ := Analysis.ofTree_ok_iff.mp ha
  obtain ⟨hway, hlast⟩ := SourceTree.onTheWay_descend hwf hwf.upward_isScope offset
  have howns : t.model.table.Owns (t.model.table.scopeAt offset) := by
    rcases hway.here with hroot | ⟨x, hx, hscope, -⟩
    · exact ⟨t.fileSymbol, by rw [SymbolTable.scopeAt, hroot]; rfl, rfl⟩
    · exact ⟨x, hx, hscope⟩
  refine ⟨howns, ?_, ?_, ?_⟩
  · obtain ⟨x, hx⟩ := hway.exists_get?
    exact (hway.touches hx).imp_right fun htouch => ⟨x, hx, htouch⟩
  · intro j y hy hscope hbelow hne
    exact SourceTree.not_touches_below hwf hwf.upward_isScope hlast (hwf.mem_descendants.mp hbelow)
      hne hy hscope
  · intro j y hy hscope hinside
    rcases hway.others_of_last hwf hwf.upward_isScope hlast hy hscope hinside with
      heq | hmem | ⟨hleaf, -⟩
    · exact Or.inl heq
    · exact Or.inr hmem
    · exact absurd howns hleaf

/-- At the offset at which one function ends and the next one starts. -/
theorem Analysis.scopeAt_innermost_siblings :
    SourceTree.siblings.InBounds ∧ ∃ a, Analysis.ofTree .siblings = .ok a ∧
      a.model.table.InnermostScope 2 (a.model.table.scopeAt 2) ∧ a.model.table.scopeAt 2 = 1 := by
  have hbounds : SourceTree.siblings.InBounds := ⟨by decide +kernel, by decide +kernel⟩
  have hfirst : ((Analysis.ofTree .siblings).toOption.map fun a => a.model.table.scopeAt 2)
      = some 1 := by decide +kernel
  obtain ⟨hok, hinnermost⟩ := scopeAt_innermost .siblings
  obtain ⟨a, ha⟩ := hok hbounds
  rw [ha] at hfirst
  exact ⟨hbounds, a, ha, hinnermost a ha 2, Option.some.inj hfirst⟩

/-! ### The innermost symbol -/

/-- What the search by offset finds in a tree.  A symbol that is no scope ends it, so what comes
from nodes below that symbol is not found. -/
structure SourceTree.FirstFound (t : SourceTree) (table : SymbolTable) (offset : Nat) (id : SymbolId)
    (x : Symbol) : Prop where
  get : table.get? id = some x
  touches : id = SymbolId.root ∨ x.range.touches offset = true
  /-- All symbols with the offset inside are on the way to the answer, or below the node where the
  way ends. -/
  around : ∀ j y, table.get? j = some y → y.range.Surrounds offset →
    j = id ∨ j ∈ table.owners id ∨ (x.isScope = false ∧ t.Encloses id j)
  /-- Where a smaller symbol has the offset inside, the answer is no scope, and the smaller symbol
  comes from a node below that of the answer. -/
  smaller : ∀ j y, table.get? j = some y → y.range.Surrounds offset → y.range.Within x.range →
    y.range ≠ x.range → x.isScope = false ∧ t.Encloses id j
  /-- A symbol that is no scope is not passed. -/
  leaf : ∀ j y, table.get? j = some y → y.isScope = false → y.range.Surrounds offset →
    j = id ∨ t.Encloses id j

theorem SymbolTable.upward_true (table : SymbolTable) : table.Upward fun _ => true := by
  intro _ _ _ _ _ _ _ _
  rfl

namespace SourceTree.OnTheWay

variable {t : SourceTree} {offset : Nat} {i j : SymbolId} {x y : Symbol}

theorem around_of_last (h : t.OnTheWay (fun _ => true) offset i) (hwf : t.model.table.WellFormed)
    (hlast : t.model.table.childAt? (fun _ => true) offset i = none)
    (hx : t.model.table.get? i = some x) (hy : t.model.table.get? j = some y)
    (hinside : y.range.Surrounds offset) :
    j = i ∨ j ∈ t.model.table.owners i ∨ (x.isScope = false ∧ t.Encloses i j) := by
  rcases h.others_of_last hwf (SymbolTable.upward_true _) hlast hy rfl hinside with
    heq | hmem | ⟨hleaf, henclosed⟩
  · exact Or.inl heq
  · exact Or.inr (Or.inl hmem)
  · refine Or.inr (Or.inr ⟨?_, henclosed⟩)
    rw [Bool.eq_false_iff]
    intro hscope
    exact hleaf ⟨x, hx, hscope⟩

/-- Where the search ends, there is what is found first. -/
theorem firstFound (h : t.OnTheWay (fun _ => true) offset i) (hwf : t.model.table.WellFormed)
    (hlast : t.model.table.childAt? (fun _ => true) offset i = none)
    (hx : t.model.table.get? i = some x) : t.FirstFound t.model.table offset i x where
  get := hx
  touches := h.touches hx
  around _ _ hy hinside := h.around_of_last hwf hlast hx hy hinside
  smaller := by
    intro j y hy hinside hwithin hne
    rcases h.around_of_last hwf hlast hx hy hinside with rfl | hmem | hleaf
    · obtain rfl := Option.some.inj (hx.symm.trans hy)
      exact absurd rfl hne
    · have habove := (hwf.descends_iff_owners j _).mpr (Or.inr hmem)
      exact absurd (hwithin.antisymm (within_of_descends hwf habove hy hx)) hne
    · exact hleaf
  leaf := by
    intro j y hy hscope hinside
    rcases h.around_of_last hwf hlast hx hy hinside with heq | hmem | ⟨-, henclosed⟩
    · exact Or.inl heq
    · rw [hwf.isScope_of_mem_owners hmem hy] at hscope
      exact absurd hscope.symm Bool.false_ne_true
    · exact Or.inr henclosed

end SourceTree.OnTheWay

/-- **The search for a symbol ends at the innermost symbol, or at one that is no scope, with the
smaller symbols at nodes below its own.** -/
theorem Analysis.symbolAt_firstFound (t : SourceTree) :
    (t.InBounds → ∃ a, Analysis.ofTree t = .ok a) ∧
      ∀ a, Analysis.ofTree t = .ok a → ∀ offset, ∃ x,
        t.FirstFound a.model.table offset (a.model.table.symbolAt offset) x := by
  refine ⟨fun h => ⟨_, Analysis.ofTree_of_inBounds h⟩, ?_⟩
  intro a ha offset
  have hwf := wellFormed_table ha
  obtain ⟨-, rfl⟩ := Analysis.ofTree_ok_iff.mp ha
  obtain ⟨hway, hlast⟩ := SourceTree.onTheWay_descend hwf (SymbolTable.upward_true _) offset
  obtain ⟨x, hx⟩ := hway.exists_get?
  exact ⟨x, hway.firstFound hwf hlast hx⟩

/-- A variable with a name in its initialiser. -/
def SourceTree.initialised : SourceTree :=
  .ofItems ⟨0⟩ {}
    [.node Kind.variableDecl.tag
      [.node Kind.primitiveType.tag [.token Kind.typeKw.tag "int"], .token Kind.whitespace.tag " ",
       .node Kind.variableDeclarator.tag
        [.node Kind.name.tag [.token Kind.ident.tag "x"], .token Kind.eq.tag "=",
         .node Kind.primaryExpr.tag [.node Kind.identExpr.tag [.token Kind.ident.tag "foo"]]]]]

theorem Analysis.symbolAt_firstFound_initialised :
    SourceTree.initialised.InBounds ∧ ∃ a x, Analysis.ofTree .initialised = .ok a ∧
      SourceTree.initialised.FirstFound a.model.table 7 (a.model.table.symbolAt 7) x ∧
      a.model.table.symbolAt 7 = 1 := by
  have hbounds : SourceTree.initialised.InBounds := ⟨by decide +kernel, by decide +kernel⟩
  have hfirst : ((Analysis.ofTree .initialised).toOption.map fun a => a.model.table.symbolAt 7)
      = some 1 := by decide +kernel
  obtain ⟨hok, hfound⟩ := symbolAt_firstFound .initialised
  obtain ⟨a, ha⟩ := hok hbounds
  obtain ⟨x, hx⟩ := hfound a ha 7
  rw [ha] at hfirst
  exact ⟨hbounds, a, x, ha, hx, Option.some.inj hfirst⟩

/-- In the middle of the name the variable is found, although the name is a smaller symbol there. -/
theorem Analysis.symbolAt_not_smallest : ∃ a x y, Analysis.ofTree .initialised = .ok a ∧
    a.model.table.get? (a.model.table.symbolAt 7) = some x ∧ a.model.table.get? 3 = some y ∧
    y.range.Surrounds 7 ∧ y.range.Within x.range ∧ y.range ≠ x.range := by
  have hranges : ((Analysis.ofTree .initialised).toOption.map fun a =>
      ((a.model.table.get? (a.model.table.symbolAt 7)).map (·.range),
        (a.model.table.get? 3).map (·.range))) = some (some ⟨4, 9⟩, some ⟨6, 9⟩) := by decide +kernel
  cases ha : Analysis.ofTree .initialised with
  | error fault =>
      rw [ha] at hranges
      simp [Except.toOption] at hranges
  | ok a =>
      rw [ha] at hranges
      obtain ⟨hfound, hsmaller⟩ := Prod.mk.inj (Option.some.inj hranges)
      obtain ⟨x, hx, hxrange⟩ := Option.map_eq_some_iff.mp hfound
      obtain ⟨y, hy, hyrange⟩ := Option.map_eq_some_iff.mp hsmaller
      refine ⟨a, x, y, rfl, hx, hy, ?_⟩
      rw [hxrange, hyrange]
      exact ⟨⟨by decide, by decide⟩, ⟨by decide, by decide, by decide⟩, by decide⟩

end LpcSymbols
