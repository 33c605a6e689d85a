/-
The order of symbols.

Symbols are numbered in the order in which the walk comes to their nodes, and the walk
follows the text, with one exception.  In a declaration with a type it leaves the
declarators for the end, so whatever is found beside them comes before all that is found
in them, wherever it is written (`Site.Overtakes`).

Two nodes of a tree that are not around each other part below one node, and at no other.
So it is enough to look at the children of that node: the earlier symbol starts first, or
it overtakes the later one; and the later one never overtakes the earlier (`Site.InTurn`).
Imports and links follow the numbers of their symbols, and with them the exception.
-/
import LpcSymbols.Proofs.Safety

namespace LpcSymbols

namespace Site

/-- The node of a site, and the nodes around it. -/
def chain (s : Site) : List Node := s.1 :: s.2

/-- Two sites lie below different nodes `a` and `b`, and around these are the same nodes. -/
structure Part (s r : Site) (a b : Node) (around : List Node) : Prop where
  left : a :: around <:+ s.chain
  right : b :: around <:+ r.chain
  ne : a ≠ b

/-- Both sites lie in a declaration with a type, and only the second in one of its declarators. -/
def Overtakes (s r : Site) : Prop :=
  ∃ a b around, s.Part r a b around ∧ (declaredType? around).isSome = true ∧
    a.kind ≠ .variableDeclarator ∧ b.kind = .variableDeclarator

/-- The first site may come before the second. -/
def InTurn (s r : Site) : Prop :=
  (s.1.range.start ≤ r.1.range.start ∨ s.Overtakes r) ∧ ¬ r.Overtakes s

/-! ### Where two sites part -/

variable {s r : Site} {a b c d : Node} {around other : List Node}

theorem Part.symm (h : s.Part r a b around) : r.Part s b a around := ⟨h.right, h.left, h.ne.symm⟩

/-- Sites that part share no more than the nodes around both. -/
theorem Part.length_le (h : s.Part r a b around) (hs : other <:+ s.chain) (hr : other <:+ r.chain) :
    other.length ≤ around.length := by
  by_contra hlong
  have ha : a :: around <:+ other :=
    List.suffix_of_suffix_length_le h.left hs (by rw [List.length_cons]; omega)
  have hb : b :: around <:+ other :=
    List.suffix_of_suffix_length_le h.right hr (by rw [List.length_cons]; omega)
  have heq : a :: around = b :: around :=
    (List.suffix_of_suffix_length_le ha hb (Nat.le_refl _)).eq_of_length rfl
  exact h.ne (List.cons.inj heq).1

/-- Sites part in one place only. -/
theorem Part.unique (h : s.Part r a b around) (h' : s.Part r c d other) :
    a = c ∧ b = d ∧ around = other := by
  have hle := h.length_le ((List.suffix_cons _ _).trans h'.left) ((List.suffix_cons _ _).trans h'.right)
  have hge := h'.length_le ((List.suffix_cons _ _).trans h.left) ((List.suffix_cons _ _).trans h.right)
  have hlen : around.length = other.length := Nat.le_antisymm hge hle
  have hleft : a :: around = c :: other :=
    (List.suffix_of_suffix_length_le h.left h'.left (by simp [hlen])).eq_of_length (by simp [hlen])
  have hright : b :: around = d :: other :=
    (List.suffix_of_suffix_length_le h.right h'.right (by simp [hlen])).eq_of_length (by simp [hlen])
  exact ⟨(List.cons.inj hleft).1, (List.cons.inj hright).1, (List.cons.inj hleft).2⟩

/-- A site does not part from the sites around it. -/
theorem not_part_of_suffix (h : s.chain <:+ r.chain) : ¬ s.Part r a b around := by
  intro hpart
  have ha : a :: around <:+ r.chain := hpart.left.trans h
  have heq : a :: around = b :: around :=
    (List.suffix_of_suffix_length_le ha hpart.right (Nat.le_refl _)).eq_of_length rfl
  exact hpart.ne (List.cons.inj heq).1

/-- Of two sites that part, one overtakes the other if only the other comes late. -/
theorem Part.overtakes_iff (h : s.Part r a b around) :
    s.Overtakes r ↔ a.toPlaced.isLate around = false ∧ b.toPlaced.isLate around = true := by
  have hlate : ∀ n : Node, n.toPlaced.isLate around = true ↔
      n.kind = .variableDeclarator ∧ (declaredType? around).isSome = true := by
    intro n
    simp [Node.toPlaced, Placed.isLate]
  rw [← Bool.not_eq_true, hlate, hlate]
  constructor
  · intro hover
    obtain ⟨c, d, other, hpart, htype, hc, hd⟩ := hover
    obtain ⟨rfl, rfl, rfl⟩ := h.unique hpart
    exact ⟨fun hboth => hc hboth.1, hd, htype⟩
  · intro hboth
    obtain ⟨ha, hb, htype⟩ := hboth
    exact ⟨a, b, around, h, htype, fun hkind => ha ⟨hkind, htype⟩, hb⟩

theorem Overtakes.asymm (h : s.Overtakes r) : ¬ r.Overtakes s := by
  obtain ⟨a, b, around, hpart, -⟩ := id h
  intro hback
  have hfirst := hpart.overtakes_iff.mp h
  have hsecond := hpart.symm.overtakes_iff.mp hback
  rw [hfirst.1] at hsecond
  exact Bool.false_ne_true hsecond.2

theorem Overtakes.inTurn (h : s.Overtakes r) : s.InTurn r := ⟨Or.inr h, h.asymm⟩

/-- A site comes before the sites below it. -/
theorem inTurn_of_suffix (h : s.chain <:+ r.chain) (hstart : s.1.range.start ≤ r.1.range.start) :
    s.InTurn r := by
  refine ⟨Or.inl hstart, ?_⟩
  intro hover
  obtain ⟨a, b, around, hpart, -⟩ := hover
  exact not_part_of_suffix h hpart.symm

/-- Sites below two children that both come late, or both do not, are in the order of the text. -/
theorem Part.inTurn (h : s.Part r a b around)
    (hlate : a.toPlaced.isLate around = b.toPlaced.isLate around)
    (hstart : s.1.range.start ≤ r.1.range.start) : s.InTurn r := by
  refine ⟨Or.inl hstart, ?_⟩
  intro hover
  obtain ⟨hb, ha⟩ := h.symm.overtakes_iff.mp hover
  rw [ha, hb] at hlate
  exact Bool.false_ne_true hlate.symm

/-- A relation that the walk keeps to: it holds of a site and the sites below it, and of sites that
part, if the first is early and the second late, or if the text decides. -/
structure WalkOrder (R : Site → Site → Prop) : Prop where
  below : ∀ {s r : Site}, s.chain <:+ r.2 → s.1.range.start ≤ r.1.range.start → R s r
  late : ∀ {s r : Site} {a b : Node} {around : List Node}, s.Part r a b around →
    a.toPlaced.isLate around = false → b.toPlaced.isLate around = true → R s r
  text : ∀ {s r : Site} {a b : Node} {around : List Node}, s.Part r a b around →
    a.toPlaced.isLate around = b.toPlaced.isLate around →
    s.1.range.start ≤ r.1.range.start → R s r

theorem walkOrder_inTurn : WalkOrder InTurn where
  below := by
    intro s r hbelow hstart
    exact inTurn_of_suffix (hbelow.trans (List.suffix_cons _ _)) hstart
  late := by
    intro s r a b around hpart ha hb
    exact (hpart.overtakes_iff.mpr ⟨ha, hb⟩).inTurn
  text := by
    intro s r a b around hpart hlate hstart
    exact hpart.inTurn hlate hstart

/-- No site comes before one that is around it. -/
theorem walkOrder_outward : WalkOrder fun s r => r ∉ outward s.2 where
  below := by
    intro s r hbelow _ hmem
    have hle := hbelow.length_le
    have hge := (suffix_of_mem_outward hmem).length_le
    rw [chain, List.length_cons] at hle
    rw [List.length_cons] at hge
    omega
  late := by
    intro s r a b around hpart _ _ hmem
    exact not_part_of_suffix ((suffix_of_mem_outward hmem).trans (List.suffix_cons _ _)) hpart.symm
  text := by
    intro s r a b around hpart _ _ hmem
    exact not_part_of_suffix ((suffix_of_mem_outward hmem).trans (List.suffix_cons _ _)) hpart.symm

end Site

/-! ### The walk takes sites in turn -/

namespace Located

/-- Of any two sites the earlier one is related to the later one. -/
def Ordered (R : Site → Site → Prop) (fs : List Located) : Prop :=
  (readingsAll fs).Pairwise fun x y => R x.1 y.1

variable {R : Site → Site → Prop}

theorem Ordered.append {fs gs : List Located} (hf : Ordered R fs) (hg : Ordered R gs)
    (hcross : ∀ x ∈ readingsAll fs, ∀ y ∈ readingsAll gs, R x.1 y.1) : Ordered R (fs ++ gs) := by
  unfold Ordered
  rw [readingsAll_append]
  exact List.pairwise_append.mpr ⟨hf, hg, hcross⟩

/-- A site can be put in front of what is found below it. -/
theorem Ordered.atSite {l : Layout} {count : Nat} {s : Site} {below : List Located}
    (hbelow : Ordered R below) (hunder : ∀ x ∈ readingsAll below, R s x.1) :
    Ordered R (atSite l count s below) := by
  unfold Ordered
  rw [readingsAll_atSite]
  refine List.pairwise_append.mpr ⟨?_, ?_, ?_⟩
  · cases s.reading? l count <;> simp
  · split
    · exact List.Pairwise.nil
    · exact hbelow
  · intro x hx y hy
    obtain ⟨e, -, rfl⟩ := List.mem_map.mp hx
    split at hy
    · simp at hy
    · exact hunder y hy

end Located

namespace Placed

open Located

theorem mem_nodesAll {around : List Node} {s : Site} {ps : List Placed} :
    s ∈ nodesAll around ps ↔ ∃ p ∈ ps, s ∈ p.nodes around := by
  induction ps with
  | nil => simp [nodesAll]
  | cons p ps ih => simp [nodesAll, ih]

/-- The sites of an element lie below its node. -/
theorem exists_node_of_mem_nodes {around : List Node} {s : Site} {p : Placed}
    (hs : s ∈ p.nodes around) :
    ∃ n : Node, p = n.toPlaced ∧ n :: around <:+ s.chain := by
  cases p with
  | token tok => simp [nodes] at hs
  | node kind range before children =>
      refine ⟨⟨kind, range, before, children⟩, rfl, ?_⟩
      rcases List.mem_cons.mp hs with rfl | hs
      · exact List.suffix_refl _
      · exact (nodesAll_outward (m := s) children hs).1.trans (List.suffix_cons _ _)

mutual

/-- What is found at an element is found at its nodes. -/
theorem mem_nodes_of_located (l : Layout) {x : Site × Except Omission Draft} :
    ∀ (p : Placed) (around : List Node) (count : Nat),
      x ∈ readingsAll (p.located l around count) → x.1 ∈ p.nodes around
  | .token _, _, _, hx => by simp [located, readingsAll] at hx
  | .node kind range before children, around, count, hx => by
    have hrow : ∀ late, x ∈ readingsAll (locatedAll l
        (⟨kind, range, before, children⟩ :: around) late 0 children) →
          x.1 ∈ nodesAll (⟨kind, range, before, children⟩ :: around) children := by
      intro late hlate
      obtain ⟨p, hp, -, hnodes⟩ := exists_of_mem_locatedAll l children _ late 0 hlate
      exact mem_nodesAll.mpr ⟨p, hp, hnodes⟩
    rw [located, readingsAll_atSite] at hx
    rw [nodes, List.mem_cons]
    rcases List.mem_append.mp hx with hx | hx
    · obtain ⟨e, -, rfl⟩ := List.mem_map.mp hx
      exact Or.inl rfl
    · split at hx
      · simp at hx
      · rw [readingsAll_append] at hx
        exact Or.inr ((List.mem_append.mp hx).elim (hrow false) (hrow true))

theorem exists_of_mem_locatedAll (l : Layout) {x : Site × Except Omission Draft} :
    ∀ (ps : List Placed) (around : List Node) (late : Bool) (count : Nat),
      x ∈ readingsAll (locatedAll l around late count ps) →
        ∃ p ∈ ps, p.isLate around = late ∧ x.1 ∈ p.nodes around
  | [], _, _, _, hx => by simp [locatedAll, readingsAll] at hx
  | p :: ps, around, late, count, hx => by
    rw [locatedAll, readingsAll_append] at hx
    rcases List.mem_append.mp hx with hx | hx
    · split at hx
      · rename_i hlate
        exact ⟨p, List.mem_cons_self, hlate, mem_nodes_of_located l p around count hx⟩
      · simp [readingsAll] at hx
    · obtain ⟨q, hq, hlate, hnodes⟩ := exists_of_mem_locatedAll l ps around late _ hx
      exact ⟨q, List.mem_cons_of_mem _ hq, hlate, hnodes⟩

end

theorem mem_nodesAll_of_locatedAll {l : Layout} {around : List Node} {late : Bool} {count : Nat}
    {ps : List Placed} {x : Site × Except Omission Draft}
    (hx : x ∈ readingsAll (locatedAll l around late count ps)) : x.1 ∈ nodesAll around ps := by
  obtain ⟨p, hp, -, hnodes⟩ := exists_of_mem_locatedAll l ps around late count hx
  exact mem_nodesAll.mpr ⟨p, hp, hnodes⟩

/-- What comes early in a row may come before what comes late. -/
theorem early_late {R : Site → Site → Prop} (hR : Site.WalkOrder R) {l : Layout}
    {around : List Node} {count other : Nat} {ps : List Placed} {x y : Site × Except Omission Draft}
    (hx : x ∈ readingsAll (locatedAll l around false count ps))
    (hy : y ∈ readingsAll (locatedAll l around true other ps)) : R x.1 y.1 := by
  obtain ⟨p, -, hp, hxp⟩ := exists_of_mem_locatedAll l ps around false count hx
  obtain ⟨q, -, hq, hyq⟩ := exists_of_mem_locatedAll l ps around true other hy
  obtain ⟨n, rfl, hn⟩ := exists_node_of_mem_nodes hxp
  obtain ⟨m, rfl, hm⟩ := exists_node_of_mem_nodes hyq
  have hne : n ≠ m := by
    intro heq
    rw [heq, hq] at hp
    exact Bool.false_ne_true hp.symm
  have hpart : x.1.Part y.1 n m around := ⟨hn, hm, hne⟩
  exact hR.late hpart hp hq

end Placed

namespace Element

open Located

/-- Of two elements of a row, the sites of the first come before those of the second, if both
elements come late, or both do not. -/
theorem ordered_row {R : Site → Site → Prop} (hR : Site.WalkOrder R) {start before : Nat}
    {e : Element} {es : List Element} {around : List Node} {p : Placed} {s r : Site}
    (hs : s ∈ (e.place start before).nodes around)
    (hp : p ∈ placeAll (start + e.size) (before + e.leafCount) es) (hr : r ∈ p.nodes around)
    (hlate : (e.place start before).isLate around = p.isLate around) : R s r := by
  have hrow : r ∈ Placed.nodesAll around (placeAll (start + e.size) (before + e.leafCount) es) :=
    Placed.mem_nodesAll.mpr ⟨p, hp, hr⟩
  have hstart : s.1.range.start ≤ r.1.range.start := by
    obtain ⟨_, _, -, -, -, hown, hright⟩ := standsIn_place start before around e s hs
    obtain ⟨_, _, -, -, hleft, -⟩ := standsIn_placeAll _ _ around es r hrow
    exact Nat.le_trans hown.le (Nat.le_trans hright.le hleft.le)
  obtain ⟨n, hn, hsn⟩ := Placed.exists_node_of_mem_nodes hs
  obtain ⟨m, rfl, hrm⟩ := Placed.exists_node_of_mem_nodes hr
  have hne : n ≠ m := by
    -- The two elements begin at different leaves.
    have hfirst := nodes_place_bounds start before around e (n, around)
      (by rw [hn]; exact List.mem_cons_self)
    have hsecond := nodesAll_place_bounds _ _ around es (m, around)
      (Placed.mem_nodesAll.mpr ⟨_, hp, List.mem_cons_self⟩)
    intro heq
    rw [heq] at hfirst
    exact absurd hsecond.1 (Nat.not_le_of_lt hfirst.2.1)
  rw [hn] at hlate
  have hpart : s.Part r n m around := ⟨hsn, hrm, hne⟩
  exact hR.text hpart hlate hstart

mutual

theorem ordered_located {R : Site → Site → Prop} (hR : Site.WalkOrder R) (l : Layout)
    (start before : Nat) : ∀ (e : Element) (around : List Node) (count : Nat),
      Ordered R ((e.place start before).located l around count)
  | .token _ _, _, _ => List.Pairwise.nil
  | .node tag children, around, count => by
    rw [place, Placed.located]
    refine Ordered.atSite ((ordered_locatedAll hR l start before children _ false 0).append
      (ordered_locatedAll hR l start before children _ true 0)
      fun x hx y hy => Placed.early_late hR hx hy) ?_
    intro x hx
    rw [readingsAll_append] at hx
    have hnodes := (List.mem_append.mp hx).elim Placed.mem_nodesAll_of_locatedAll
      Placed.mem_nodesAll_of_locatedAll
    obtain ⟨_, _, -, -, hleft, -⟩ := standsIn_placeAll start before _ children x.1 hnodes
    obtain ⟨-, -, hsuffix⟩ := nodesAll_place_bounds start before _ children x.1 hnodes
    exact hR.below hsuffix hleft.le

/-- **In a row, the sites that come late and the others each keep to the order.** -/
theorem ordered_locatedAll {R : Site → Site → Prop} (hR : Site.WalkOrder R) (l : Layout)
    (start before : Nat) : ∀ (es : List Element) (around : List Node) (late : Bool) (count : Nat),
      Ordered R (Placed.locatedAll l around late count (placeAll start before es))
  | [], _, _, _ => List.Pairwise.nil
  | e :: es, around, late, count => by
    rw [placeAll, Placed.locatedAll]
    refine Ordered.append ?_ (ordered_locatedAll hR l _ _ es around late _) ?_
    · split
      · exact ordered_located hR l start before e around count
      · exact List.Pairwise.nil
    · intro x hx y hy
      split at hx
      · rename_i hlate
        obtain ⟨p, hp, hplate, hmem⟩ := Placed.exists_of_mem_locatedAll l _ _ _ _ hy
        exact ordered_row hR (Placed.mem_nodes_of_located l _ around count hx) hp hmem
          (hlate.trans hplate.symm)
      · simp [readingsAll] at hx

end

end Element

/-! ### Symbols, imports and links -/

theorem Entry.ofData?_symbol (e : Entry) (id : SymbolId) :
    Import.ofData? e.symbol.data id = Import.ofData? e.draft.data id := by
  show Import.ofData? (e.draft.data.withBranches e.owned) id = _
  cases e.draft.data <;> rfl

namespace SourceTree

variable {t : SourceTree}

theorem pairwise_recorded (t : SourceTree) {R : Site → Site → Prop} (hR : Site.WalkOrder R) :
    t.recorded.Pairwise R := by
  have horder : t.readings.Pairwise fun x y => R x.1 y.1 :=
    Element.ordered_locatedAll hR t.layout 0 0 t.children [t.node] false 0
  rw [recorded, List.pairwise_map, draftsOf, List.pairwise_filterMap]
  refine horder.imp ?_
  intro x y hxy d hd e he
  obtain ⟨-, -, rfl⟩ := Option.map_eq_some_iff.mp hd
  obtain ⟨-, -, rfl⟩ := Option.map_eq_some_iff.mp he
  exact hxy

/-- The sites of symbols keep to the order of the walk. -/
theorem related_of_id_lt {R : Site → Site → Prop} (hR : Site.WalkOrder R) {e f : Entry}
    (he : e ∈ t.entries) (hf : f ∈ t.entries) (hlt : e.id < f.id) : R e.site f.site := by
  have hsites := t.pairwise_recorded hR
  rw [← entries_recorded, List.pairwise_map] at hsites
  obtain ⟨i, hi⟩ := List.getElem?_of_mem he
  obtain ⟨j, hj⟩ := List.getElem?_of_mem hf
  rw [getElem?_entries hi, getElem?_entries hj] at hlt
  obtain ⟨hilt, rfl⟩ := List.getElem?_eq_some_iff.mp hi
  obtain ⟨hjlt, rfl⟩ := List.getElem?_eq_some_iff.mp hj
  exact List.pairwise_iff_getElem.mp hsites i j hilt hjlt (Nat.lt_of_succ_lt_succ hlt)

/-- The sites of symbols come in turn. -/
theorem inTurn_of_id_lt {e f : Entry} (he : e ∈ t.entries) (hf : f ∈ t.entries)
    (hlt : e.id < f.id) : e.site.InTurn f.site :=
  related_of_id_lt Site.walkOrder_inTurn he hf hlt

/-- Imports are listed in the order of their symbols. -/
theorem pairwise_imports (t : SourceTree) :
    t.model.imports.Pairwise fun u v => u.symbol < v.symbol := by
  have hids : (t.entries.map (·.id)).Pairwise (· < ·) := by
    rw [entries, Located.entriesAll_ids]
    exact List.pairwise_lt_range'
  rw [List.pairwise_map] at hids
  show (t.entries.filterMap _).Pairwise _
  rw [List.pairwise_filterMap]
  refine hids.imp ?_
  intro e f hlt u hu v hv
  rw [Import.symbol_of_ofData? hu, Import.symbol_of_ofData? hv]
  exact hlt

/-- Every import is that of its symbol. -/
theorem symbol_of_import {u : Import} (hu : u ∈ t.model.imports) :
    ∃ s, t.model.table.get? u.symbol = some s ∧ Import.ofData? s.data u.symbol = some u := by
  obtain ⟨e, he, hdata⟩ := List.mem_filterMap.mp hu
  have hid := Import.symbol_of_ofData? hdata
  refine ⟨e.symbol, ?_, ?_⟩
  · rw [hid]
    exact (get?_model_of_entry he).1
  · rw [Entry.ofData?_symbol, hid]
    exact hdata

/-- The links are those of the imports, one by one. -/
theorem links_model (t : SourceTree) :
    t.model.links.map (fun link => (link.kind, link.target))
      = t.model.imports.map fun u => (u.kind, u.target) := by
  rw [FileModel.links, List.map_filterMap, ← List.filterMap_eq_map]
  refine List.filterMap_congr ?_
  intro u hu
  obtain ⟨s, hs, -⟩ := symbol_of_import hu
  rw [hs]
  rfl

end SourceTree

/-- **Symbols are numbered in the order of the text, except that in a declaration with a type the
declarators come last; imports and links are in the order of their symbols.** -/
theorem Analysis.symbols_inTurn (t : SourceTree) :
    (t.InBounds → ∃ a, Analysis.ofTree t = .ok a) ∧
      ∀ a, Analysis.ofTree t = .ok a →
        (∀ i j x y, a.model.table.get? i = some x → a.model.table.get? j = some y →
          i ≠ SymbolId.root → i < j →
            ∃ s r parent other, t.BuiltFrom i parent s x ∧ t.BuiltFrom j other r y ∧
              (x.range.start ≤ y.range.start ∨ s.Overtakes r) ∧ ¬ r.Overtakes s) ∧
        (a.model.imports.Pairwise fun u v => u.symbol < v.symbol) ∧
        (∀ u ∈ a.model.imports, ∃ x, a.model.table.get? u.symbol = some x ∧
          Import.ofData? x.data u.symbol = some u) ∧
        a.model.links.map (fun link => (link.kind, link.target))
          = a.model.imports.map fun u => (u.kind, u.target) := by
  refine ⟨fun h => ⟨_, Analysis.ofTree_of_inBounds h⟩, ?_⟩
  intro a ha
  obtain ⟨-, rfl⟩ := Analysis.ofTree_ok_iff.mp ha
  refine ⟨?_, t.pairwise_imports, fun u hu => SourceTree.symbol_of_import hu, t.links_model⟩
  intro i j x y hx hy hi hij
  have hj : j ≠ SymbolId.root := Nat.ne_of_gt (Nat.lt_of_le_of_lt (Nat.zero_le i) hij)
  obtain ⟨e, he, rfl, rfl⟩ := SourceTree.entry_of_get? hx hi
  obtain ⟨f, hf, rfl, rfl⟩ := SourceTree.entry_of_get? hy hj
  obtain ⟨horder, hnot⟩ := SourceTree.inTurn_of_id_lt he hf hij
  refine ⟨e.site, f.site, e.parent, f.parent, SourceTree.builtFrom_entry he,
    SourceTree.builtFrom_entry hf, ?_, hnot⟩
  rw [SourceTree.range_of_entry he, SourceTree.range_of_entry hf]
  exact horder

/-- A declaration of one variable, with an inclusion in its declarator and another behind it. -/
def SourceTree.interleaved : SourceTree :=
  .ofItems ⟨0⟩ {}
    [.node Kind.variableDecl.tag
      [.node Kind.primitiveType.tag [.token Kind.typeKw.tag "int"], .token Kind.whitespace.tag " ",
       .node Kind.variableDeclarator.tag
        [.node Kind.name.tag [.token Kind.ident.tag "x"],
         .node Kind.includeDirective.tag [.token Kind.headerName.tag "<a>"]],
       .node Kind.includeDirective.tag [.token Kind.headerName.tag "<b>"]]]

theorem Analysis.symbols_inTurn_interleaved :
    SourceTree.interleaved.InBounds ∧ ∃ a x y s r parent other,
      Analysis.ofTree .interleaved = .ok a ∧ a.model.table.get? 1 = some x ∧
        a.model.table.get? 3 = some y ∧ SourceTree.interleaved.BuiltFrom 1 parent s x ∧
        SourceTree.interleaved.BuiltFrom 3 other r y ∧ s.Overtakes r ∧ ¬ r.Overtakes s := by
  have hbounds : SourceTree.interleaved.InBounds := ⟨by decide +kernel, by decide +kernel⟩
  have hstarts : ((Analysis.ofTree .interleaved).toOption.map fun a =>
      ((a.model.table.get? 1).map (·.range.start), (a.model.table.get? 3).map (·.range.start)))
        = some (some 8, some 5) := by decide +kernel
  obtain ⟨hok, hturn⟩ := symbols_inTurn .interleaved
  obtain ⟨a, ha⟩ := hok hbounds
  rw [ha] at hstarts
  obtain ⟨hfirst, hsecond⟩ := Prod.mk.inj (Option.some.inj hstarts)
  obtain ⟨x, hx, hxstart⟩ := Option.map_eq_some_iff.mp hfirst
  obtain ⟨y, hy, hystart⟩ := Option.map_eq_some_iff.mp hsecond
  obtain ⟨s, r, parent, other, hs, hr, horder, hnot⟩ :=
    (hturn a ha).1 1 3 x y hx hy (by decide) (by decide)
  have hover : s.Overtakes r := by
    refine horder.resolve_left ?_
    rw [hxstart, hystart]
    decide
  exact ⟨hbounds, a, x, y, s, r, parent, other, ha, hx, hy, hs, hr, hover, hnot⟩

/-- The inclusion that is written first has the larger number, and it is listed and linked last. -/
theorem Analysis.imports_out_of_order : ∃ a x y, Analysis.ofTree .interleaved = .ok a ∧
    a.model.table.get? 1 = some x ∧ a.model.table.get? 3 = some y ∧
    y.range.start < x.range.start ∧ Import.targets a.model.imports = ["<b>", "<a>"] ∧
    a.model.links.map (·.target) = ["<b>", "<a>"] := by
  have hfacts : ((Analysis.ofTree .interleaved).toOption.map fun a =>
      ((a.model.table.get? 1).map (·.range.start), (a.model.table.get? 3).map (·.range.start),
        Import.targets a.model.imports, a.model.links.map (·.target)))
        = some (some 8, some 5, ["<b>", "<a>"], ["<b>", "<a>"]) := by decide +kernel
  cases ha : Analysis.ofTree .interleaved with
  | error fault =>
      rw [ha] at hfacts
      simp [Except.toOption] at hfacts
  | ok a =>
      rw [ha] at hfacts
      obtain ⟨hfirst, hrest⟩ := Prod.mk.inj (Option.some.inj hfacts)
      obtain ⟨hsecond, hlists⟩ := Prod.mk.inj hrest
      obtain ⟨hintargets, hlinks⟩ := Prod.mk.inj hlists
      obtain ⟨x, hx, hxstart⟩ := Option.map_eq_some_iff.mp hfirst
      obtain ⟨y, hy, hystart⟩ := Option.map_eq_some_iff.mp hsecond
      refine ⟨a, x, y, rfl, hx, hy, ?_, hintargets, hlinks⟩
      rw [hxstart, hystart]
      decide

end LpcSymbols
