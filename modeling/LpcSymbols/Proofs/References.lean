/-
References lead back to their nodes.

A reference keeps the kind and the range of a node, and it is resolved by going down from the root.
At each level one child is looked up, by a search among ranges that follow one another.  Which
children such a search may end at is said here without it (`EndsAt`): at any child that has bytes
in common with the range and, if there is none, at the last one before it.  All ways down that can
be made of such searches lead to the same node (`find?_eq_some_iff`).

Symbols have significant tokens, and tokens have text, so the range of a reference is not empty.
Then the child around it is the only one that is not apart from it, and the search follows the
nodes around the one that is meant.  It stops early only at a node with the same kind and range.
-/
import LpcSymbols.Proofs.Overlaps
import LpcSymbols.Proofs.Transparency
import LpcSymbols.Tree.Reference

namespace LpcSymbols

/-! ### Rows of placed elements -/

/-- The elements of a row follow one another. -/
structure Placed.InOrder (row : List Placed) : Prop where
  follow : row.Pairwise fun p q => p.range.stop ≤ q.range.start
  forward : ∀ p ∈ row, p.range.start ≤ p.range.stop

theorem Element.inOrder_placeAll (start before : Nat) (es : List Element) :
    Placed.InOrder (placeAll start before es) := by
  refine ⟨pairwise_placeAll es start before, ?_⟩
  intro p hp
  obtain ⟨e, a, b, rfl, -, -⟩ := mem_placeAll es start before hp
  rw [range_place]
  exact Nat.le_add_right _ _

namespace Node.IsPlaced

variable {n m : Node}

theorem inOrder (h : n.IsPlaced) : Placed.InOrder n.children := by
  obtain ⟨tag, start, before, children, rfl⟩ := h
  exact Element.inOrder_placeAll start before children

theorem of_getElem? (h : n.IsPlaced) {i : Nat} (hm : n.children[i]? = some m.toPlaced) :
    m.IsPlaced :=
  (h.childNode (List.mem_filterMap.mpr ⟨_, List.mem_of_getElem? hm, rfl⟩)).1

end Node.IsPlaced

namespace Placed.InOrder

variable {row : List Placed}

theorem sublist (hrow : InOrder row) {part : List Placed} (h : part.Sublist row) : InOrder part :=
  ⟨hrow.follow.sublist h, fun p hp => hrow.forward p (h.subset hp)⟩

/-- No element begins or ends before the first one does. -/
theorem head_le {c p : Placed} {rest : List Placed} (hrow : InOrder (c :: rest))
    (hp : p ∈ c :: rest) : c.range.start ≤ p.range.start ∧ c.range.stop ≤ p.range.stop := by
  rcases List.mem_cons.mp hp with rfl | hrest
  · exact ⟨Nat.le_refl _, Nat.le_refl _⟩
  · have hfollow := List.rel_of_pairwise_cons hrow.follow hrest
    have hfirst := hrow.forward c List.mem_cons_self
    have hforward := hrow.forward p hp
    omega

/-- An offset cuts a row in two: what ends there or before, and the rest. -/
theorem exists_cut (hrow : InOrder row) (offset : Nat) :
    ∃ front back, row = front ++ back ∧ row.takeWhile (·.range.stop ≤ offset) = front ∧
      row.countP (·.range.stop ≤ offset) = front.length ∧
      (∀ p ∈ front, p.range.stop ≤ offset) ∧ ∀ p ∈ back, offset < p.range.stop := by
  have hcut : row.takeWhile (·.range.stop ≤ offset) ++ row.dropWhile (·.range.stop ≤ offset) = row :=
    List.takeWhile_append_dropWhile
  have hfront : ∀ p ∈ row.takeWhile (·.range.stop ≤ offset), p.range.stop ≤ offset := by
    intro p hp
    simpa using List.mem_takeWhile_imp hp
  have hback : ∀ p ∈ row.dropWhile (·.range.stop ≤ offset), offset < p.range.stop := by
    intro p hp
    have hrest := hrow.sublist (List.dropWhile_sublist (·.range.stop ≤ offset))
    have hfirst := List.head?_dropWhile_not (·.range.stop ≤ offset) row
    obtain ⟨c, rest, hcons⟩ := List.exists_cons_of_ne_nil (List.ne_nil_of_mem hp)
    rw [hcons] at hp hrest hfirst
    have hc : offset < c.range.stop := by simpa using hfirst
    exact Nat.lt_of_lt_of_le hc (hrest.head_le hp).2
  refine ⟨_, _, hcut.symm, rfl, ?_, hfront, hback⟩
  have hall := List.countP_eq_length.mpr fun p hp => decide_eq_true (hfront p hp)
  have hnone : (row.dropWhile (·.range.stop ≤ offset)).countP (·.range.stop ≤ offset) = 0 :=
    List.countP_eq_zero.mpr fun p hp => by simpa using hback p hp
  nth_rewrite 1 [← hcut]
  rw [List.countP_append, hall, hnone, Nat.add_zero]

end Placed.InOrder

/-! ### The search in one row -/

namespace NodeRef

/-- Where a search for a range may end: at an element that is not apart from it and, if all are, at
the last one that ends before it, or at the first one if none does. -/
inductive EndsAt (range : TextRange) (row : List Placed) : Nat → Prop
  | overlap {i : Nat} {p : Placed} (hp : row[i]? = some p) (h : ¬ p.range.Apart range) :
      EndsAt range row i
  | gap (h : ∀ p ∈ row, p.range.Apart range) :
      EndsAt range row (row.countP (·.range.stop ≤ range.start) - 1)

variable {range : TextRange} {row : List Placed}

theorem endsAt_step (hrow : Placed.InOrder row) : EndsAt range row (step range row) := by
  obtain ⟨front, back, hcut, htake, hcount, hfront, hback⟩ := hrow.exists_cut range.start
  have hget : row[front.length]? = back.head? := by
    rw [hcut, List.getElem?_append_right (Nat.le_refl _), Nat.sub_self, List.head?_eq_getElem?]
  -- Unless the first of the rest begins in time, all of the rest begins behind the range.
  have hgap : (∀ p ∈ back, range.stop ≤ p.range.start) → EndsAt range row (front.length - 1) := by
    intro hlate
    rw [← hcount]
    refine .gap ?_
    intro p hp
    rw [hcut] at hp
    rcases List.mem_append.mp hp with hp | hp
    · exact Or.inl (hfront p hp)
    · exact Or.inr (hlate p hp)
  simp only [step, htake, hget]
  by_cases hnil : back = []
  · subst hnil
    exact hgap (by simp)
  · obtain ⟨c, rest, rfl⟩ := List.exists_cons_of_ne_nil hnil
    simp only [List.head?_cons]
    by_cases hstart : c.range.start < range.stop
    · rw [if_pos hstart]
      refine .overlap hget ?_
      intro hapart
      have hc := hback c List.mem_cons_self
      rcases hapart with h | h <;> omega
    · rw [if_neg hstart]
      have hrest : Placed.InOrder (c :: rest) :=
        hrow.sublist (by rw [hcut]; exact List.sublist_append_right _ _)
      refine hgap ?_
      intro p hp
      exact Nat.le_trans (Nat.le_of_not_lt hstart) (hrest.head_le hp).1

/-- Two searches that end at different elements end at none that holds the range. -/
theorem EndsAt.unique (hrow : Placed.InOrder row) {i j : Nat} {p : Placed}
    (hi : EndsAt range row i) (hj : EndsAt range row j) (hp : row[i]? = some p)
    (hin : p.range.contains range = true) : i = j := by
  have hin' : p.range.start ≤ range.start ∧ range.stop ≤ p.range.stop := by
    simpa [TextRange.contains] using hin
  cases hi with
  | gap hall =>
      cases hj with
      | gap _ => rfl
      | overlap hq hover => exact absurd (hall _ (List.mem_of_getElem? hq)) hover
  | overlap hp' hover' =>
      cases hj with
      | gap hall => exact absurd (hall _ (List.mem_of_getElem? hp')) hover'
      | @overlap _ q hq hover =>
          obtain ⟨hi, hpi⟩ := List.getElem?_eq_some_iff.mp hp
          obtain ⟨hj, hqj⟩ := List.getElem?_eq_some_iff.mp hq
          have hover : range.start < q.range.stop ∧ q.range.start < range.stop := by
            simpa [TextRange.Apart, not_or] using hover
          rcases Nat.lt_trichotomy i j with hlt | heq | hlt
          · have hle := List.pairwise_iff_getElem.mp hrow.follow i j hi hj hlt
            rw [hpi, hqj] at hle
            omega
          · exact heq
          · have hle := List.pairwise_iff_getElem.mp hrow.follow j i hj hi hlt
            rw [hpi, hqj] at hle
            omega

/-- An element around a range that is not empty is where the search for it ends. -/
theorem endsAt_of_within {i : Nat} {p : Placed} (hp : row[i]? = some p)
    (hpos : range.start < range.stop) (hin : range.Within p.range) : EndsAt range row i := by
  refine .overlap hp ?_
  have hstart := hin.start_le
  have hstop := hin.stop_le
  intro hapart
  rcases hapart with h | h <;> omega

/-! ### The way down -/

/-- The node that is meant, at or below a node, and the way to it, one search for each level. -/
inductive Finds (ref : NodeRef) : Node → Node → List Nat → Prop
  | here {n : Node} (h : n.ref = ref) : Finds ref n n []
  | down {n m found : Node} {i : Nat} {path : List Nat} (hn : n.ref ≠ ref)
      (hi : EndsAt ref.range n.children i) (hm : n.children[i]? = some m.toPlaced)
      (hin : m.range.contains ref.range = true) (h : Finds ref m found path) :
      Finds ref n found (i :: path)

theorem findAt?_eq (ref : NodeRef) (i : Nat) (row : List Placed) :
    ref.findAt? i row
      = row[i]?.bind fun p => if p.range.contains ref.range then ref.find? p else none := by
  induction row generalizing i with
  | nil => rw [findAt?]; rfl
  | cons p row ih =>
      by_cases hi : i = 0
      · subst hi
        rw [findAt?]
        rfl
      · obtain ⟨j, rfl⟩ := Nat.exists_eq_succ_of_ne_zero hi
        rw [findAt?, ih j]
        rfl

theorem find?_of_ref_eq {ref : NodeRef} {n : Node} (h : n.ref = ref) :
    ref.find? n.toPlaced = some (n, []) := by
  subst h
  rw [Node.toPlaced, find?, if_pos ⟨rfl, rfl⟩]

theorem find?_of_ref_ne {ref : NodeRef} {n : Node} (h : n.ref ≠ ref) :
    ref.find? n.toPlaced = (ref.findAt? (step ref.range n.children) n.children).map
      fun (found, path) => (found, step ref.range n.children :: path) := by
  have hno : ¬ (n.kind = ref.kind ∧ n.range = ref.range) := by
    rintro ⟨hkind, hrange⟩
    exact h (by rw [Node.ref, hkind, hrange])
  rw [Node.toPlaced, find?, if_neg hno]

/-- One level of the search. -/
theorem find?_eq_some_cons_iff {ref : NodeRef} {n found : Node} {i : Nat} {path : List Nat} :
    ref.find? n.toPlaced = some (found, i :: path) ↔
      n.ref ≠ ref ∧ i = step ref.range n.children ∧ ∃ m : Node,
        n.children[i]? = some m.toPlaced ∧ m.range.contains ref.range = true ∧
        ref.find? m.toPlaced = some (found, path) := by
  by_cases hn : n.ref = ref
  · simp [find?_of_ref_eq hn, hn]
  · rw [find?_of_ref_ne hn, findAt?_eq]
    constructor
    · intro h
      obtain ⟨⟨found', path'⟩, hbelow, hsame⟩ := Option.map_eq_some_iff.mp h
      obtain ⟨rfl, hpath⟩ := Prod.mk.inj hsame
      obtain ⟨rfl, rfl⟩ := List.cons.inj hpath
      obtain ⟨p, hp, hfind⟩ := Option.bind_eq_some_iff.mp hbelow
      obtain ⟨hin, hfind⟩ := Option.ite_none_right_eq_some.mp hfind
      cases p with
      | token t => simp [find?] at hfind
      | node kind range before children =>
          exact ⟨hn, rfl, ⟨kind, range, before, children⟩, hp, hin, hfind⟩
    · rintro ⟨-, rfl, m, hm, hin, hfind⟩
      have hin' : m.toPlaced.range.contains ref.range = true := hin
      rw [hm, Option.bind_some, if_pos hin', hfind]
      rfl

/-- **Whichever elements the searches end at, they lead to the node that is found.** -/
theorem find?_eq_some_iff {ref : NodeRef} {n found : Node} {path : List Nat} (hplaced : n.IsPlaced) :
    ref.find? n.toPlaced = some (found, path) ↔ ref.Finds n found path := by
  induction path generalizing n with
  | nil =>
      by_cases hn : n.ref = ref
      · rw [find?_of_ref_eq hn]
        constructor
        · intro h
          obtain ⟨rfl, -⟩ := Prod.mk.inj (Option.some.inj h)
          exact .here hn
        · intro h
          cases h
          rfl
      · rw [find?_of_ref_ne hn]
        constructor
        · intro h
          obtain ⟨_, -, hsame⟩ := Option.map_eq_some_iff.mp h
          simp at hsame
        · intro h
          cases h with
          | here hn' => exact absurd hn' hn
  | cons i path ih =>
      have hrow := hplaced.inOrder
      rw [find?_eq_some_cons_iff]
      constructor
      · rintro ⟨hn, rfl, m, hm, hin, hfind⟩
        have hbelow := (ih (hplaced.of_getElem? hm)).mp hfind
        exact .down hn (endsAt_step hrow) hm hin hbelow
      · intro h
        cases h with
        | down hn hi hm hin hbelow =>
            refine ⟨hn, hi.unique hrow (endsAt_step hrow) hm hin, _, hm, hin, ?_⟩
            exact (ih (hplaced.of_getElem? hm)).mpr hbelow

end NodeRef

/-! ### From a node to the outermost one like it -/

namespace Site

/-- Where the reference to the node of a site leads: to that node and, if nodes around it have the
same kind and range, to the outermost of them. -/
structure LeadsTo (s found : Site) : Prop where
  alike : found.1.ref = s.1.ref
  own : (∀ m ∈ outward s.2, m.1.ref ≠ s.1.ref) → found = s
  outermost : (∃ m ∈ outward s.2, m.1.ref = s.1.ref) →
    found ∈ outward s.2 ∧ ∀ m ∈ outward found.2, m.1.ref ≠ s.1.ref

theorem leadsTo_of_outermost {s found : Site} (halike : found.1.ref = s.1.ref)
    (hmem : found = s ∨ found ∈ outward s.2) (houter : ∀ m ∈ outward found.2, m.1.ref ≠ s.1.ref) :
    s.LeadsTo found := by
  refine ⟨halike, ?_, ?_⟩
  · intro hnone
    rcases hmem with heq | hout
    · exact heq
    · exact absurd halike (hnone found hout)
  · rintro ⟨m, hm, href⟩
    rcases hmem with rfl | hout
    · exact absurd href (houter m hm)
    · exact ⟨hout, houter⟩

end Site

namespace Placed

theorem exists_toPlaced_of_siteAt? {s : Site} {path : List Nat} {around : List Node} {p : Placed}
    (h : siteAt? around path p = some s) : ∃ m : Node, p = m.toPlaced := by
  cases p with
  | token t => cases path <;> simp [siteAt?] at h
  | node kind range before children => exact ⟨⟨kind, range, before, children⟩, rfl⟩

/-- A node that a path leads to lies inside the one that the path starts from. -/
theorem within_of_siteAt? {s : Site} {path : List Nat} {around : List Node} {n : Node}
    (hplaced : n.IsPlaced) (h : siteAt? around path n.toPlaced = some s) :
    s.1.range.Within n.range := by
  obtain ⟨tag, start, before, children, rfl⟩ := hplaced
  obtain ⟨left, right, -, -, hleft, hown, hright⟩ :=
    Element.standsIn_place start before around (.node tag children) s (mem_nodes_of_siteAt? h)
  exact ⟨hleft.le, hown.le, hright.le⟩

/-- **The reference to a node that a path leads to is found on the path.** -/
theorem finds_of_siteAt? {s : Site} {path : List Nat} (hpos : s.1.range.start < s.1.range.stop)
    {n : Node} {around : List Node} (hplaced : n.IsPlaced)
    (hs : siteAt? around path n.toPlaced = some s)
    (haround : ∀ m ∈ Site.outward around, m.1.ref ≠ s.1.ref) :
    ∃ found way, siteAt? around way n.toPlaced = some found ∧ s.1.ref.Finds n found.1 way ∧
      found.1.ref = s.1.ref ∧ (found = s ∨ found ∈ Site.outward s.2) ∧
      ∀ m ∈ Site.outward found.2, m.1.ref ≠ s.1.ref := by
  induction path generalizing n around with
  | nil =>
      obtain rfl : (n, around) = s := Option.some.inj hs
      exact ⟨(n, around), [], rfl, .here rfl, rfl, Or.inl rfl, haround⟩
  | cons i path ih =>
      by_cases hn : n.ref = s.1.ref
      · -- A node around the one that is meant looks the same, and the search ends there.
        refine ⟨(n, around), [], rfl, .here hn, hn, Or.inr ?_, haround⟩
        obtain ⟨p, -, hp⟩ := Option.bind_eq_some_iff.mp hs
        have hsuffix := (nodes_outward (m := s) p (mem_nodes_of_siteAt? hp)).1
        exact (Site.outward_suffix hsuffix).subset List.mem_cons_self
      · obtain ⟨p, hp, hbelow⟩ := Option.bind_eq_some_iff.mp hs
        obtain ⟨m, rfl⟩ := exists_toPlaced_of_siteAt? hbelow
        have hm := hplaced.of_getElem? hp
        have hwithin := within_of_siteAt? hm hbelow
        have hnext : ∀ r ∈ Site.outward (n :: around), r.1.ref ≠ s.1.ref := by
          intro r hr
          rcases List.mem_cons.mp hr with rfl | hr
          · exact hn
          · exact haround r hr
        obtain ⟨found, way, hfound, hfinds, hrest⟩ := ih hm hbelow hnext
        refine ⟨found, i :: way, Option.bind_eq_some_iff.mpr ⟨_, hp, hfound⟩, ?_, hrest⟩
        refine .down hn (NodeRef.endsAt_of_within hp hpos hwithin) hp ?_ hfinds
        simpa [TextRange.contains] using ⟨hwithin.start_le, hwithin.stop_le⟩

end Placed

theorem NodeRef.resolve_of_finds {ref : NodeRef} {root found : Node} {path : List Nat}
    (hplaced : root.IsPlaced) (h : ref.Finds root found path) :
    ref.resolve root = .ok (found, path) := by
  unfold resolve
  rw [(find?_eq_some_iff hplaced).mpr h]

/-! ### The references of symbols -/

namespace SourceTree

variable {t : SourceTree}

theorem isPlaced_node (t : SourceTree) : t.node.IsPlaced := ⟨t.tag, 0, 0, t.children, rfl⟩

/-- A node with a span has bytes, if no token is empty. -/
theorem AllText.range_pos (h : t.AllText) {s : Site} (hs : s ∈ t.node.nodes) {span : Span}
    (hspan : t.layout.span? s.1 = some span) : s.1.range.start < s.1.range.stop := by
  obtain ⟨first, -, hfirst, -, -⟩ := h.ends_of_span? hs hspan
  have hmem : first ∈ s.1.tokens := (List.mem_filter.mp (List.mem_of_head? hfirst)).1
  obtain ⟨-, -, -, -, -, hown, -⟩ := t.standsIn_nodes hs
  obtain ⟨hstart, hstop⟩ := hown.token_bounds (Leaf.mem_tokens.mp hmem)
  have hpos := Text.size_pos (h first (mem_tokens_of_site hs hmem))
  have hsize : first.range.stop = first.start + Text.size first.text := rfl
  omega

/-- Symbol `id` was made of the node at a site: of the root, if it is that of the file. -/
inductive ComesFrom (t : SourceTree) : SymbolId → Symbol → Site → Prop
  | file {s : Symbol} (ref : s.node = t.node.ref) : t.ComesFrom SymbolId.root s (t.node, [])
  | construct {id parent : SymbolId} {s : Symbol} {site : Site}
      (built : t.BuiltFrom id parent site s) : t.ComesFrom id s site

/-- The node that a reference leads to, whichever way it is searched for, and the way to it. -/
structure Resolves (t : SourceTree) (ref : NodeRef) (found : Site) (path : List Nat) : Prop where
  resolve : ref.resolve t.node = .ok (found.1, path)
  /-- The way leads to the node. -/
  way : t.siteAt? path = some found
  only : ∀ n way, ref.Finds t.node n way ↔ n = found.1 ∧ way = path

theorem resolves_of_finds {ref : NodeRef} {found : Site} {path : List Nat}
    (hway : t.siteAt? path = some found) (h : ref.Finds t.node found.1 path) :
    t.Resolves ref found path := by
  refine ⟨NodeRef.resolve_of_finds t.isPlaced_node h, hway, ?_⟩
  intro n way
  rw [← NodeRef.find?_eq_some_iff t.isPlaced_node] at h ⊢
  rw [h, Option.some.injEq, Prod.mk.injEq]
  exact ⟨fun hsame => ⟨hsame.1.symm, hsame.2.symm⟩, fun hsame => ⟨hsame.1.symm, hsame.2.symm⟩⟩

/-- The reference to a node with a span leads to it, or to the outermost node like it. -/
theorem AllText.resolves (h : t.AllText) {s : Site} (hs : s ∈ t.node.nodes) {span : Span}
    (hspan : t.layout.span? s.1 = some span) :
    ∃ found path, t.Resolves s.1.ref found path ∧ s.LeadsTo found := by
  obtain ⟨path, hpath⟩ := exists_siteAt? hs
  obtain ⟨found, way, hway, hfinds, halike, hmem, houter⟩ :=
    Placed.finds_of_siteAt? (h.range_pos hs hspan) t.isPlaced_node hpath
      (by simp [Site.outward])
  exact ⟨found, way, resolves_of_finds hway hfinds, Site.leadsTo_of_outermost halike hmem houter⟩

theorem resolves_root (t : SourceTree) : t.Resolves t.node.ref (t.node, []) [] :=
  resolves_of_finds rfl (.here rfl)

end SourceTree

/-- **The reference that a symbol keeps is resolved, to a node with its kind and range: the node that
the symbol was made of, or the outermost node like it around that one.** -/
theorem Analysis.references_leadBack {t : SourceTree} (h : t.AllText) :
    (t.InBounds → ∃ a, Analysis.ofTree t = .ok a) ∧
      ∀ a, Analysis.ofTree t = .ok a → ∀ id s, a.model.table.get? id = some s →
        ∃ site found path, t.ComesFrom id s site ∧ t.Resolves s.node found path ∧
          found.1.ref = s.node ∧ site.LeadsTo found := by
  refine ⟨fun hbounds => ⟨_, Analysis.ofTree_of_inBounds hbounds⟩, ?_⟩
  intro a ha id s hs
  obtain ⟨-, rfl⟩ := Analysis.ofTree_ok_iff.mp ha
  by_cases hid : id = SymbolId.root
  · subst hid
    obtain rfl : t.fileSymbol = s := Option.some.inj hs
    refine ⟨(t.node, []), (t.node, []), [], .file rfl, t.resolves_root, rfl, ?_⟩
    exact Site.leadsTo_of_outermost rfl (Or.inl rfl) (by simp [Site.outward])
  · obtain ⟨e, he, rfl, rfl⟩ := SourceTree.entry_of_get? hs hid
    have hbuilt := SourceTree.builtFrom_entry he
    obtain ⟨found, path, hresolves, hleads⟩ := h.resolves hbuilt.node (SourceTree.isOf_of_entry he).span
    rw [← hbuilt.ref] at hresolves
    exact ⟨e.site, found, path, .construct hbuilt, hresolves, hleads.alike.trans hbuilt.ref.symm,
      hleads⟩

/-- A condition that is all there is in a condition, between two empty blocks. -/
def SourceTree.coextensive : SourceTree :=
  .ofItems ⟨0⟩ {}
    [.node Kind.block.tag [],
     .node Kind.ifStatement.tag
      [.node Kind.ifStatement.tag
        [.token Kind.ifKw.tag "if", .node Kind.block.tag [],
         .node Kind.identExpr.tag [.token Kind.ident.tag "x"]]],
     .node Kind.block.tag []]

theorem Analysis.references_leadBack_coextensive :
    SourceTree.coextensive.AllText ∧ SourceTree.coextensive.InBounds ∧
      ∃ a s site found, Analysis.ofTree .coextensive = .ok a ∧ a.model.table.get? 2 = some s ∧
        SourceTree.coextensive.ComesFrom 2 s site ∧
        SourceTree.coextensive.Resolves s.node found [1] ∧ found.1.ref = s.node ∧
        site.LeadsTo found := by
  have htext : SourceTree.coextensive.AllText := by
    unfold SourceTree.AllText
    decide +kernel
  have hbounds : SourceTree.coextensive.InBounds := ⟨by decide +kernel, by decide +kernel⟩
  have hway : ((Analysis.ofTree .coextensive).toOption.bind fun a =>
      (a.model.table.get? 2).bind fun s =>
        (s.node.resolve SourceTree.coextensive.node).toOption.map (·.2)) = some [1] := by
    decide +kernel
  obtain ⟨hok, hleads⟩ := references_leadBack htext
  obtain ⟨a, ha⟩ := hok hbounds
  simp only [ha, Except.toOption, Option.bind_some] at hway
  obtain ⟨s, hs, hway⟩ := Option.bind_eq_some_iff.mp hway
  obtain ⟨site, found, path, hcomes, hresolves, hleads⟩ := hleads a ha 2 s hs
  rw [hresolves.resolve] at hway
  obtain rfl : path = [1] := Option.some.inj hway
  exact ⟨htext, hbounds, a, s, site, found, ha, hs, hcomes, hresolves, hleads⟩

end LpcSymbols
