/-
Symbols lie inside the symbols that own them.

A node below another one lies inside it twice over: its bytes are among the other's
bytes, and its leaves are among the other's leaves (`Node.Inside`).  For ranges this is
all there is to say.

Spans need an argument, because the search for a span is not about the node's own leaves.
A childless node cuts it off, and tokens without text may carry it out of the node.  But a
search that finds something has passed over insignificant tokens only.  So the token that
it finds is the earliest significant one from the start of the search on, and a search that
starts later, however far it gets, finds nothing earlier (`first?_start_le`).  The same
holds from behind.  Spans are compared by token numbers, and those grow with offsets as long
as they do not start from zero again: the tokens have to be fewer than `2 ^ 32`.
-/
import LpcSymbols.Proofs.Ranges

namespace LpcSymbols

/-! ### Nodes below nodes -/

/-- The node lies inside the other one, by its bytes and by its leaves. -/
structure Node.Inside (n m : Node) : Prop where
  range : n.range.Within m.range
  first : m.leavesBefore ≤ n.leavesBefore
  last : n.leavesBefore + n.leaves.length ≤ m.leavesBefore + m.leaves.length

/-- A node that stands among the leaves of another one lies inside it. -/
theorem Node.StandsIn.inside {n m : Node}
    (h : n.StandsIn m.range.start m.range.stop m.leavesBefore m.leaves) : n.Inside m := by
  obtain ⟨left, right, hrow, hbefore, hleft, hown, hright⟩ := h
  have hlength : m.leaves.length = left.length + n.leaves.length + right.length := by
    rw [hrow, List.length_append, List.length_append]
  exact ⟨⟨hleft.le, hown.le, hright.le⟩, by omega, by omega⟩

namespace Element

mutual

theorem inside_place (start before : Nat) (around : List Node) {s m : Site} :
    ∀ e : Element, s ∈ (e.place start before).nodes around → m ∈ Site.outward s.2 →
      m ∈ Site.outward around ∨ s.1.Inside m.1
  | .token _ _, hs, _ => by simp [place, Placed.nodes] at hs
  | .node tag children, hs, hm => by
    simp only [place, Placed.nodes, List.mem_cons] at hs
    rcases hs with rfl | hs
    · exact Or.inl hm
    · rcases inside_placeAll start before _ children hs hm with hm | hinside
      · rcases List.mem_cons.mp hm with rfl | hm
        · -- The node around the row has the leaves of the row.
          have hne : placeAll start before children ≠ [] := by
            intro hnil
            rw [hnil] at hs
            simp [Placed.nodesAll] at hs
          have hleaves : Node.leaves ⟨.ofTag tag, .ofLength start (sizeAll children), before,
              placeAll start before children⟩ = Placed.leavesAll (placeAll start before children) :=
            Placed.leaves_node hne
          refine Or.inr (Node.StandsIn.inside ?_)
          rw [hleaves]
          exact standsIn_placeAll start before _ children s hs
        · exact Or.inl hm
      · exact Or.inr hinside

/-- A node below a placed row lies inside the nodes of the row that are around it. -/
theorem inside_placeAll (start before : Nat) (around : List Node) {s m : Site} :
    ∀ es : List Element, s ∈ Placed.nodesAll around (placeAll start before es) →
      m ∈ Site.outward s.2 → m ∈ Site.outward around ∨ s.1.Inside m.1
  | [], hs, _ => by simp [placeAll, Placed.nodesAll] at hs
  | e :: es, hs, hm => by
    simp only [placeAll, Placed.nodesAll, List.mem_append] at hs
    rcases hs with hs | hs
    · exact inside_place start before around e hs hm
    · exact inside_placeAll _ _ around es hs hm

end

end Element

namespace SourceTree

variable {s m : Site}

/-- **A node lies inside every node around it.** -/
theorem inside_of_outward (t : SourceTree) (hs : s ∈ t.node.nodes) (hm : m ∈ Site.outward s.2) :
    s.1.Inside m.1 := by
  rcases Element.inside_place 0 0 [] t.root hs hm with hm | hinside
  · simp [Site.outward] at hm
  · exact hinside

/-- Every node lies inside the root. -/
theorem inside_root (t : SourceTree) (hs : s ∈ t.node.nodes) : s.1.Inside t.node := by
  have hstands := t.standsIn_nodes hs
  have hstop : t.node.range.stop = t.size := Nat.zero_add _
  rw [← hstop] at hstands
  exact hstands.inside

end SourceTree

/-! ### Searches that start one behind the other -/

namespace Layout

variable {range : TextRange} {row : List Leaf} {u v : Token}

theorem mem_of_significant? (h : significant? range row = some u) :
    .token u ∈ row ∧ u.isSignificant = true := by
  induction row with
  | nil => simp [significant?] at h
  | cons leaf rest ih =>
      cases leaf with
      | childless => simp [significant?] at h
      | token t =>
          simp only [significant?] at h
          by_cases hin : range.contains t.range = true
          · by_cases hsig : t.isSignificant = true
            · rw [if_pos hin, if_pos hsig] at h
              obtain rfl := Option.some.inj h
              exact ⟨List.mem_cons_self, hsig⟩
            · rw [if_pos hin, if_neg hsig] at h
              obtain ⟨hmem, hu⟩ := ih h
              exact ⟨List.mem_cons_of_mem _ hmem, hu⟩
          · rw [if_neg hin] at h
            simp at h

/-- A search passes over insignificant tokens only: what it finds comes before every other
significant token of the row. -/
theorem significant?_before {R : Token → Token → Prop}
    (hrow : (row.filterMap Leaf.token?).Pairwise R) (hu : significant? range row = some u)
    (hv : .token v ∈ row) (hsig : v.isSignificant = true) : v = u ∨ R u v := by
  induction row with
  | nil => simp at hv
  | cons leaf rest ih =>
      cases leaf with
      | childless => simp [significant?] at hu
      | token t =>
          obtain ⟨hlater, hrest⟩ := List.pairwise_cons.mp hrow
          simp only [significant?] at hu
          by_cases hin : range.contains t.range = true
          · rw [if_pos hin] at hu
            by_cases ht : t.isSignificant = true
            · rw [if_pos ht] at hu
              obtain rfl := Option.some.inj hu
              rcases List.mem_cons.mp hv with heq | hmem
              · exact Or.inl (Leaf.token.inj heq)
              · exact Or.inr (hlater v (Leaf.mem_tokens.mpr hmem))
            · rw [if_neg ht] at hu
              rcases List.mem_cons.mp hv with heq | hmem
              · obtain rfl := Leaf.token.inj heq
                exact absurd hsig ht
              · exact ih hrest hu hmem
          · rw [if_neg hin] at hu
            simp at hu

variable {l : Layout} {n m : Node} {lo hi : Nat}

/-- A search that starts later finds nothing earlier. -/
theorem first?_start_le (hl : Covers lo hi l.leaves) (h : m.leavesBefore ≤ n.leavesBefore)
    (hu : l.first? m = some u) (hv : l.first? n = some v) : u.start ≤ v.start := by
  obtain ⟨hmem, hsig⟩ := mem_of_significant? hv
  have hrow : ((l.leaves.drop m.leavesBefore).filterMap Leaf.token?).Pairwise
      fun a b => a.range.stop ≤ b.start :=
    hl.pairwise.sublist ((List.drop_sublist _ _).filterMap _)
  have hlater : .token v ∈ l.leaves.drop m.leavesBefore :=
    List.drop_subset_drop_left _ h hmem
  have hstop : u.start ≤ u.range.stop := Nat.le_add_right _ _
  rcases significant?_before hrow hu hlater hsig with heq | hbefore
  · rw [heq]
  · exact Nat.le_trans hstop hbefore

/-- From behind, a search that starts earlier finds nothing later. -/
theorem last?_start_le (hl : Covers lo hi l.leaves)
    (h : n.leavesBefore + n.leaves.length ≤ m.leavesBefore + m.leaves.length)
    (hu : l.last? m = some u) (hv : l.last? n = some v) : v.start ≤ u.start := by
  obtain ⟨hmem, hsig⟩ := mem_of_significant? hv
  have hrow : ((l.leaves.take (m.leavesBefore + m.leaves.length)).reverse.filterMap
      Leaf.token?).Pairwise fun a b => b.range.stop ≤ a.start := by
    rw [List.filterMap_reverse, List.pairwise_reverse]
    exact hl.pairwise.sublist ((List.take_sublist _ _).filterMap _)
  have hearlier : .token v ∈ (l.leaves.take (m.leavesBefore + m.leaves.length)).reverse := by
    rw [List.mem_reverse] at hmem ⊢
    exact List.take_subset_take_left _ h hmem
  have hstop : v.start ≤ v.range.stop := Nat.le_add_right _ _
  rcases significant?_before hrow hu hearlier hsig with heq | hbefore
  · rw [heq]
  · exact Nat.le_trans hstop hbefore

end Layout

/-- **The span of a node contains the spans of the nodes inside it**, if the tokens can be counted
in a word. -/
theorem Layout.span?_contains {l : Layout} {n m : Node} {lo hi : Nat} (hl : Covers lo hi l.leaves)
    (hcount : l.tokens.starts.length < Word.bound) (h : n.Inside m) {outer inner : Span} (hm : l.span? m = some outer)
    (hn : l.span? n = some inner) : outer.contains inner = true := by
  rw [span?_eq] at hm hn
  obtain ⟨_, hfirst, hm⟩ := Option.bind_eq_some_iff.mp hm
  obtain ⟨_, hlast, rfl⟩ := Option.map_eq_some_iff.mp hm
  obtain ⟨_, hfirst', hn⟩ := Option.bind_eq_some_iff.mp hn
  obtain ⟨_, hlast', rfl⟩ := Option.map_eq_some_iff.mp hn
  obtain ⟨u, hu, rfl⟩ := Option.map_eq_some_iff.mp hfirst
  obtain ⟨w, hw, rfl⟩ := Option.map_eq_some_iff.mp hlast
  obtain ⟨u', hu', rfl⟩ := Option.map_eq_some_iff.mp hfirst'
  obtain ⟨w', hw', rfl⟩ := Option.map_eq_some_iff.mp hlast'
  have hstart : l.tokens.rank u.start ≤ l.tokens.rank u'.start := by
    rw [TokenStarts.rank_eq hcount, TokenStarts.rank_eq hcount]
    exact l.tokens.before_mono (first?_start_le hl h.first hu hu')
  have hstop : l.tokens.rank w'.start ≤ l.tokens.rank w.start := by
    rw [TokenStarts.rank_eq hcount, TokenStarts.rank_eq hcount]
    exact l.tokens.before_mono (last?_start_le hl h.last hw hw')
  simp [Span.contains, position, hstart, hstop]

/-! ### Symbols and their owners -/

theorem Nearest.root_or_mem {scope : Site → SymbolId → Prop} {sites : List Site} {id : SymbolId}
    (h : Nearest scope sites id) : id = SymbolId.root ∨ ∃ m ∈ sites, scope m id := by
  induction h with
  | file => exact Or.inl rfl
  | @here m rest id hm => exact Or.inr ⟨m, List.mem_cons_self, hm⟩
  | outer _ _ ih =>
      refine ih.imp_right ?_
      intro hrest
      obtain ⟨m, hm, hscope⟩ := hrest
      exact ⟨m, List.mem_cons_of_mem _ hm, hscope⟩

namespace SourceTree

variable {t : SourceTree}

/-- The owner of a symbol was built from a node around the symbol's node, or it is the file. -/
theorem exists_owner {e : Entry} (he : e ∈ t.entries) :
    ∃ owner n, t.model.table.get? e.parent = some owner ∧ e.site.1.Inside n ∧
      owner.range = n.range ∧
      ((t.layout.span? t.node).isSome = true → t.layout.span? n = some owner.span) := by
  have hsite := site_mem_nodes he
  rcases (nearest_of_entry he).root_or_mem with hroot | hscope
  · refine ⟨t.fileSymbol, t.node, by rw [hroot]; rfl, t.inside_root hsite, rfl, ?_⟩
    intro hspan
    obtain ⟨span, hspan⟩ := Option.isSome_iff_exists.mp hspan
    show _ = some ((t.layout.span? t.node).getD .zero)
    rw [hspan, Option.getD_some]
  · obtain ⟨m, hm, horigin, -⟩ := hscope
    obtain ⟨o, ho, hid, rfl⟩ := entry_of_origin? horigin
    refine ⟨o.symbol, o.site.1, ?_, t.inside_of_outward hsite hm, range_of_entry ho,
      fun _ => (isOf_of_entry ho).span⟩
    rw [← hid]
    exact (get?_model_of_entry ho).1

end SourceTree

/-- **Every symbol lies inside its owner, and its name inside the symbol.**  The span of the owner
contains that of the symbol, if the file has a span and fewer than `2 ^ 32` tokens. -/
theorem Analysis.symbols_nested (t : SourceTree) :
    (t.InBounds → ∃ a, Analysis.ofTree t = .ok a) ∧
      ∀ a, Analysis.ofTree t = .ok a → ∀ id s, a.model.table.get? id = some s →
        id ≠ SymbolId.root → ∃ parent owner, s.parent = some parent ∧
          a.model.table.get? parent = some owner ∧ s.range.Within owner.range ∧
          (∀ r, s.nameRange = some r → r.Within s.range) ∧
          (t.node.tokens.length < 4294967296 → (t.layout.span? t.node).isSome = true →
            owner.span.contains s.span = true) := by
  refine ⟨fun h => ⟨_, Analysis.ofTree_of_inBounds h⟩, ?_⟩
  intro a ha id s hs hid
  obtain ⟨-, rfl⟩ := Analysis.ofTree_ok_iff.mp ha
  have hmem : s ∈ t.model.table.toList := by
    rw [SymbolTable.get?_eq_toList] at hs
    exact List.mem_of_getElem? hs
  obtain ⟨e, he, -, rfl⟩ := SourceTree.entry_of_get? hs hid
  obtain ⟨owner, n, howner, hinside, hrange, hspan⟩ := SourceTree.exists_owner he
  refine ⟨e.parent, owner, rfl, howner, ?_, (SourceTree.symbol_within hmem).2, ?_⟩
  · rw [hrange, SourceTree.range_of_entry he]
    exact hinside.range
  · intro hcount hfile
    have hstarts : t.layout.tokens.starts.length < Word.bound := by
      rw [SourceTree.length_starts]
      exact hcount
    exact Layout.span?_contains t.covers_leaves hstarts hinside (hspan hfile)
      (SourceTree.isOf_of_entry he).span

/-- A function around an inclusion whose first and last tokens have no text. -/
def SourceTree.padded : SourceTree :=
  .ofItems ⟨0⟩ {}
    [.node Kind.functionDecl.tag
      [.node Kind.functionHeader.tag [.node Kind.name.tag [.token Kind.ident.tag "f"]],
       .node Kind.modifierList.tag [],
       .node Kind.includeDirective.tag
        [.token Kind.semicolon.tag "", .token Kind.headerName.tag "<a>",
         .token Kind.semicolon.tag ""],
       .token Kind.semicolon.tag ";"]]

theorem Analysis.symbols_nested_padded :
    SourceTree.padded.InBounds ∧ SourceTree.padded.node.tokens.length < 4294967296 ∧ ∃ a s owner, Analysis.ofTree .padded = .ok a ∧
      a.model.table.get? 2 = some s ∧ s.parent = some 1 ∧ a.model.table.get? 1 = some owner ∧
      s.range.Within owner.range ∧ (∀ r, s.nameRange = some r → r.Within s.range) ∧
      owner.span.contains s.span = true := by
  have hbounds : SourceTree.padded.InBounds := ⟨by decide +kernel, by decide +kernel⟩
  have hcount : SourceTree.padded.node.tokens.length < 4294967296 := by decide +kernel
  have hspan : (SourceTree.padded.layout.span? SourceTree.padded.node).isSome = true := by
    decide +kernel
  have hparent : ((Analysis.ofTree .padded).toOption.bind fun a =>
      (a.model.table.get? 2).map (·.parent)) = some (some 1) := by decide +kernel
  obtain ⟨hok, hnested⟩ := symbols_nested .padded
  obtain ⟨a, ha⟩ := hok hbounds
  rw [ha] at hparent
  obtain ⟨s, hs, hone⟩ := Option.map_eq_some_iff.mp hparent
  obtain ⟨parent, owner, hsome, howner, hrange, hname, hcontains⟩ :=
    hnested a ha 2 s hs (by decide)
  obtain rfl : parent = 1 := Option.some.inj (hsome.symm.trans hone)
  exact ⟨hbounds, hcount, a, s, owner, ha, hs, hone, howner, hrange, hname,
    hcontains hcount hspan⟩

end LpcSymbols
