/-
Where the leaves of a placed tree are.

The leaves of a placed row cover the bytes of the row without gap or overlap: each
token starts where the one before it stopped.  `Covers` says so, and it says the
same of every part of the row, because covering rows can be put together and cut.
Three facts follow from it.

  * The leaves of a node are a segment of the leaves of its row, and the number
    that the node carries is where the segment begins (`StandsIn`).
  * Tokens come in the order of their starts.
  * A node is known by its number of leaves before and its depth, so the nodes of
    a tree, listed with the nodes around them, are all different.
-/
import LpcSymbols.Tree.Placed

namespace LpcSymbols

/-- The tokens among the leaves cover the bytes from `lo` to `hi`, each from where the one
before it stops. -/
def Covers (lo hi : Nat) : List Leaf → Prop
  | [] => lo = hi
  | .token t :: rest => t.start = lo ∧ Covers t.range.stop hi rest
  | .childless :: rest => Covers lo hi rest

namespace Covers

theorem append {lo mid hi : Nat} {a b : List Leaf} (ha : Covers lo mid a)
    (hb : Covers mid hi b) : Covers lo hi (a ++ b) := by
  induction a generalizing lo with
  | nil =>
      have hlo : lo = mid := ha
      subst hlo
      exact hb
  | cons leaf rest ih =>
      cases leaf with
      | token t => exact ⟨ha.1, ih ha.2⟩
      | childless => exact ih (show Covers lo mid rest from ha)

theorem le {lo hi : Nat} {a : List Leaf} (h : Covers lo hi a) : lo ≤ hi := by
  induction a generalizing lo with
  | nil => exact Nat.le_of_eq h
  | cons leaf rest ih =>
      cases leaf with
      | token t =>
          obtain ⟨hstart, hrest⟩ := h
          have hstop : t.start ≤ t.range.stop := Nat.le_add_right _ _
          have := ih hrest
          omega
      | childless => exact ih (show Covers lo hi rest from h)

/-- A token of a covering row lies between its ends. -/
theorem token_bounds {lo hi : Nat} {a : List Leaf} (h : Covers lo hi a) {t : Token}
    (ht : .token t ∈ a) : lo ≤ t.start ∧ t.range.stop ≤ hi := by
  induction a generalizing lo with
  | nil => simp at ht
  | cons leaf rest ih =>
      cases leaf with
      | token u =>
          obtain ⟨hstart, hrest⟩ := h
          rcases List.mem_cons.mp ht with heq | hmem
          · simp only [Leaf.token.injEq] at heq
            subst heq
            exact ⟨Nat.le_of_eq hstart.symm, hrest.le⟩
          · have hstop : u.start ≤ u.range.stop := Nat.le_add_right _ _
            obtain ⟨hlo, hhi⟩ := ih hrest hmem
            exact ⟨by omega, hhi⟩
      | childless =>
          rcases List.mem_cons.mp ht with heq | hmem
          · simp at heq
          · exact ih (show Covers lo hi rest from h) hmem

/-- The first token of a covering row starts where the row does. -/
theorem head_start {lo hi : Nat} {a : List Leaf} {t : Token} {rest : List Leaf}
    (h : Covers lo hi a) (ha : a = .token t :: rest) : t.start = lo := by
  subst ha
  exact h.1

end Covers

/-! ### Placing -/

namespace Placed

/-- A node with children has the leaves of its children. -/
theorem leaves_node {kind : Kind} {range : TextRange} {before : Nat} {children : List Placed}
    (h : children ≠ []) : (Placed.node kind range before children).leaves = leavesAll children := by
  cases children with
  | nil => exact absurd rfl h
  | cons p ps => simp only [leaves, leavesAll]

theorem leavesAll_append (ps qs : List Placed) :
    leavesAll (ps ++ qs) = leavesAll ps ++ leavesAll qs := by
  induction ps with
  | nil => rfl
  | cons p ps ih => simp only [List.cons_append, leavesAll, ih, List.append_assoc]

theorem nodesAll_append (around : List Node) (ps qs : List Placed) :
    nodesAll around (ps ++ qs) = nodesAll around ps ++ nodesAll around qs := by
  induction ps with
  | nil => rfl
  | cons p ps ih => simp only [List.cons_append, nodesAll, ih, List.append_assoc]

end Placed

namespace Element

theorem placeAll_eq_nil {start before : Nat} {es : List Element}
    (h : placeAll start before es = []) : es = [] := by
  cases es with
  | nil => rfl
  | cons e es => simp [placeAll] at h

theorem placeAll_append (start before : Nat) (xs ys : List Element) :
    placeAll start before (xs ++ ys) =
      placeAll start before xs ++
        placeAll (start + sizeAll xs) (before + leafCountAll xs) ys := by
  induction xs generalizing start before with
  | nil => simp [placeAll, sizeAll, leafCountAll]
  | cons x xs ih =>
      simp only [List.cons_append, placeAll, sizeAll, leafCountAll, ih]
      rw [Nat.add_assoc start, Nat.add_assoc before]

theorem sizeAll_append (xs ys : List Element) :
    sizeAll (xs ++ ys) = sizeAll xs + sizeAll ys := by
  induction xs with
  | nil => simp [sizeAll]
  | cons x xs ih => simp only [List.cons_append, sizeAll, ih]; omega

mutual

/-- Every element has a leaf. -/
theorem leafCount_pos : ∀ e : Element, 0 < e.leafCount
  | .token _ _ => Nat.one_pos
  | .node _ [] => Nat.one_pos
  | .node _ (e :: es) => by
    have := leafCount_pos e
    simp only [leafCount]
    omega

end

/-- A node with children has as many leaves as its children. -/
theorem leafCount_node {tag : Nat} {children : List Element} (h : children ≠ []) :
    (Element.node tag children).leafCount = leafCountAll children := by
  cases children with
  | nil => exact absurd rfl h
  | cons e es => simp only [leafCount, leafCountAll]

mutual

theorem leaves_length (start before : Nat) :
    ∀ e : Element, (e.place start before).leaves.length = e.leafCount
  | .token _ _ => rfl
  | .node tag children => by
    by_cases hnil : children = []
    · subst hnil
      rfl
    · have hplaced : placeAll start before children ≠ [] := fun h => hnil (placeAll_eq_nil h)
      rw [place, Placed.leaves_node hplaced, leafCount_node hnil]
      exact leavesAll_length start before children

theorem leavesAll_length (start before : Nat) :
    ∀ es : List Element, (Placed.leavesAll (placeAll start before es)).length = leafCountAll es
  | [] => rfl
  | e :: es => by
    simp only [placeAll, Placed.leavesAll, List.length_append, leafCountAll]
    rw [leaves_length start before e, leavesAll_length _ _ es]

end

mutual

/-- **The leaves of a placed element cover its bytes.** -/
theorem covers_place (start before : Nat) :
    ∀ e : Element, Covers start (start + e.size) (e.place start before).leaves
  | .token _ _ => ⟨rfl, rfl⟩
  | .node tag children => by
    by_cases hnil : children = []
    · subst hnil
      exact rfl
    · have hplaced : placeAll start before children ≠ [] := fun h => hnil (placeAll_eq_nil h)
      rw [place, Placed.leaves_node hplaced]
      exact covers_placeAll start before children

theorem covers_placeAll (start before : Nat) :
    ∀ es : List Element,
      Covers start (start + sizeAll es) (Placed.leavesAll (placeAll start before es))
  | [] => rfl
  | e :: es => by
    simp only [placeAll, Placed.leavesAll, sizeAll, ← Nat.add_assoc]
    exact (covers_place start before e).append (covers_placeAll _ _ es)

end

end Element

/-! ### The leaves of a node as a segment -/

/-- The leaves of the node are a segment of a row of leaves that comes after `before` others
and covers the bytes from `lo` to `hi`. -/
def Node.StandsIn (n : Node) (lo hi before : Nat) (row : List Leaf) : Prop :=
  ∃ left right, row = left ++ n.leaves ++ right ∧ before + left.length = n.leavesBefore ∧
    Covers lo n.range.start left ∧ Covers n.range.start n.range.stop n.leaves ∧
    Covers n.range.stop hi right

namespace Node.StandsIn

variable {n : Node} {lo mid hi before : Nat} {row other : List Leaf}

/-- More leaves behind the row change nothing. -/
theorem append_right (h : n.StandsIn lo mid before row) (hother : Covers mid hi other) :
    n.StandsIn lo hi before (row ++ other) := by
  obtain ⟨left, right, hrow, hbefore, hleft, hown, hright⟩ := h
  refine ⟨left, right ++ other, ?_, hbefore, hleft, hown, hright.append hother⟩
  rw [hrow, List.append_assoc _ right]

/-- Leaves in front of the row are counted by `before`. -/
theorem append_left {count : Nat} (h : n.StandsIn mid hi (before + count) row)
    (hcount : other.length = count) (hother : Covers lo mid other) :
    n.StandsIn lo hi before (other ++ row) := by
  obtain ⟨left, right, hrow, hbefore, hleft, hown, hright⟩ := h
  refine ⟨other ++ left, right, ?_, ?_, hother.append hleft, hown, hright⟩
  · simp only [hrow, List.append_assoc]
  · rw [List.length_append, hcount, ← hbefore]
    omega

end Node.StandsIn

namespace Element

theorem place_node_standsIn (start before tag : Nat) (children : List Element) :
    Node.StandsIn ⟨.ofTag tag, .ofLength start (sizeAll children), before,
      placeAll start before children⟩ start (start + sizeAll children) before
      ((Element.node tag children).place start before).leaves := by
  refine ⟨[], [], by simp [Node.leaves, Node.toPlaced, place], rfl, rfl, ?_, rfl⟩
  exact covers_place start before (.node tag children)

mutual

/-- **Every node of a placed element stands among the element's leaves.** -/
theorem standsIn_place (start before : Nat) (around : List Node) :
    ∀ (e : Element) (s : Node × List Node), s ∈ (e.place start before).nodes around →
      s.1.StandsIn start (start + e.size) before (e.place start before).leaves
  | .token _ _, s, hs => by simp [place, Placed.nodes] at hs
  | .node tag children, s, hs => by
    simp only [place, Placed.nodes, List.mem_cons] at hs
    rcases hs with rfl | hs
    · exact place_node_standsIn start before tag children
    · have hne : placeAll start before children ≠ [] := by
        intro hnil
        rw [hnil] at hs
        simp [Placed.nodesAll] at hs
      rw [place, Placed.leaves_node hne]
      exact standsIn_placeAll start before _ children s hs

theorem standsIn_placeAll (start before : Nat) (around : List Node) :
    ∀ (es : List Element) (s : Node × List Node),
      s ∈ Placed.nodesAll around (placeAll start before es) →
      s.1.StandsIn start (start + sizeAll es) before (Placed.leavesAll (placeAll start before es))
  | [], s, hs => by simp [placeAll, Placed.nodesAll] at hs
  | e :: es, s, hs => by
    simp only [placeAll, Placed.nodesAll, List.mem_append] at hs
    simp only [placeAll, Placed.leavesAll, sizeAll, ← Nat.add_assoc]
    rcases hs with hs | hs
    · exact (standsIn_place start before around e s hs).append_right (covers_placeAll _ _ es)
    · have hrest := standsIn_placeAll (start + e.size) (before + e.leafCount) around es s hs
      exact hrest.append_left (leaves_length start before e) (covers_place start before e)

end

/-! ### Nodes are told apart by their leaves and their depth -/

mutual

/-- The nodes of an element begin among its leaves, and the nodes in `around` are around
them. -/
theorem nodes_place_bounds (start before : Nat) (around : List Node) :
    ∀ (e : Element) (s : Node × List Node), s ∈ (e.place start before).nodes around →
      before ≤ s.1.leavesBefore ∧ s.1.leavesBefore < before + e.leafCount ∧ around <:+ s.2
  | .token _ _, s, hs => by simp [place, Placed.nodes] at hs
  | .node tag children, s, hs => by
    have hpos := leafCount_pos (.node tag children)
    simp only [place, Placed.nodes, List.mem_cons] at hs
    rcases hs with rfl | hs
    · exact ⟨Nat.le_refl _, by show before < before + _; omega, List.suffix_refl _⟩
    · have hne : children ≠ [] := by
        rintro rfl
        simp [placeAll, Placed.nodesAll] at hs
      rw [leafCount_node hne]
      obtain ⟨hlo, hhi, haround⟩ := nodesAll_place_bounds start before _ children s hs
      exact ⟨hlo, hhi, (List.suffix_cons _ _).trans haround⟩

theorem nodesAll_place_bounds (start before : Nat) (around : List Node) :
    ∀ (es : List Element) (s : Node × List Node),
      s ∈ Placed.nodesAll around (placeAll start before es) →
      before ≤ s.1.leavesBefore ∧ s.1.leavesBefore < before + leafCountAll es ∧ around <:+ s.2
  | [], s, hs => by simp [placeAll, Placed.nodesAll] at hs
  | e :: es, s, hs => by
    simp only [placeAll, Placed.nodesAll, List.mem_append] at hs
    rw [leafCountAll]
    rcases hs with hs | hs
    · obtain ⟨hlo, hhi, haround⟩ := nodes_place_bounds start before around e s hs
      exact ⟨hlo, by omega, haround⟩
    · obtain ⟨hlo, hhi, haround⟩ := nodesAll_place_bounds _ _ around es s hs
      exact ⟨by omega, by omega, haround⟩

end

mutual

/-- **The nodes of a placed element, each with the nodes around it, are all different.** -/
theorem nodup_nodes_place (start before : Nat) (around : List Node) :
    ∀ e : Element, ((e.place start before).nodes around).Nodup
  | .token _ _ => by simp [place, Placed.nodes]
  | .node tag children => by
    simp only [place, Placed.nodes, List.nodup_cons]
    refine ⟨?_, nodup_nodesAll_place start before _ children⟩
    -- The node itself is less deep than every node below it.
    intro hmem
    obtain ⟨-, -, haround⟩ := nodesAll_place_bounds start before _ children _ hmem
    have hlen := haround.length_le
    simp only [List.length_cons] at hlen
    omega

theorem nodup_nodesAll_place (start before : Nat) (around : List Node) :
    ∀ es : List Element, (Placed.nodesAll around (placeAll start before es)).Nodup
  | [] => by simp [placeAll, Placed.nodesAll]
  | e :: es => by
    simp only [placeAll, Placed.nodesAll]
    refine List.nodup_append.mpr
      ⟨nodup_nodes_place start before around e, nodup_nodesAll_place _ _ around es, ?_⟩
    -- Nodes of different elements of a row begin at different leaves.
    rintro s hs _ hs' rfl
    obtain ⟨-, hhi, -⟩ := nodes_place_bounds start before around e s hs
    obtain ⟨hlo, -, -⟩ := nodesAll_place_bounds _ _ around es s hs'
    omega

end

end Element

end LpcSymbols
