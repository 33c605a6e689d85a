/-
Selections grow.

A selection is made of the symbols on the way from the innermost symbol at a place up to the file.
Each lies inside the next (`pairwise_within`), and the place inside the first of them, so it is in
all of them.  Lines and columns keep the order of offsets, in both directions, so the regions are
nested as the ranges are, and two regions are equal only if the ranges are.

A region that is no larger than the one before it is dropped.  Only neighbours are compared, but in
a nested row equal regions are neighbours: whatever stands between them is nested in both
directions (`pairwise_eraseReps`).
-/
import LpcSymbols.Proofs.Links
import LpcSymbols.Proofs.Innermost

namespace LpcSymbols

/-! ### Rows without repetitions -/

section Repetitions

variable {α : Type} [DecidableEq α]

theorem eraseReps_loop (l : List α) (a : α) (acc : List α) :
    List.eraseRepsBy.loop (· == ·) a l acc
      = acc.reverse ++ List.eraseRepsBy.loop (· == ·) a l [] := by
  induction l generalizing a acc with
  | nil => simp [List.eraseRepsBy.loop]
  | cons b l ih =>
      simp only [List.eraseRepsBy.loop]
      split
      · exact ih a acc
      · rw [ih b (a :: acc), ih b [a], List.reverse_cons, List.append_assoc]
        rfl

theorem eraseReps_cons_cons (a b : α) (l : List α) : (a :: b :: l).eraseReps
    = if a = b then (b :: l).eraseReps else a :: (b :: l).eraseReps := by
  show List.eraseRepsBy.loop (· == ·) a (b :: l) [] = _
  by_cases hab : a = b
  · subst hab
    simp [List.eraseRepsBy.loop, List.eraseReps, List.eraseRepsBy]
  · rw [if_neg hab, List.eraseRepsBy.loop]
    simp only [beq_eq_false_iff_ne.mpr hab]
    exact eraseReps_loop l b [a]

theorem mem_of_mem_eraseReps {x : α} : ∀ {l : List α}, x ∈ l.eraseReps → x ∈ l
  | [], h => h
  | [_], h => h
  | a :: b :: l, h => by
    rw [eraseReps_cons_cons] at h
    split at h
    · exact List.mem_cons_of_mem a (mem_of_mem_eraseReps h)
    · rcases List.mem_cons.mp h with rfl | h
      · exact List.mem_cons_self
      · exact List.mem_cons_of_mem a (mem_of_mem_eraseReps h)

theorem getLast?_eraseReps : ∀ l : List α, l.eraseReps.getLast? = l.getLast?
  | [] => rfl
  | [_] => rfl
  | a :: b :: l => by
    have ih := getLast?_eraseReps (b :: l)
    rw [eraseReps_cons_cons, List.getLast?_cons_cons]
    split
    · exact ih
    · rw [List.getLast?_cons, ih, List.getLast?_cons, Option.getD_some]

/-- **A nested row in which no neighbours are equal has no two equal members.** -/
theorem pairwise_eraseReps {R : α → α → Prop} (hanti : ∀ a b, R a b → R b a → a = b) :
    ∀ {l : List α}, l.Pairwise R → l.eraseReps.Pairwise fun a b => R a b ∧ a ≠ b
  | [], _ => List.Pairwise.nil
  | [a], _ => List.pairwise_singleton _ a
  | a :: b :: l, h => by
    obtain ⟨hhead, htail⟩ := List.pairwise_cons.mp h
    have ih := pairwise_eraseReps hanti htail
    rw [eraseReps_cons_cons]
    split
    · exact ih
    · rename_i hab
      refine List.pairwise_cons.mpr ⟨?_, ih⟩
      intro x hx
      have hmem := mem_of_mem_eraseReps hx
      refine ⟨hhead x hmem, ?_⟩
      rintro rfl
      -- The second member lies between two equal ones.
      rcases List.mem_cons.mp hmem with rfl | hmem
      · exact hab rfl
      · exact hab (hanti a b (hhead b List.mem_cons_self) (List.rel_of_pairwise_cons htail hmem))

end Repetitions

/-! ### Places and offsets -/

/-- The place is not behind the other one, by line and then by column. -/
def LineCol.UpTo (p q : LineCol) : Prop := p.line < q.line ∨ p.line = q.line ∧ p.col ≤ q.col

theorem LineCol.UpTo.antisymm {p q : LineCol} (h : p.UpTo q) (h' : q.UpTo p) : p = q := by
  obtain ⟨pline, pcol⟩ := p
  obtain ⟨qline, qcol⟩ := q
  simp only [UpTo] at h h'
  rw [LineCol.mk.injEq]
  omega

namespace LineMap

theorem lineCol_upTo (text : String) {a b : Nat} (h : a ≤ b) :
    ((ofText text).lineCol a).UpTo ((ofText text).lineCol b) := by
  rcases Nat.eq_or_lt_of_le h with rfl | hlt
  · exact Or.inr ⟨rfl, Nat.le_refl _⟩
  · exact (lineCol_lt text hlt).imp_right fun hcol => ⟨hcol.1, Nat.le_of_lt hcol.2⟩

end LineMap

namespace Region

/-- The place is in the region or at one of its ends. -/
structure Holds (r : Region) (p : LineCol) : Prop where
  start : r.start.UpTo p
  stop : p.UpTo r.stop

/-- The region reaches no further than the other one, at either end. -/
structure Within (r outer : Region) : Prop where
  start : outer.start.UpTo r.start
  stop : r.stop.UpTo outer.stop

theorem Within.antisymm {r outer : Region} (h : r.Within outer) (h' : outer.Within r) :
    r = outer := by
  obtain ⟨start, stop⟩ := r
  obtain ⟨start', stop'⟩ := outer
  rw [Region.mk.injEq]
  exact ⟨h'.start.antisymm h.start, h.stop.antisymm h'.stop⟩

end Region

namespace LineMap

theorem region_within (text : String) {r outer : TextRange} (h : r.Within outer) :
    ((ofText text).region r).Within ((ofText text).region outer) :=
  ⟨lineCol_upTo text h.start_le, lineCol_upTo text h.stop_le⟩

theorem region_holds (text : String) {r : TextRange} {offset : Nat}
    (h : r.touches offset = true) :
    ((ofText text).region r).Holds ((ofText text).lineCol offset) := by
  obtain ⟨hstart, hstop⟩ := TextRange.touches_iff.mp h
  exact ⟨lineCol_upTo text hstart, lineCol_upTo text hstop⟩

end LineMap

/-! ### From a symbol up to the file -/

namespace SymbolTable

/-- Only the file has no parent. -/
theorem WellFormed.eq_root_of_parent? {t : SymbolTable} (h : t.WellFormed) {id : SymbolId}
    (hid : id < t.size) (hp : t.parent? id = none) : id = SymbolId.root := by
  by_contra hne
  obtain ⟨p, hparent, -⟩ := h.owned id hid hne
  rw [hp] at hparent
  simp at hparent

/-- The way up from a symbol ends at the file. -/
theorem WellFormed.getLast?_ancestors {t : SymbolTable} (h : t.WellFormed) {id : SymbolId}
    {s : Symbol} (hs : t.get? id = some s) :
    (s :: t.ancestors id).getLast? = t.get? SymbolId.root := by
  induction id using h.induction_up generalizing s with
  | top id hp =>
      have hroot := h.eq_root_of_parent? (lt_size_iff.mpr ⟨s, hs⟩) hp
      rw [ancestors_of_none hp, ← hroot, hs]
      rfl
  | up id p hp ih =>
      obtain ⟨-, x, hx, -⟩ := h.parent_spec hp
      rw [h.ancestors_of_parent hp hx, List.getLast?_cons_cons]
      exact ih hx

end SymbolTable

namespace SourceTree

variable {t : SourceTree}

/-- **On the way from a symbol up to the file, every symbol lies inside the next.** -/
theorem pairwise_within (hwf : t.model.table.WellFormed) {id : SymbolId} {s : Symbol}
    (hs : t.model.table.get? id = some s) :
    (s :: t.model.table.ancestors id).Pairwise fun x y => x.range.Within y.range := by
  induction id using hwf.induction_up generalizing s with
  | top id hp =>
      rw [SymbolTable.ancestors_of_none hp]
      exact List.pairwise_singleton _ s
  | up id p hp ih =>
      obtain ⟨-, x, hx, -⟩ := hwf.parent_spec hp
      have hwithin : s.range.Within x.range :=
        within_of_descends hwf (.step hp .self) hx hs
      rw [hwf.ancestors_of_parent hp hx]
      refine List.pairwise_cons.mpr ⟨?_, ih hx⟩
      intro y hy
      rcases List.mem_cons.mp hy with rfl | hy
      · exact hwithin
      · exact hwithin.trans (List.rel_of_pairwise_cons (ih hx) hy)

theorem stop_fileSymbol (t : SourceTree) : t.fileSymbol.range.stop = Text.size t.text :=
  (Nat.zero_add _).trans t.size_lines.symm

/-- The innermost symbol at an offset of the text is at the offset. -/
theorem touches_symbolAt (hwf : t.model.table.WellFormed) {offset : Nat}
    (hoffset : offset ≤ Text.size t.text) {s : Symbol}
    (hs : t.model.table.get? (t.model.table.symbolAt offset) = some s) :
    s.range.touches offset = true := by
  obtain ⟨hway, -⟩ := onTheWay_descend hwf (SymbolTable.upward_true _) offset
  rcases hway.touches hs with hroot | htouch
  · rw [show t.model.table.symbolAt offset = SymbolId.root from hroot] at hs
    obtain rfl : t.fileSymbol = s := Option.some.inj hs
    rw [← stop_fileSymbol] at hoffset
    exact TextRange.touches_iff.mpr ⟨Nat.zero_le _, hoffset⟩
  · exact htouch

/-- The regions to select at a place: all hold the place, each is inside the next and not equal to
it, and the last is the file, from its first byte to behind its last. -/
structure GrowsAt (t : SourceTree) (place : LineCol) (regions : List Region) : Prop where
  holds : ∀ r ∈ regions, r.Holds place
  grows : regions.Pairwise fun r outer => r.Within outer ∧ r ≠ outer
  file : regions.getLast? = some ⟨⟨0, 0⟩, t.text.toList.count '\n',
    Text.size (String.ofList (Text.lastLine t.text.toList))⟩

/-- The region of the file. -/
theorem region_fileSymbol (t : SourceTree) : t.model.lines.region t.fileSymbol.range
    = ⟨⟨0, 0⟩, t.text.toList.count '\n',
        Text.size (String.ofList (Text.lastLine t.text.toList))⟩ := by
  have hend := LineMap.lineCol_size t.text ""
  rw [String.append_empty] at hend
  show Region.mk ((LineMap.ofText t.text).lineCol 0)
    ((LineMap.ofText t.text).lineCol t.fileSymbol.range.stop) = _
  rw [stop_fileSymbol, LineMap.lineCol_zero, hend]

/-- **The regions of the symbols on the way up from the innermost one grow.** -/
theorem growsAt_ancestors (hwf : t.model.table.WellFormed) {place : LineCol} {offset : Nat}
    (hoffset : t.model.lines.offset? place = some offset) {s : Symbol}
    (hs : t.model.table.get? (t.model.table.symbolAt offset) = some s) :
    t.GrowsAt place ((s :: t.model.table.ancestors (t.model.table.symbolAt offset)).map
      fun x => t.model.lines.region x.range).eraseReps := by
  obtain ⟨hsize, hplace⟩ := LineMap.lineCol_offset? t.text hoffset
  have hnested := pairwise_within hwf hs
  have hinner := touches_symbolAt hwf hsize hs
  refine ⟨?_, ?_, ?_⟩
  · intro r hr
    obtain ⟨x, hx, rfl⟩ := List.mem_map.mp (mem_of_mem_eraseReps hr)
    have htouch : x.range.touches offset = true := by
      rcases List.mem_cons.mp hx with rfl | hx
      · exact hinner
      · exact (List.rel_of_pairwise_cons hnested hx).touches hinner
    rw [← hplace]
    exact LineMap.region_holds t.text htouch
  · refine pairwise_eraseReps (fun _ _ h h' => h.antisymm h') ?_
    rw [List.pairwise_map]
    exact hnested.imp fun h => LineMap.region_within t.text h
  · rw [getLast?_eraseReps, List.getLast?_map, hwf.getLast?_ancestors hs, ← region_fileSymbol]
    rfl

end SourceTree

namespace FileModel

variable {m : FileModel} {place : LineCol}

theorem selection_of_none (h : m.lines.offset? place = none) : m.selection place = .ok [] := by
  simp only [selection, h]
  rfl

theorem selection_of_some {offset : Nat} {s : Symbol} (h : m.lines.offset? place = some offset)
    (hs : m.table.get? (m.table.symbolAt offset) = some s) :
    m.selection place = .ok ((s :: m.table.ancestors (m.table.symbolAt offset)).map
      fun x => m.lines.region x.range).eraseReps := by
  simp only [selection, h, SymbolTable.get_eq_ok hs]
  rfl

end FileModel

/-- **A selection is empty exactly at places outside the text; at any other place it grows strictly,
from region to region, up to the whole file.** -/
theorem Analysis.selection_grows (t : SourceTree) :
    (t.InBounds → ∃ a, Analysis.ofTree t = .ok a) ∧
      ∀ a, Analysis.ofTree t = .ok a → ∀ place, ∃ regions,
        a.model.selection place = .ok regions ∧
        (regions = [] ↔ a.model.lines.offset? place = none) ∧
        (regions ≠ [] → t.GrowsAt place regions) := by
  refine ⟨fun h => ⟨_, Analysis.ofTree_of_inBounds h⟩, ?_⟩
  intro a ha place
  have hwf := wellFormed_table ha
  obtain ⟨-, rfl⟩ := Analysis.ofTree_ok_iff.mp ha
  cases hoffset : t.model.lines.offset? place with
  | none => exact ⟨[], FileModel.selection_of_none hoffset, by simp, by simp⟩
  | some offset =>
      obtain ⟨hway, -⟩ := SourceTree.onTheWay_descend hwf (SymbolTable.upward_true _) offset
      obtain ⟨s, hs⟩ := hway.exists_get?
      have hgrows := SourceTree.growsAt_ancestors hwf hoffset hs
      refine ⟨_, FileModel.selection_of_some hoffset hs, ?_, fun _ => hgrows⟩
      refine ⟨?_, by simp⟩
      intro hnil
      have hfile := hgrows.file
      rw [hnil] at hfile
      simp at hfile

/-- A function that is all there is in its file, with a closure in it. -/
def SourceTree.enclosed : SourceTree :=
  .ofItems ⟨0⟩ {}
    [.node Kind.functionDecl.tag
      [.node Kind.functionHeader.tag [.node Kind.name.tag [.token Kind.ident.tag "f"]],
       .node Kind.block.tag
        [.token Kind.lCurly.tag "\x7b", .token Kind.whitespace.tag "\n",
         .node Kind.inlineClosure.tag
          [.token Kind.closureOpen.tag "(:",
           .node Kind.identExpr.tag [.token Kind.ident.tag "g"],
           .token Kind.closureClose.tag ":)"],
         .token Kind.rCurly.tag "\x7d"]]]

theorem Analysis.selection_grows_enclosed :
    SourceTree.enclosed.InBounds ∧ ∃ a, Analysis.ofTree .enclosed = .ok a ∧
      a.model.selection ⟨1, 7⟩ = .ok [] ∧ ∃ regions,
        a.model.selection ⟨1, 2⟩ = .ok regions ∧ SourceTree.enclosed.GrowsAt ⟨1, 2⟩ regions ∧
        regions = [⟨⟨1, 2⟩, ⟨1, 3⟩⟩, ⟨⟨1, 0⟩, ⟨1, 5⟩⟩, ⟨⟨0, 0⟩, ⟨1, 6⟩⟩] := by
  have hbounds : SourceTree.enclosed.InBounds := ⟨by decide +kernel, by decide +kernel⟩
  have hselected : ((Analysis.ofTree .enclosed).toOption.map fun a =>
      ((a.model.selection ⟨1, 7⟩).toOption, (a.model.selection ⟨1, 2⟩).toOption)) = some
        (some [], some [⟨⟨1, 2⟩, ⟨1, 3⟩⟩, ⟨⟨1, 0⟩, ⟨1, 5⟩⟩, ⟨⟨0, 0⟩, ⟨1, 6⟩⟩]) := by
    decide +kernel
  obtain ⟨hok, hgrows⟩ := selection_grows .enclosed
  obtain ⟨a, ha⟩ := hok hbounds
  obtain ⟨outside, houtside, -⟩ := hgrows a ha ⟨1, 7⟩
  obtain ⟨regions, hregions, -, hgrow⟩ := hgrows a ha ⟨1, 2⟩
  rw [ha] at hselected
  obtain ⟨hnone, hsome⟩ := Prod.mk.inj (Option.some.inj hselected)
  rw [houtside] at hnone
  rw [hregions] at hsome
  obtain rfl : outside = [] := Option.some.inj hnone
  obtain rfl := Option.some.inj hsome
  exact ⟨hbounds, a, ha, houtside, _, hregions, hgrow (by simp), rfl⟩

end LpcSymbols
