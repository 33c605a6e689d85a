/-
Ranges inside ranges.

The children of a placed node lie inside its range, and so does all that is looked up
among them.  Placing is kept by going down (`Node.IsPlaced`), so the parts of a construct
lie inside it however deep they are: the identifier of a function is a token of a name in
a header, and each of the three steps goes down one level.

The name of a symbol is such a part, or a piece of one.  Its range is known from the node
alone (`Node.nameRange?`).
-/
import LpcSymbols.Proofs.Drafts
import LpcSymbols.Proofs.Moving
import LpcSymbols.Proofs.Scoping

namespace LpcSymbols

/-- The range does not end before it starts, and it lies inside the other one. -/
structure TextRange.Within (r outer : TextRange) : Prop where
  start_le : outer.start ≤ r.start
  le : r.start ≤ r.stop
  stop_le : r.stop ≤ outer.stop

theorem TextRange.Within.refl {r : TextRange} (h : r.start ≤ r.stop) : r.Within r :=
  ⟨Nat.le_refl _, h, Nat.le_refl _⟩

theorem TextRange.Within.trans {r s u : TextRange} (hrs : r.Within s) (hsu : s.Within u) :
    r.Within u :=
  ⟨Nat.le_trans hsu.start_le hrs.start_le, hrs.le, Nat.le_trans hrs.stop_le hsu.stop_le⟩

theorem TextRange.ofLength_within {start length a b : Nat} (ha : start ≤ a)
    (hb : a + b ≤ start + length) : (ofLength a b).Within (ofLength start length) :=
  ⟨ha, Nat.le_add_right a b, hb⟩

/-! ### The children of a placed node -/

namespace Element

theorem range_place (start before : Nat) (e : Element) :
    (e.place start before).range = .ofLength start e.size := by
  cases e with
  | token tag text => rfl
  | node tag children => rfl

/-- Every element of a placed row is placed inside the row. -/
theorem mem_placeAll {p : Placed} : ∀ (es : List Element) (start before : Nat),
    p ∈ placeAll start before es → ∃ e a b, p = place a b e ∧ start ≤ a ∧
      a + e.size ≤ start + sizeAll es := by
  intro es
  induction es with
  | nil =>
      intro start before hp
      simp [placeAll] at hp
  | cons e es ih =>
      intro start before hp
      rw [sizeAll]
      rcases List.mem_cons.mp hp with rfl | hp
      · exact ⟨e, start, before, rfl, Nat.le_refl _, by omega⟩
      · obtain ⟨x, a, b, hx, hstart, hstop⟩ := ih _ _ hp
        exact ⟨x, a, b, hx, by omega, by omega⟩

end Element

/-- The node and all that is below it have been placed. -/
def Node.IsPlaced (n : Node) : Prop :=
  ∃ tag start before children, n = ⟨.ofTag tag, .ofLength start (Element.sizeAll children), before,
    Element.placeAll start before children⟩

namespace Node.IsPlaced

variable {n m : Node}

theorem mem_children (h : n.IsPlaced) {p : Placed} (hp : p ∈ n.children) :
    ∃ e a b, p = Element.place a b e ∧ p.range.Within n.range := by
  obtain ⟨tag, start, before, children, rfl⟩ := h
  obtain ⟨e, a, b, rfl, hstart, hstop⟩ := Element.mem_placeAll children start before hp
  refine ⟨e, a, b, rfl, ?_⟩
  rw [Element.range_place]
  exact TextRange.ofLength_within hstart hstop

theorem childNode (h : n.IsPlaced) (hm : m ∈ n.childNodes) :
    m.IsPlaced ∧ m.range.Within n.range := by
  obtain ⟨p, hp, hpm⟩ := List.mem_filterMap.mp hm
  obtain ⟨e, a, b, rfl, hwithin⟩ := h.mem_children hp
  cases e with
  | token tag text => simp [Element.place, Placed.node?] at hpm
  | node tag children =>
      obtain rfl := Option.some.inj hpm
      exact ⟨⟨tag, a, b, children, rfl⟩, hwithin⟩

theorem childToken (h : n.IsPlaced) {tok : Token} (htok : tok ∈ n.childTokens) :
    tok.range.Within n.range := by
  obtain ⟨p, hp, hptok⟩ := List.mem_filterMap.mp htok
  obtain ⟨-, -, -, -, hwithin⟩ := h.mem_children hp
  cases p with
  | node kind range before children => simp [Placed.token?] at hptok
  | token t =>
      obtain rfl := Option.some.inj hptok
      exact hwithin

theorem child? (h : n.IsPlaced) {kind : Kind} (hm : n.child? kind = some m) :
    m.IsPlaced ∧ m.range.Within n.range :=
  h.childNode (List.mem_of_find?_eq_some hm)

theorem token? (h : n.IsPlaced) {kind : Kind} {tok : Token} (htok : n.token? kind = some tok) :
    tok.range.Within n.range :=
  h.childToken (List.mem_of_find?_eq_some htok)

theorem nameIdent? (h : n.IsPlaced) {tok : Token} (htok : n.nameIdent? = some tok) :
    tok.range.Within n.range := by
  obtain ⟨name, hname, hident⟩ := Option.bind_eq_some_iff.mp htok
  obtain ⟨hplaced, hwithin⟩ := h.child? hname
  exact (hplaced.token? hident).trans hwithin

theorem functionIdent? (h : n.IsPlaced) {tok : Token} (htok : n.functionIdent? = some tok) :
    tok.range.Within n.range := by
  obtain ⟨header, hheader, hident⟩ := Option.bind_eq_some_iff.mp htok
  obtain ⟨hplaced, hwithin⟩ := h.child? hheader
  exact (hplaced.nameIdent? hident).trans hwithin

end Node.IsPlaced

namespace Element

mutual

theorem isPlaced_nodes (start before : Nat) (around : List Node) :
    ∀ (e : Element) (s : Node × List Node), s ∈ (e.place start before).nodes around → s.1.IsPlaced
  | .token _ _, s, hs => by simp [place, Placed.nodes] at hs
  | .node tag children, s, hs => by
    simp only [place, Placed.nodes, List.mem_cons] at hs
    rcases hs with rfl | hs
    · exact ⟨tag, start, before, children, rfl⟩
    · exact isPlaced_nodesAll start before _ children s hs

/-- Every node below a placed row is placed. -/
theorem isPlaced_nodesAll (start before : Nat) (around : List Node) :
    ∀ (es : List Element) (s : Node × List Node),
      s ∈ Placed.nodesAll around (placeAll start before es) → s.1.IsPlaced
  | [], s, hs => by simp [placeAll, Placed.nodesAll] at hs
  | e :: es, s, hs => by
    simp only [placeAll, Placed.nodesAll, List.mem_append] at hs
    rcases hs with hs | hs
    · exact isPlaced_nodes start before around e s hs
    · exact isPlaced_nodesAll _ _ around es s hs

end

end Element

/-! ### The name of a construct -/

namespace Text

/-- The blank at which a text is cut belongs to neither part. -/
theorem size_atBlank? {s head rest : String} (h : atBlank? s = some (head, rest)) :
    size head + 1 + size rest ≤ size s := by
  unfold atBlank? at h
  split at h
  · simp at h
  · rename_i c cs hdrop
    obtain ⟨rfl, rfl⟩ := Prod.mk.inj (Option.some.inj h)
    have hpos := c.utf8Size_pos
    have hsplit : s.toList = s.toList.takeWhile (· != ' ') ++ c :: cs := by
      rw [← hdrop, List.takeWhile_append_dropWhile]
    have hsize : size s = size (String.ofList (s.toList.takeWhile (· != ' ')))
        + (c.utf8Size + size (String.ofList cs)) := by
      rw [← size_ofList_cons, ← size_ofList_append, ← hsplit, String.ofList_toList]
    omega

theorem size_leadingName_le (s : String) : size (leadingName s) ≤ size s := by
  have hsplit : s.toList = s.toList.takeWhile (!endsName ·) ++ s.toList.dropWhile (!endsName ·) :=
    List.takeWhile_append_dropWhile.symm
  have hsize : size s = size (leadingName s)
      + size (String.ofList (s.toList.dropWhile (!endsName ·))) := by
    rw [leadingName, ← size_ofList_append, ← hsplit, String.ofList_toList]
  omega

end Text

namespace Node

/-- The name of a macro is a piece of the line that defines it. -/
theorem macroNameRange?_within {line : Token} {r : TextRange} (h : macroNameRange? line = some r) :
    r.Within line.range := by
  obtain ⟨⟨head, rest⟩, hcut, h⟩ := Option.bind_eq_some_iff.mp h
  have hsize := Text.size_atBlank? hcut
  have hname := Text.size_leadingName_le rest
  simp only [Option.ite_none_left_eq_some, Option.some.injEq] at h
  obtain ⟨-, rfl⟩ := h
  exact TextRange.ofLength_within (by omega) (by omega)

/-- Where the name of a symbol stands that is built from the node. -/
def nameRange? (n : Node) : Option TextRange :=
  match n.kind with
  | .defineDirective => n.defineLine?.bind macroNameRange?
  | .includeDirective => n.includeTarget?.map (·.range)
  | .inheritStatement => n.inheritTarget?.map (·.range)
  | .functionDecl => n.functionIdent?.map (·.range)
  | .param | .variableDeclarator => n.nameIdent?.map (·.range)
  | .identExpr => n.ident?.map (·.range)
  | _ => none

/-- **The name of a construct lies inside the construct.** -/
theorem IsPlaced.nameRange?_within {n : Node} (h : n.IsPlaced) {r : TextRange}
    (hr : n.nameRange? = some r) : r.Within n.range := by
  unfold nameRange? at hr
  split at hr
  · obtain ⟨line, hline, hname⟩ := Option.bind_eq_some_iff.mp hr
    exact (macroNameRange?_within hname).trans (h.token? hline)
  · obtain ⟨target, htarget, rfl⟩ := Option.map_eq_some_iff.mp hr
    exact h.childToken (List.mem_of_find?_eq_some htarget)
  · obtain ⟨target, htarget, rfl⟩ := Option.map_eq_some_iff.mp hr
    exact (h.child? htarget).2
  · obtain ⟨ident, hident, rfl⟩ := Option.map_eq_some_iff.mp hr
    exact h.functionIdent? hident
  · obtain ⟨ident, hident, rfl⟩ := Option.map_eq_some_iff.mp hr
    exact h.nameIdent? hident
  · obtain ⟨ident, hident, rfl⟩ := Option.map_eq_some_iff.mp hr
    exact h.nameIdent? hident
  · obtain ⟨ident, hident, rfl⟩ := Option.map_eq_some_iff.mp hr
    exact h.token? hident
  · simp at hr

end Node

/-- The range of a draft's name is known from the node. -/
theorem Site.Reads.nameRange {l : Layout} {count : Nat} {s : Site} {d : Draft}
    (h : s.Reads l count d) : d.nameRange = s.1.nameRange? := by
  cases h with
  | clause kind houter hspan =>
      rcases Kind.isClause_of_branch? kind with hk | hk | hk <;> simp [Node.nameRange?, hk]
  | define kind part hspan => simp [Node.nameRange?, kind]
  | directive kind part hspan => simp [Node.nameRange?, kind]
  | includeFile kind part hspan => simp [Node.nameRange?, kind, part]
  | inheritFile kind part htext hspan => simp [Node.nameRange?, kind, part]
  | function kind part hspan => simp [Node.nameRange?, kind, part]
  | parameter kind part hspan => simp [Node.nameRange?, kind, part]
  | declarator kind htype part hspan => simp [Node.nameRange?, kind, part]
  | ifStatement kind hspan => simp [Node.nameRange?, kind]
  | closure kind hspan => simp [Node.nameRange?, kind]
  | primary kind hspan => simp [Node.nameRange?, kind]
  | identifier kind part hspan => simp [Node.nameRange?, kind, part]

/-! ### The symbols of a file -/

namespace SourceTree

variable {t : SourceTree}

theorem isPlaced_nodes (t : SourceTree) {s : Site} (hs : s ∈ t.node.nodes) : s.1.IsPlaced :=
  Element.isPlaced_nodes 0 0 [] t.root s hs

/-- Every node lies inside the text. -/
theorem range_within (t : SourceTree) {s : Site} (hs : s ∈ t.node.nodes) :
    s.1.range.Within t.node.range := by
  obtain ⟨left, right, -, -, hleft, hown, hright⟩ := t.standsIn_nodes hs
  refine ⟨hleft.le, hown.le, ?_⟩
  show s.1.range.stop ≤ 0 + t.size
  rw [Nat.zero_add]
  exact hright.le

/-- **Every symbol lies inside the text, and its name inside the symbol.** -/
theorem symbol_within {s : Symbol} (hs : s ∈ t.model.table.toList) :
    s.range.Within t.node.range ∧ ∀ r, s.nameRange = some r → r.Within s.range := by
  rw [toList_model] at hs
  rcases List.mem_cons.mp hs with rfl | hs
  · have hfile : t.fileSymbol.nameRange = none := rfl
    refine ⟨⟨Nat.le_refl _, Nat.le_add_right .., Nat.le_refl _⟩, ?_⟩
    intro r hr
    rw [hfile] at hr
    simp at hr
  · obtain ⟨e, he, rfl⟩ := List.mem_map.mp hs
    obtain ⟨count, hreads⟩ := reads_of_entry he
    rw [range_of_entry he]
    refine ⟨t.range_within (site_mem_nodes he), ?_⟩
    intro r hr
    have hname : e.site.1.nameRange? = some r := hreads.nameRange.symm.trans hr
    exact (t.isPlaced_nodes (site_mem_nodes he)).nameRange?_within hname

end SourceTree

end LpcSymbols
