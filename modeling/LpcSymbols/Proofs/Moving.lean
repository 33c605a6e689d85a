/-
Text that is moved.

Items keep their shape when other items are put in front of them or behind them; only
their places change.  How far they move is the extent of what comes before: its bytes,
its tokens, its line breaks and the length of its last line.  The last of these counts
for the first line only, since that one goes on where the text before it stopped.

Offsets, lines, columns and token numbers are all counted over the whole file.  Here
it is shown of each of them that nothing but the extent enters: text behind an offset
does not change its line, text in front of it moves it (`lineCol_append_left`), and so
the position of a token moves by the extent (`position_moved`).
-/
import LpcSymbols.Proofs.Spans
import LpcSymbols.Proofs.Twin
import Mathlib.Data.List.DropRight
import Mathlib.Data.List.TakeWhile

namespace LpcSymbols

/-! ### Extents -/

/-- How far text moves what comes behind it. -/
structure Extent where
  bytes : Nat
  tokens : Nat
  lines : Nat
  columns : Nat
deriving DecidableEq

/-- What comes behind the last newline. -/
def Text.lastLine (cs : List Char) : List Char := cs.rtakeWhile (· != '\n')

/-- The extent of a source text. -/
def SourceTree.extent (t : SourceTree) : Extent where
  bytes := t.size
  tokens := t.node.tokens.length
  lines := t.text.toList.count '\n'
  columns := Text.size (String.ofList (Text.lastLine t.text.toList))

def TextRange.shift (k : Nat) (r : TextRange) : TextRange := ⟨r.start + k, r.stop + k⟩

def LineCol.shift (lines columns : Nat) (p : LineCol) : LineCol :=
  ⟨p.line + lines, if p.line = 0 then p.col + columns else p.col⟩

def TokenPos.shift (e : Extent) (p : TokenPos) : TokenPos :=
  ⟨p.line + e.lines, if p.line = 1 then p.column + e.columns else p.column, p.index + e.tokens⟩

def Span.shift (e : Extent) (s : Span) : Span := ⟨s.start.shift e, s.stop.shift e⟩

/-! ### Line starts -/

namespace LineMap

theorem startsAfter_add (offset k : Nat) (cs : List Char) :
    startsAfter (offset + k) cs = (startsAfter offset cs).map (· + k) := by
  induction cs generalizing offset with
  | nil => rfl
  | cons c cs ih =>
      have hnext : offset + k + c.utf8Size = offset + c.utf8Size + k := by omega
      simp only [startsAfter, hnext, ih]
      split
      · rw [List.map_cons]
      · rfl

theorem startsAfter_append (offset : Nat) (as bs : List Char) :
    startsAfter offset (as ++ bs)
      = startsAfter offset as ++ startsAfter (offset + Text.size (String.ofList as)) bs := by
  induction as generalizing offset with
  | nil => rfl
  | cons a as ih =>
      simp only [List.cons_append, startsAfter, ih, Text.size_ofList_cons, ← Nat.add_assoc]
      split
      · rw [List.cons_append]
      · rfl

/-- A line starts behind its newline and not behind the text. -/
theorem startsAfter_bounds {offset start : Nat} {cs : List Char}
    (h : start ∈ startsAfter offset cs) :
    offset < start ∧ start ≤ offset + Text.size (String.ofList cs) := by
  induction cs generalizing offset with
  | nil => simp [startsAfter] at h
  | cons c cs ih =>
      have hpos := c.utf8Size_pos
      rw [Text.size_ofList_cons]
      have hrest : start ∈ startsAfter (offset + c.utf8Size) cs →
          offset < start ∧ start ≤ offset + (c.utf8Size + Text.size (String.ofList cs)) := by
        intro hmem
        obtain ⟨hlo, hhi⟩ := ih hmem
        omega
      simp only [startsAfter] at h
      split at h
      · rcases List.mem_cons.mp h with rfl | hmem
        · omega
        · exact hrest hmem
      · exact hrest h

theorem length_startsAfter (offset : Nat) (cs : List Char) :
    (startsAfter offset cs).length = cs.count '\n' := by
  induction cs generalizing offset with
  | nil => rfl
  | cons c cs ih =>
      simp only [startsAfter, List.count_cons, beq_iff_eq]
      split
      · rw [List.length_cons, ih]
      · rw [ih, Nat.add_zero]

end LineMap

theorem Text.size_ofList_append (as bs : List Char) :
    size (String.ofList (as ++ bs)) = size (String.ofList as) + size (String.ofList bs) := by
  rw [String.ofList_append, size_append]

/-- The last line of a text reaches from the last line start to the end. -/
theorem LineMap.last_start (cs : List Char) :
    (0 :: startsAfter 0 cs)[cs.count '\n']?.getD 0 + Text.size (String.ofList (Text.lastLine cs))
      = Text.size (String.ofList cs) := by
  -- The last line is found from the end of the text, so the induction is from there too.
  induction cs using List.reverseRecOn with
  | nil => rfl
  | append_singleton cs c ih =>
      rw [Text.lastLine, List.rtakeWhile_concat, startsAfter_append, Text.size_ofList_append,
        List.count_append, ← List.cons_append]
      have hlen : (0 :: startsAfter 0 cs).length = cs.count '\n' + 1 := by
        rw [List.length_cons, length_startsAfter]
      by_cases hc : c = '\n'
      · subst hc
        have hcount : cs.count '\n' + ['\n'].count '\n' = (0 :: startsAfter 0 cs).length := hlen.symm
        rw [hcount, List.getElem?_append_right (Nat.le_refl _), Nat.sub_self]
        simp only [startsAfter, if_true, List.getElem?_cons_zero, Option.getD_some, Nat.zero_add]
        rfl
      · have hcount : [c].count '\n' = 0 := by simp [hc]
        have hkept : (c != '\n') = true := by simpa using hc
        rw [hcount, Nat.add_zero, if_pos hkept, List.getElem?_append_left (by omega),
          Text.size_ofList_append, ← Text.lastLine]
        omega

/-! ### Lines of moved text -/

theorem takeWhile_map_add {p q : Nat → Bool} {k : Nat} (h : ∀ n, p (n + k) = q n) (ns : List Nat) :
    (ns.map (· + k)).takeWhile p = (ns.takeWhile q).map (· + k) := by
  rw [List.takeWhile_map]
  congr 2
  funext n
  exact h n

theorem takeWhile_append_of_none {p : Nat → Bool} (ns : List Nat) {ms : List Nat}
    (h : ∀ m ∈ ms, p m = false) : (ns ++ ms).takeWhile p = ns.takeWhile p := by
  induction ns with
  | nil =>
      cases ms with
      | nil => rfl
      | cons m ms => simp [h m List.mem_cons_self]
  | cons n ns ih => rw [List.cons_append, List.takeWhile_cons, List.takeWhile_cons, ih]

/-- A weaker test takes no less. -/
theorem length_takeWhile_mono {p q : Nat → Bool} (h : ∀ n, p n = true → q n = true) (ns : List Nat) :
    (ns.takeWhile p).length ≤ (ns.takeWhile q).length := by
  induction ns with
  | nil => exact Nat.le_refl _
  | cons n ns ih =>
      by_cases hp : p n = true
      · rw [List.takeWhile_cons_of_pos hp, List.takeWhile_cons_of_pos (h n hp)]
        exact Nat.succ_le_succ ih
      · rw [List.takeWhile_cons_of_neg hp]
        exact Nat.zero_le _

namespace LineMap

theorem length_starts (u : String) : (ofText u).starts.length = u.toList.count '\n' + 1 := by
  rw [← length_startsAfter 0]
  rfl

theorem starts_append (u v : String) :
    (ofText (u ++ v)).starts
      = (ofText u).starts ++ (startsAfter 0 v.toList).map (· + Text.size u) := by
  have hsize : Text.size (String.ofList u.toList) = Text.size u := by rw [String.ofList_toList]
  simp only [ofText, String.toList_append, startsAfter_append, hsize, startsAfter_add,
    List.cons_append]

/-- **Text behind an offset does not change its line and column.** -/
theorem lineCol_append_right (v w : String) {offset : Nat} (h : offset ≤ Text.size v) :
    (ofText (v ++ w)).lineCol offset = (ofText v).lineCol offset := by
  have htake : (ofText (v ++ w)).starts.takeWhile (· ≤ offset)
      = (ofText v).starts.takeWhile (· ≤ offset) := by
    rw [starts_append]
    refine takeWhile_append_of_none _ ?_
    intro n hn
    obtain ⟨m, hm, rfl⟩ := List.mem_map.mp hn
    have hpos := (startsAfter_bounds hm).1
    simp only [decide_eq_false_iff_not]
    omega
  -- The line is one of those of the first text, the first one at least.
  have hline : ((ofText v).starts.takeWhile (· ≤ offset)).length - 1 < (ofText v).starts.length := by
    have hle := (List.takeWhile_prefix (· ≤ offset) (l := (ofText v).starts)).length_le
    have hpos : 0 < (ofText v).starts.length := Nat.succ_pos _
    omega
  unfold lineCol
  simp only [htake]
  rw [starts_append, List.getElem?_append_left hline]

/-- The first line of the second text starts where the last line of the first one does. -/
theorem start_first_line (u v : String) :
    (ofText (u ++ v)).starts[u.toList.count '\n']?.getD 0
        + Text.size (String.ofList (Text.lastLine u.toList)) = Text.size u := by
  have hlast := last_start u.toList
  rw [String.ofList_toList] at hlast
  have hlen := length_starts u
  rw [starts_append, List.getElem?_append_left (by omega)]
  exact hlast

/-- The other lines of the second text are moved by the bytes of the first one. -/
theorem start_later_line (u v : String) (i : Nat) :
    (ofText (u ++ v)).starts[i + 1 + u.toList.count '\n']?
      = (startsAfter 0 v.toList)[i]?.map (· + Text.size u) := by
  have hlen := length_starts u
  have hpast : i + 1 + u.toList.count '\n' - (ofText u).starts.length = i := by omega
  rw [starts_append, List.getElem?_append_right (by omega), hpast, List.getElem?_map]

/-- Up to an offset behind the first text, there are all its lines, and those of the second. -/
theorem length_takeWhile_append (u v : String) (offset : Nat) :
    ((ofText (u ++ v)).starts.takeWhile (· ≤ offset + Text.size u)).length - 1
      = ((startsAfter 0 v.toList).takeWhile (· ≤ offset)).length + u.toList.count '\n' := by
  have hbefore : ∀ n ∈ (ofText u).starts, decide (n ≤ offset + Text.size u) = true := by
    intro n hn
    rw [decide_eq_true_eq]
    rcases List.mem_cons.mp hn with rfl | hn
    · exact Nat.zero_le _
    · have hle := (startsAfter_bounds hn).2
      rw [String.ofList_toList] at hle
      omega
  have hlen := length_starts u
  rw [starts_append, List.takeWhile_append_of_pos hbefore,
    takeWhile_map_add (q := (· ≤ offset)) (fun n => by simp), List.length_append, List.length_map,
    hlen]
  omega

/-- **Text in front of an offset moves it by its lines, and on the first line by the length of
its last line.** -/
theorem lineCol_append_left (u v : String) (offset : Nat) :
    (ofText (u ++ v)).lineCol (offset + Text.size u)
      = ((ofText v).lineCol offset).shift (u.toList.count '\n')
          (Text.size (String.ofList (Text.lastLine u.toList))) := by
  have hown : (ofText v).starts.takeWhile (· ≤ offset)
      = 0 :: (startsAfter 0 v.toList).takeWhile (· ≤ offset) := by
    simp [ofText]
  have hle := (List.takeWhile_prefix (· ≤ offset) (l := startsAfter 0 v.toList)).length_le
  unfold lineCol LineCol.shift
  simp only [length_takeWhile_append, hown, List.length_cons, Nat.add_sub_cancel]
  generalize ((startsAfter 0 v.toList).takeWhile (· ≤ offset)).length = line at hle
  refine congrArg (LineCol.mk _) ?_
  cases line with
  | zero =>
      have hstart := start_first_line u v
      have hzero : (ofText v).starts[0]?.getD 0 = 0 := rfl
      rw [Nat.zero_add, if_pos rfl, hzero]
      omega
  | succ i =>
      have hstart : (startsAfter 0 v.toList)[i]? = some (startsAfter 0 v.toList)[i] :=
        List.getElem?_eq_getElem hle
      have hsame : (ofText v).starts[i + 1]? = (startsAfter 0 v.toList)[i]? := rfl
      rw [start_later_line, hsame, hstart, if_neg (Nat.succ_ne_zero i), Option.map_some,
        Option.getD_some, Option.getD_some]
      omega

end LineMap

/-! ### Leaves of moved text -/

def Token.shift (k : Nat) (t : Token) : Token := { t with start := t.start + k }

def Leaf.shift (k : Nat) : Leaf → Leaf
  | .token t => .token (t.shift k)
  | .childless => .childless

theorem Token.range_shift (k : Nat) (t : Token) : (t.shift k).range = t.range.shift k := by
  simp only [Token.range, Token.shift, TextRange.ofLength, TextRange.shift, TextRange.mk.injEq,
    true_and]
  omega

theorem Leaf.token?_shift (k : Nat) (leaf : Leaf) :
    (leaf.shift k).token? = leaf.token?.map (Token.shift k) := by
  cases leaf <;> rfl

theorem Leaf.firstSignificant?_shift (k : Nat) (leaves : List Leaf) :
    firstSignificant? (leaves.map (Leaf.shift k))
      = (firstSignificant? leaves).map (Token.shift k) := by
  induction leaves with
  | nil => rfl
  | cons leaf leaves ih =>
      cases leaf with
      | childless => rfl
      | token t =>
          have hsame : (t.shift k).isSignificant = t.isSignificant := rfl
          rw [List.map_cons, Leaf.shift, firstSignificant?, firstSignificant?, hsame, ih]
          split <;> rfl

theorem Leaf.mem_of_firstSignificant? {leaves : List Leaf} {t : Token}
    (h : firstSignificant? leaves = some t) : .token t ∈ leaves := by
  induction leaves with
  | nil => simp [firstSignificant?] at h
  | cons leaf leaves ih =>
      cases leaf with
      | childless => simp [firstSignificant?] at h
      | token u =>
          rw [firstSignificant?] at h
          split at h
          · rw [Option.some.inj h]
            exact List.mem_cons_self
          · exact List.mem_cons_of_mem _ (ih h)

namespace Element

theorem ofLength_shift (start k length : Nat) :
    TextRange.ofLength (start + k) length = (TextRange.ofLength start length).shift k := by
  simp only [TextRange.ofLength, TextRange.shift, TextRange.mk.injEq, true_and]
  omega

mutual

theorem leaves_place_add (start before before' k : Nat) : ∀ e : Element,
    (e.place (start + k) before').leaves = (e.place start before).leaves.map (Leaf.shift k)
  | .token _ _ => rfl
  | .node tag [] => rfl
  | .node tag (e :: es) => by
    rw [place, place, placeAll, placeAll, Placed.leaves, Placed.leaves, List.map_append,
      Nat.add_right_comm, leaves_place_add start before before' k e,
      leaves_placeAll_add (start + e.size) _ _ k es]

/-- The leaves of a row that is placed `k` bytes further back. -/
theorem leaves_placeAll_add (start before before' k : Nat) : ∀ es : List Element,
    Placed.leavesAll (placeAll (start + k) before' es)
      = (Placed.leavesAll (placeAll start before es)).map (Leaf.shift k)
  | [] => rfl
  | e :: es => by
    rw [placeAll, placeAll, Placed.leavesAll, Placed.leavesAll, List.map_append,
      Nat.add_right_comm, leaves_place_add start before before' k e,
      leaves_placeAll_add (start + e.size) _ _ k es]

end

end Element

/-- The second node is the first, `k` bytes further back. -/
structure Node.Moved (k : Nat) (n m : Node) : Prop where
  range : m.range = n.range.shift k
  leaves : m.leaves = n.leaves.map (Leaf.shift k)

/-- A row that is placed further back has the same shape. -/
theorem Element.twins_moved (k : Nat) : ∀ (es : List Element) (start before before' : Nat),
    Placed.Twins (fun r r' => r' = r.shift k) (Node.Moved k) (placeAll start before es)
      (placeAll (start + k) before' es)
  | [], _, _, _ => .nil
  | .token tag text :: es, start, before, before' => by
    have hrest := twins_moved k es (start + Text.size text) (before + 1) (before' + 1)
    rw [placeAll, placeAll, Nat.add_right_comm]
    exact .token ⟨rfl, rfl, Token.range_shift k ⟨.ofTag tag, text, start⟩⟩ hrest
  | .node tag cs :: es, start, before, before' => by
    have hrest := twins_moved k es (start + (Element.node tag cs).size)
      (before + (Element.node tag cs).leafCount) (before' + (Element.node tag cs).leafCount)
    have hleaves := leaves_place_add start before before' k (.node tag cs)
    rw [placeAll, placeAll, Nat.add_right_comm]
    exact .node ⟨ofLength_shift start k _, hleaves⟩ (twins_moved k cs start before before') hrest

/-! ### Positions of moved text -/

theorem TokenStarts.before_between (as bs cs : List Nat) {offset k : Nat}
    (has : ∀ a ∈ as, a < offset + k) (hcs : ∀ c ∈ cs, offset + k ≤ c) :
    before ⟨as ++ (bs.map (· + k) ++ cs)⟩ (offset + k) = before ⟨bs⟩ offset + as.length := by
  unfold before
  rw [List.takeWhile_append_of_pos (by simpa using has), takeWhile_append_of_none _ (by simpa using hcs),
    takeWhile_map_add (q := (· < offset)) (fun n => by simp), List.length_append, List.length_map,
    Nat.add_comm]

/-- The tokens before an offset are among those before a later one. -/
theorem TokenStarts.before_mono (s : TokenStarts) {a b : Nat} (h : a ≤ b) :
    s.before a ≤ s.before b := by
  refine length_takeWhile_mono ?_ s.starts
  intro n hn
  simp only [decide_eq_true_eq] at hn ⊢
  exact Nat.lt_of_lt_of_le hn h

/-- A span is made of the positions of the first and the last significant token. -/
theorem Layout.span?_eq (l : Layout) (n : Node) :
    l.span? n = ((l.first? n).map l.position).bind fun start =>
      ((l.last? n).map l.position).map (Span.mk start) := by
  unfold Layout.span?
  cases l.first? n <;> cases l.last? n <;> rfl

theorem Element.textAll_append (xs ys : List Element) :
    textAll (xs ++ ys) = textAll xs ++ textAll ys := by
  induction xs with
  | nil => rw [List.nil_append, textAll, String.empty_append]
  | cons x xs ih => rw [List.cons_append, textAll, textAll, ih, String.append_assoc]

theorem Placed.tokensAll_append (ps qs : List Placed) :
    tokensAll (ps ++ qs) = tokensAll ps ++ tokensAll qs := by
  rw [tokensAll, leavesAll_append, List.filterMap_append]
  rfl

theorem Element.tokensAll_placeAll_add (start before before' k : Nat) (es : List Element) :
    Placed.tokensAll (placeAll (start + k) before' es)
      = (Placed.tokensAll (placeAll start before es)).map (Token.shift k) := by
  rw [Placed.tokensAll, leaves_placeAll_add start before before' k, List.filterMap_map,
    Placed.tokensAll, List.map_filterMap]
  congr 1
  funext leaf
  exact leaf.token?_shift k

namespace SourceTree

/-- The items of `t` are among those of `w`, right behind the items of `p`. -/
def Follows (p t w : SourceTree) : Prop :=
  ∃ behind, w.children = p.children ++ (t.children ++ behind)

variable {p t w : SourceTree}

theorem tokens_node (t : SourceTree) :
    t.node.tokens = Placed.tokensAll (Element.placeAll 0 0 t.children) :=
  Placed.tokens_node _ _ _ _

theorem token_bounds (t : SourceTree) {tok : Token} (h : tok ∈ t.node.tokens) :
    tok.range.stop ≤ t.size :=
  (t.covers_leaves.token_bounds (Leaf.mem_tokens.mp h)).2

namespace Follows

theorem text (h : p.Follows t w) : ∃ behind, w.text = p.text ++ (t.text ++ behind) := by
  obtain ⟨behind, hw⟩ := h
  refine ⟨Element.textAll behind, ?_⟩
  show Element.textAll w.children = _
  rw [hw, Element.textAll_append, Element.textAll_append]
  rfl

/-- The tokens of `w` are those of `p`, those of `t` moved behind them, and others behind. -/
theorem tokens (h : p.Follows t w) :
    ∃ behind, w.node.tokens = p.node.tokens ++ (t.node.tokens.map (Token.shift p.size) ++ behind) ∧
      ∀ tok ∈ behind, t.size + p.size ≤ tok.start := by
  obtain ⟨behind, hw⟩ := h
  have hsizes : ∀ u : SourceTree, Element.sizeAll u.children = u.size := fun _ => rfl
  refine ⟨Placed.tokensAll (Element.placeAll (p.size + t.size)
    (Element.leafCountAll p.children + Element.leafCountAll t.children) behind), ?_, ?_⟩
  · rw [tokens_node, tokens_node, tokens_node, hw, Element.placeAll_append,
      Element.placeAll_append, Placed.tokensAll_append, Placed.tokensAll_append,
      Element.tokensAll_placeAll_add 0 0, hsizes, hsizes, Nat.zero_add, Nat.zero_add]
  · intro tok htok
    have hlo := ((Element.covers_placeAll _ _ behind).token_bounds (Leaf.mem_tokens.mp htok)).1
    omega

theorem allText (h : p.Follows t w) (hw : w.AllText) : p.AllText ∧ t.AllText := by
  obtain ⟨behind, htokens, -⟩ := h.tokens
  unfold AllText at hw ⊢
  rw [htokens] at hw
  refine ⟨?_, ?_⟩
  · intro tok htok
    exact hw tok (List.mem_append_left _ htok)
  · intro tok htok
    exact hw (tok.shift p.size)
      (List.mem_append_right _ (List.mem_append_left _ (List.mem_map_of_mem htok)))

theorem wellNumbered (h : p.Follows t w) (hw : w.WellNumbered) : t.WellNumbered where
  text := (h.allText hw.text).2
  count := by
    obtain ⟨behind, htokens, -⟩ := h.tokens
    have hcount := hw.count
    rw [htokens, List.length_append, List.length_append, List.length_map] at hcount
    omega

/-- **A token moves by the extent of what comes before it.** -/
theorem position_moved (h : p.Follows t w) (hw : w.WellNumbered) {tok : Token}
    (htok : tok ∈ t.node.tokens) :
    w.layout.position (tok.shift p.size) = (t.layout.position tok).shift p.extent := by
  have hstop := t.token_bounds htok
  have hle : tok.start ≤ Text.size t.text := by
    rw [t.size_text]
    exact Nat.le_trans (Nat.le_add_right _ _) hstop
  have hplace : w.layout.lines.lineCol (tok.start + p.size)
      = (t.layout.lines.lineCol tok.start).shift p.extent.lines p.extent.columns := by
    obtain ⟨behind, htext⟩ := h.text
    show (LineMap.ofText w.text).lineCol _ = _
    rw [htext, ← p.size_text, LineMap.lineCol_append_left, LineMap.lineCol_append_right _ _ hle]
    rfl
  have hrank : w.layout.tokens.rank (tok.start + p.size)
      = t.layout.tokens.rank tok.start + p.extent.tokens := by
    obtain ⟨behind, htokens, hbehind⟩ := h.tokens
    have hstarts : w.node.tokens.map (·.start) = p.node.tokens.map (·.start)
        ++ ((t.node.tokens.map (·.start)).map (· + p.size) ++ behind.map (·.start)) := by
      rw [htokens, List.map_append, List.map_append, List.map_map, List.map_map]
      rfl
    rw [hw.rank_eq, (h.wellNumbered hw).rank_eq]
    show TokenStarts.before ⟨w.node.tokens.map (·.start)⟩ _ = _
    rw [hstarts, TokenStarts.before_between]
    · rw [List.length_map]
      rfl
    · intro a ha
      obtain ⟨u, hu, rfl⟩ := List.mem_map.mp ha
      have hpos := Text.size_pos ((h.allText hw.text).1 u hu)
      have hustop : u.start + Text.size u.text ≤ p.size := p.token_bounds hu
      omega
    · intro c hc
      obtain ⟨u, hu, rfl⟩ := List.mem_map.mp hc
      have hfar := hbehind u hu
      rw [t.size_text] at hle
      omega
  unfold Layout.position
  simp only [Token.shift, hplace, hrank, LineCol.shift, TokenPos.shift, TokenPos.mk.injEq, and_true,
    Nat.add_eq_right]
  omega

/-- The position of the first significant token among leaves that are moved. -/
theorem firstPosition_moved (h : p.Follows t w) (hw : w.WellNumbered) {leaves : List Leaf}
    (hown : ∀ tok, .token tok ∈ leaves → tok ∈ t.node.tokens) :
    (Leaf.firstSignificant? (leaves.map (Leaf.shift p.size))).map w.layout.position
      = ((Leaf.firstSignificant? leaves).map t.layout.position).map (TokenPos.shift p.extent) := by
  rw [Leaf.firstSignificant?_shift]
  cases hfirst : Leaf.firstSignificant? leaves with
  | none => rfl
  | some tok =>
      have htok := hown tok (Leaf.mem_of_firstSignificant? hfirst)
      exact congrArg some (h.position_moved hw htok)

/-- The span of a node moves by the extent of what comes before it. -/
theorem span?_moved (h : p.Follows t w) (hw : w.WellNumbered) {n m : Node}
    (hn : n.StandsIn 0 t.size 0 t.layout.leaves) (hm : m.StandsIn 0 w.size 0 w.layout.leaves)
    (hmoved : n.Moved p.size m) :
    w.layout.span? m = (t.layout.span? n).map (Span.shift p.extent) := by
  have htext := hw.text.size_pos
  have htext' := (h.allText hw.text).2.size_pos
  have hown : ∀ tok, .token tok ∈ n.leaves → tok ∈ t.node.tokens := by
    intro tok htok
    obtain ⟨left, right, hrow, -⟩ := hn
    refine Leaf.mem_tokens.mpr ?_
    show .token tok ∈ t.layout.leaves
    rw [hrow]
    simp [htok]
  have hfirst := h.firstPosition_moved hw hown
  have hreverse : ∀ tok, .token tok ∈ n.leaves.reverse → tok ∈ t.node.tokens := by
    intro tok htok
    exact hown tok (List.mem_reverse.mp htok)
  have hlast := h.firstPosition_moved hw hreverse
  rw [← hmoved.leaves, ← Layout.first?_eq hm htext, ← Layout.first?_eq hn htext'] at hfirst
  rw [List.map_reverse, ← hmoved.leaves, ← Layout.last?_eq hm htext,
    ← Layout.last?_eq hn htext'] at hlast
  rw [Layout.span?_eq, Layout.span?_eq, hfirst, hlast]
  cases t.layout.first? n <;> cases t.layout.last? n <;> rfl

end Follows

end SourceTree

end LpcSymbols
