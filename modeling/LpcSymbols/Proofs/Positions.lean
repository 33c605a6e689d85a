/-
The positions of tokens.

A position is computed by two searches, one among the starts of lines and one among the
starts of tokens.  What they find is said here without them.  If tokens come before a
token, then their text has as many newlines as there are lines before the token's own, the
column is the length of what follows the last of these newlines, and the token's number is
how many they are (`TokenPos.behind`).

The number is right only if tokens have text, because a search by offset does not tell
tokens apart that start at the same byte, and only if it is a word, which it is if the bytes
of the text can be counted in a word.  Then offsets, token numbers, and lines with
columns are three ways to say the same, and they put tokens in the same order.
-/
import LpcSymbols.Proofs.Places
import LpcSymbols.Proofs.Significance

namespace LpcSymbols

/-! ### Tokens in their text -/

/-- The text of a row of tokens. -/
def Token.textAll (tokens : List Token) : String := String.join (tokens.map (·.text))

theorem Token.textAll_cons (tok : Token) (tokens : List Token) :
    textAll (tok :: tokens) = tok.text ++ textAll tokens := String.join_cons

theorem Token.textAll_append (tokens more : List Token) :
    textAll (tokens ++ more) = textAll tokens ++ textAll more := by
  unfold textAll
  rw [List.map_append, String.join_append]

/-- In a covering row a token starts where the text before it ends. -/
theorem Covers.start_eq {lo hi : Nat} {a : List Leaf} (h : Covers lo hi a) {tok : Token}
    {before behind : List Token} (ha : a.filterMap Leaf.token? = before ++ tok :: behind) :
    tok.start = lo + Text.size (Token.textAll before) := by
  induction a generalizing lo before with
  | nil => simp at ha
  | cons leaf rest ih =>
      cases leaf with
      | childless => exact ih (show Covers lo hi rest from h) ha
      | token u =>
          obtain ⟨hstart, hrest⟩ := h
          have hrow : u :: rest.filterMap Leaf.token? = before ++ tok :: behind := ha
          cases before with
          | nil =>
              obtain ⟨rfl, -⟩ := List.cons.inj hrow
              exact hstart
          | cons v before =>
              obtain ⟨rfl, htail⟩ := List.cons.inj hrow
              have hstop : u.range.stop = u.start + Text.size u.text := rfl
              rw [ih hrest htail, Token.textAll_cons, Text.size_append]
              omega

namespace Element

mutual

theorem textAll_place (start before : Nat) : ∀ e : Element,
    Token.textAll ((e.place start before).leaves.filterMap Leaf.token?) = e.text
  | .token tag text => by
    show Token.textAll [⟨.ofTag tag, text, start⟩] = text
    rw [Token.textAll_cons]
    exact String.append_empty
  | .node _ children => by
    rw [place, Placed.tokens_node, text]
    exact textAll_placeAll start before children

/-- The text of a row is the text of its tokens. -/
theorem textAll_placeAll (start before : Nat) : ∀ es : List Element,
    Token.textAll (Placed.tokensAll (placeAll start before es)) = textAll es
  | [] => String.join_nil
  | e :: es => by
    rw [placeAll, Placed.tokensAll_cons, Token.textAll_append, textAll, textAll_place start before e,
      textAll_placeAll _ _ es]

end

end Element

/-- The position of a token that comes behind the others. -/
def TokenPos.behind (before : List Token) : TokenPos where
  line := (Token.textAll before).toList.count '\n' + 1
  column := Text.size (String.ofList (Text.lastLine (Token.textAll before).toList))
  index := before.length

/-- The token is at this position of the tree. -/
def SourceTree.TokenAt (t : SourceTree) (tok : Token) (p : TokenPos) : Prop :=
  ∃ before behind, t.node.tokens = before ++ tok :: behind ∧
    tok.start = Text.size (Token.textAll before) ∧ p = TokenPos.behind before

/-- Whether they are compared by token or by line and column, the answer is the same. -/
structure TokenPos.ComparesAs (p q : TokenPos) (answer : Ordering) : Prop where
  byIndex : Ord.compare p.index q.index = answer
  byPlace : (Ord.compare p.line q.line).then (Ord.compare p.column q.column) = answer

theorem TokenPos.comparesAs_self (p : TokenPos) : p.ComparesAs p .eq := by
  constructor
  · exact Nat.compare_eq_eq.mpr rfl
  · rw [Nat.compare_eq_eq.mpr rfl, Nat.compare_eq_eq.mpr rfl]
    rfl

theorem TokenPos.comparesAs_of_lt {p q : TokenPos} (hindex : p.index < q.index)
    (hplace : p.line < q.line ∨ p.line = q.line ∧ p.column < q.column) :
    p.ComparesAs q .lt ∧ q.ComparesAs p .gt := by
  refine ⟨⟨Nat.compare_eq_lt.mpr hindex, ?_⟩, ⟨Nat.compare_eq_gt.mpr hindex, ?_⟩⟩
  · rcases hplace with hline | ⟨hline, hcolumn⟩
    · rw [Nat.compare_eq_lt.mpr hline]
      rfl
    · rw [Nat.compare_eq_eq.mpr hline, Nat.compare_eq_lt.mpr hcolumn]
      rfl
  · rcases hplace with hline | ⟨hline, hcolumn⟩
    · rw [Nat.compare_eq_gt.mpr hline]
      rfl
    · rw [Nat.compare_eq_eq.mpr hline.symm, Nat.compare_eq_gt.mpr hcolumn]
      rfl

namespace SourceTree

variable {t : SourceTree} {x y : Token} {p q : TokenPos}

theorem textAll_tokens (t : SourceTree) : Token.textAll t.node.tokens = t.text := by
  rw [tokens_node]
  exact Element.textAll_placeAll 0 0 t.children

theorem pairwise_tokens (t : SourceTree) :
    t.node.tokens.Pairwise fun u v => u.range.stop ≤ v.start := t.covers_leaves.pairwise

/-- A token with text starts strictly before whatever follows it. -/
theorem AllText.start_lt (h : t.AllText) (hx : x ∈ t.node.tokens) (hle : x.range.stop ≤ y.start) :
    x.start < y.start := by
  have hpos := Text.size_pos (h x hx)
  have hstop : x.range.stop = x.start + Text.size x.text := rfl
  omega

/-- The line and the column of a token are those behind the tokens before it. -/
theorem lineCol_of_split (t : SourceTree) {tok : Token} {before behind : List Token}
    (hsplit : t.node.tokens = before ++ tok :: behind) :
    t.layout.lines.lineCol tok.start
      = ⟨(Token.textAll before).toList.count '\n',
          Text.size (String.ofList (Text.lastLine (Token.textAll before).toList))⟩ := by
  have hstart : tok.start = Text.size (Token.textAll before) := by
    rw [t.covers_leaves.start_eq hsplit, Nat.zero_add]
  have htext : t.text = Token.textAll before ++ Token.textAll (tok :: behind) := by
    rw [← textAll_tokens, hsplit, Token.textAll_append]
  show (LineMap.ofText t.text).lineCol tok.start = _
  rw [htext, hstart, LineMap.lineCol_size]

/-- Before a token there start the tokens in front of it, if none of them is empty. -/
theorem AllText.before_of_split (h : t.AllText) {tok : Token} {before behind : List Token}
    (hsplit : t.node.tokens = before ++ tok :: behind) :
    t.layout.tokens.before tok.start = before.length := by
  have hpairs := t.pairwise_tokens
  rw [hsplit] at hpairs
  obtain ⟨-, hlater, hcross⟩ := List.pairwise_append.mp hpairs
  have hstarts : t.node.tokens.map (·.start)
      = before.map (·.start) ++ ([].map (· + 0) ++ (tok :: behind).map (·.start)) := by
    rw [hsplit, List.map_append]
    rfl
  show TokenStarts.before ⟨t.node.tokens.map (·.start)⟩ (tok.start + 0) = _
  rw [hstarts, TokenStarts.before_between]
  · rw [List.length_map]
    exact Nat.zero_add _
  · intro a ha
    obtain ⟨u, hu, rfl⟩ := List.mem_map.mp ha
    have hmem : u ∈ t.node.tokens := by
      rw [hsplit]
      exact List.mem_append_left _ hu
    exact h.start_lt hmem (hcross u hu tok List.mem_cons_self)
  · intro c hc
    obtain ⟨u, hu, rfl⟩ := List.mem_map.mp hc
    rcases List.mem_cons.mp hu with rfl | hu
    · exact Nat.le_refl _
    · exact Nat.le_trans (Nat.le_add_right _ _) ((List.pairwise_cons.mp hlater).1 u hu)

/-- **The position of a token is that behind the tokens before it.** -/
theorem WellNumbered.tokenAt_position (h : t.WellNumbered) {tok : Token}
    (htok : tok ∈ t.node.tokens) : t.TokenAt tok (t.layout.position tok) := by
  obtain ⟨before, behind, hsplit⟩ := List.append_of_mem htok
  refine ⟨before, behind, hsplit, ?_, ?_⟩
  · rw [t.covers_leaves.start_eq hsplit, Nat.zero_add]
  · unfold Layout.position TokenPos.behind
    simp only [t.lineCol_of_split hsplit, h.rank_eq, h.text.before_of_split hsplit]

theorem TokenAt.getElem? (hx : t.TokenAt x p) : t.node.tokens[p.index]? = some x := by
  obtain ⟨before, behind, hsplit, -, rfl⟩ := hx
  simp [hsplit, TokenPos.behind]

/-- A position has the line and the column of its token's offset. -/
theorem TokenAt.place (hx : t.TokenAt x p) :
    p.line = ((LineMap.ofText t.text).lineCol x.start).line + 1 ∧
      p.column = ((LineMap.ofText t.text).lineCol x.start).col := by
  obtain ⟨before, behind, hsplit, -, rfl⟩ := hx
  rw [show (LineMap.ofText t.text).lineCol x.start = _ from t.lineCol_of_split hsplit]
  exact ⟨rfl, rfl⟩

/-- A token with one number has one position. -/
theorem TokenAt.unique (hx : t.TokenAt x p) (hy : t.TokenAt x q) (hindex : p.index = q.index) :
    p = q := by
  obtain ⟨hline, hcolumn⟩ := hx.place
  obtain ⟨hline', hcolumn'⟩ := hy.place
  obtain ⟨line, column, index⟩ := p
  obtain ⟨line', column', index'⟩ := q
  simp only [TokenPos.mk.injEq]
  exact ⟨hline.trans hline'.symm, hcolumn.trans hcolumn'.symm, hindex⟩

/-- A token with a smaller number starts earlier. -/
theorem TokenAt.start_lt (h : t.AllText) (hx : t.TokenAt x p) (hy : t.TokenAt y q)
    (hlt : p.index < q.index) : x.start < y.start := by
  obtain ⟨hi, hxi⟩ := List.getElem?_eq_some_iff.mp hx.getElem?
  obtain ⟨hj, hyj⟩ := List.getElem?_eq_some_iff.mp hy.getElem?
  have hle := List.pairwise_iff_getElem.mp t.pairwise_tokens _ _ hi hj hlt
  rw [hxi, hyj] at hle
  exact h.start_lt (List.mem_of_getElem? hx.getElem?) hle

/-- A token with a smaller number comes first in every comparison. -/
theorem TokenAt.comparesAs_of_index_lt (h : t.AllText) (hx : t.TokenAt x p) (hy : t.TokenAt y q)
    (hlt : p.index < q.index) : p.ComparesAs q .lt ∧ q.ComparesAs p .gt := by
  refine TokenPos.comparesAs_of_lt hlt ?_
  have hplace := LineMap.lineCol_lt t.text (hx.start_lt h hy hlt)
  rw [hx.place.1, hx.place.2, hy.place.1, hy.place.2]
  exact hplace.imp Nat.succ_lt_succ (And.imp_left (congrArg Nat.succ))

/-- **Positions are in the order of offsets, by token as well as by line and column.** -/
theorem TokenAt.comparesAs (h : t.AllText) (hx : t.TokenAt x p) (hy : t.TokenAt y q) :
    p.ComparesAs q (Ord.compare x.start y.start) := by
  rcases Nat.lt_trichotomy p.index q.index with hlt | heq | hgt
  · rw [Nat.compare_eq_lt.mpr (hx.start_lt h hy hlt)]
    exact (hx.comparesAs_of_index_lt h hy hlt).1
  · have hsame : x = y := by
      have hget := hx.getElem?
      rw [heq, hy.getElem?] at hget
      exact (Option.some.inj hget).symm
    subst hsame
    rw [hx.unique hy heq, Nat.compare_eq_eq.mpr rfl]
    exact TokenPos.comparesAs_self _
  · rw [Nat.compare_eq_gt.mpr (hy.start_lt h hx hgt)]
    exact (hy.comparesAs_of_index_lt h hx hgt).2

/-! ### Spans -/

theorem mem_tokens_of_site {s : Site} (hs : s ∈ t.node.nodes) (hx : x ∈ s.1.tokens) :
    x ∈ t.node.tokens := by
  obtain ⟨left, right, hrow, -⟩ := t.standsIn_nodes hs
  refine Leaf.mem_tokens.mpr ?_
  rw [show t.node.leaves = left ++ s.1.leaves ++ right from hrow]
  exact List.mem_append_left _ (List.mem_append_right _ (Leaf.mem_tokens.mp hx))

/-- The ends of a span are the first and the last of the node's significant tokens. -/
theorem AllText.ends_of_span? (h : t.AllText) {s : Site} (hs : s ∈ t.node.nodes) {span : Span}
    (hspan : t.layout.span? s.1 = some span) :
    ∃ first last, (s.1.tokens.filter Token.isSignificant).head? = some first ∧
      (s.1.tokens.filter Token.isSignificant).getLast? = some last ∧
      span = ⟨t.layout.position first, t.layout.position last⟩ := by
  have hstands := t.standsIn_nodes hs
  rw [Layout.span?_eq, Layout.first?_eq hstands h.size_pos, Layout.last?_eq hstands h.size_pos]
    at hspan
  obtain ⟨start, hstart, hends⟩ := Option.bind_eq_some_iff.mp hspan
  obtain ⟨first, hfirst, rfl⟩ := Option.map_eq_some_iff.mp hstart
  obtain ⟨stop, hstop, rfl⟩ := Option.map_eq_some_iff.mp hends
  obtain ⟨last, hlast, rfl⟩ := Option.map_eq_some_iff.mp hstop
  refine ⟨first, last, Leaf.head?_significant hfirst, ?_, rfl⟩
  have hhead := Leaf.head?_significant hlast
  rw [List.filterMap_reverse, List.filter_reverse, List.head?_reverse] at hhead
  exact hhead

/-- The ends of a span are the positions of these tokens in the tree. -/
theorem WellNumbered.ends_of_span? (h : t.WellNumbered) {s : Site} (hs : s ∈ t.node.nodes)
    {span : Span} (hspan : t.layout.span? s.1 = some span) :
    ∃ first last, (s.1.tokens.filter Token.isSignificant).head? = some first ∧
      (s.1.tokens.filter Token.isSignificant).getLast? = some last ∧
      t.TokenAt first span.start ∧ t.TokenAt last span.stop := by
  obtain ⟨first, last, hfirst, hlast, rfl⟩ := h.text.ends_of_span? hs hspan
  have hmem : ∀ tok ∈ s.1.tokens.filter Token.isSignificant, tok ∈ t.node.tokens := by
    intro tok htok
    exact mem_tokens_of_site hs (List.mem_filter.mp htok).1
  exact ⟨first, last, hfirst, hlast,
    h.tokenAt_position (hmem first (List.mem_of_head? hfirst)),
    h.tokenAt_position (hmem last (List.mem_of_getLast? hlast))⟩

/-- The last of the significant tokens does not start before the first. -/
theorem start_le_of_ends {s : Site} (hs : s ∈ t.node.nodes)
    (hfirst : (s.1.tokens.filter Token.isSignificant).head? = some x)
    (hlast : (s.1.tokens.filter Token.isSignificant).getLast? = some y) : x.start ≤ y.start := by
  obtain ⟨left, right, -, -, -, hown, -⟩ := t.standsIn_nodes hs
  have hpairs : (s.1.tokens.filter Token.isSignificant).Pairwise
      fun u v => u.range.stop ≤ v.start := hown.pairwise.sublist List.filter_sublist
  obtain ⟨rest, hrow⟩ := List.head?_eq_some_iff.mp hfirst
  rw [hrow] at hpairs hlast
  rcases List.mem_cons.mp (List.mem_of_getLast? hlast) with rfl | hmem
  · exact Nat.le_refl _
  · exact Nat.le_trans (Nat.le_add_right _ _) ((List.pairwise_cons.mp hpairs).1 y hmem)

end SourceTree

/-- **A span runs from the first to the last significant token of its node, each with the place it
has in the text, and places compare like offsets.**  A text has a layout if its length is a word. -/
theorem Layout.spans_exact {t : SourceTree} (h : t.AllText) :
    ((∃ l, Layout.ofTree t = .ok l) ↔ t.size < 4294967296) ∧
      (∀ l, Layout.ofTree t = .ok l → ∀ s ∈ t.node.nodes, ∀ span, l.span? s.1 = some span →
        ∃ first last, (s.1.tokens.filter Token.isSignificant).head? = some first ∧
          (s.1.tokens.filter Token.isSignificant).getLast? = some last ∧
          t.TokenAt first span.start ∧ t.TokenAt last span.stop ∧
          span.start.index ≤ span.stop.index) ∧
      ∀ x y p q, t.TokenAt x p → t.TokenAt y q →
        p.ComparesAs q (Ord.compare x.start y.start) := by
  refine ⟨?_, ?_, fun x y p q hx hy => hx.comparesAs h hy⟩
  · constructor
    · rintro ⟨l, hl⟩
      exact (Layout.ofTree_ok_iff.mp hl).1
    · intro hsize
      exact ⟨t.layout, Layout.ofTree_ok_iff.mpr ⟨hsize, rfl⟩⟩
  · intro l hl s hs span hspan
    obtain ⟨hsize, rfl⟩ := Layout.ofTree_ok_iff.mp hl
    obtain ⟨first, last, hfirst, hlast, hstart, hstop⟩ :=
      (h.wellNumbered hsize).ends_of_span? hs hspan
    refine ⟨first, last, hfirst, hlast, hstart, hstop, ?_⟩
    by_contra hgt
    have hbefore := hstop.start_lt h hstart (Nat.lt_of_not_le hgt)
    have hle := SourceTree.start_le_of_ends hs hfirst hlast
    omega

/-- A comment of two lines with a letter of two bytes, and a function with blanks at its ends. -/
def SourceTree.commented : SourceTree :=
  .ofItems ⟨0⟩ {}
    [.token Kind.comment.tag "/*\n é */",
     .node Kind.functionDecl.tag
      [.token Kind.whitespace.tag " ",
       .node Kind.functionHeader.tag [.node Kind.name.tag [.token Kind.ident.tag "f"]],
       .token Kind.whitespace.tag "\n", .token Kind.semicolon.tag ";",
       .token Kind.whitespace.tag " "]]

theorem Layout.spans_exact_commented :
    SourceTree.commented.AllText ∧ ∃ l s first last, Layout.ofTree .commented = .ok l ∧
      s ∈ SourceTree.commented.node.nodes ∧ l.span? s.1 = some ⟨⟨2, 7, 2⟩, ⟨3, 0, 4⟩⟩ ∧
      (s.1.tokens.filter Token.isSignificant).head? = some first ∧
      (s.1.tokens.filter Token.isSignificant).getLast? = some last ∧
      SourceTree.commented.TokenAt first ⟨2, 7, 2⟩ ∧ SourceTree.commented.TokenAt last ⟨3, 0, 4⟩ ∧
      TokenPos.ComparesAs ⟨2, 7, 2⟩ ⟨3, 0, 4⟩ (Ord.compare first.start last.start) := by
  have htext : SourceTree.commented.AllText := by
    unfold SourceTree.AllText
    decide +kernel
  have hspan : ∃ s, SourceTree.commented.node.nodes[1]? = some s ∧
      ((Layout.ofTree .commented).toOption.bind fun l => l.span? s.1)
        = some ⟨⟨2, 7, 2⟩, ⟨3, 0, 4⟩⟩ := ⟨_, rfl, by decide +kernel⟩
  obtain ⟨s, hs, hspan⟩ := hspan
  have hmem := List.mem_of_getElem? hs
  obtain ⟨hlayout, hexact, hcompare⟩ := spans_exact htext
  obtain ⟨l, hl⟩ := hlayout.mpr (by decide +kernel)
  rw [hl] at hspan
  obtain ⟨first, last, hfirst, hlast, hstart, hstop, -⟩ := hexact l hl s hmem _ hspan
  exact ⟨htext, l, s, first, last, hl, hmem, hspan, hfirst, hlast, hstart, hstop,
    hcompare _ _ _ _ hstart hstop⟩

end LpcSymbols
