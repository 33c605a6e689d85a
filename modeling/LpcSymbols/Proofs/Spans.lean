/-
Layouts and spans.

A tree has a layout if the length of its text is a word: the tokens of a tree always
come in the order of their starts.  The span of a node is looked for among all leaves
of the file, and where tokens have text the search never leaves the node: the token
behind a node starts at the node's stop and has a byte outside, and the token in front
of it has one before the node's start.  So a span depends on the node's own leaves
alone, which is what `first?_eq` and `last?_eq` say.

Token numbers are words, and one too large for a word starts from zero again.  They
are exact where the tokens can be counted in a word (`rank_eq`), and so wherever the
text has a layout and no token is empty.

A file of `size` bytes has at most `size + 1` lines, so the lines of a span are
words as long as the text is not too long.
-/
import LpcSymbols.Proofs.Placement
import LpcSymbols.Source.Layout
import LpcSymbols.Symbol.Fold

namespace LpcSymbols

/-! ### Trees with a layout -/

namespace TokenStarts

theorem ascends_cons {a : Nat} {l : List Nat} (hl : ascends l = true)
    (ha : ∀ b ∈ l.head?, a ≤ b) : ascends (a :: l) = true := by
  cases l with
  | nil => rfl
  | cons b rest =>
      have hab : a ≤ b := ha b (by simp)
      simp [ascends, hab, hl]

end TokenStarts

/-- The tokens of a covering row ascend, from its start on. -/
theorem Covers.ascends {lo hi : Nat} {a : List Leaf} (h : Covers lo hi a) :
    TokenStarts.ascends ((a.filterMap Leaf.token?).map (·.start)) = true ∧
      ∀ b ∈ ((a.filterMap Leaf.token?).map (·.start)).head?, lo ≤ b := by
  induction a generalizing lo with
  | nil => exact ⟨rfl, by simp⟩
  | cons leaf rest ih =>
      cases leaf with
      | token t =>
          obtain ⟨hstart, hrest⟩ := h
          obtain ⟨hasc, hhead⟩ := ih hrest
          have hstop : t.start ≤ t.range.stop := Nat.le_add_right _ _
          refine ⟨?_, ?_⟩
          · refine TokenStarts.ascends_cons hasc ?_
            intro b hb
            exact Nat.le_trans hstop (hhead b hb)
          · intro b hb
            have hbt : t.start = b := by simpa [Leaf.token?] using hb
            omega
      | childless => exact ih (show Covers lo hi rest from h)

namespace SourceTree

/-- The layout of a tree. -/
def layout (t : SourceTree) : Layout :=
  ⟨LineMap.ofText t.text, ⟨t.node.tokens.map (·.start)⟩, t.node.leaves⟩

theorem covers_leaves (t : SourceTree) : Covers 0 t.size t.node.leaves := by
  have h := Element.covers_place 0 0 t.root
  rw [Nat.zero_add] at h
  exact h

/-- Every node of a tree stands among the leaves of the tree. -/
theorem standsIn_nodes (t : SourceTree) {s : Node × List Node} (hs : s ∈ t.node.nodes) :
    s.1.StandsIn 0 t.size 0 t.layout.leaves := by
  have h := Element.standsIn_place 0 0 [] t.root s hs
  rw [Nat.zero_add] at h
  exact h

theorem nodup_nodes (t : SourceTree) : t.node.nodes.Nodup :=
  Element.nodup_nodes_place 0 0 [] t.root

end SourceTree

/-- The tokens of a tree ascend, so a layout fails at nothing but the length of the text. -/
theorem Layout.ofTree_eq (t : SourceTree) :
    Layout.ofTree t = if t.size < Word.bound then .ok t.layout else .error .overflow := by
  have hasc : TokenStarts.ascends (t.node.tokens.map (·.start)) = true :=
    (t.covers_leaves.ascends).1
  have hstarts : TokenStarts.ofList (t.node.tokens.map (·.start))
      = .ok ⟨t.node.tokens.map (·.start)⟩ := by
    rw [TokenStarts.ofList, if_pos hasc]
  have hfits : Word.fits t.size = true ↔ t.size < Word.bound := decide_eq_true_iff
  unfold ofTree
  simp only [hfits, hstarts]
  rfl

/-- **Every tree has a layout, if the length of its text is a word.** -/
theorem Layout.ofTree_ok_iff {t : SourceTree} {l : Layout} :
    Layout.ofTree t = .ok l ↔ t.size < Word.bound ∧ l = t.layout := by
  rw [ofTree_eq]
  by_cases hsize : t.size < Word.bound
  · rw [if_pos hsize, Except.ok.injEq]
    exact ⟨fun hl => ⟨hsize, hl.symm⟩, fun hl => hl.2.symm⟩
  · rw [if_neg hsize]
    constructor
    · rintro ⟨⟩
    · rintro ⟨hlt, -⟩
      exact absurd hlt hsize

/-- The tokens of a row are those among its leaves. -/
theorem Leaf.mem_tokens {leaves : List Leaf} {tok : Token} :
    tok ∈ leaves.filterMap Leaf.token? ↔ .token tok ∈ leaves := by
  rw [List.mem_filterMap]
  constructor
  · rintro ⟨leaf, hleaf, htok⟩
    cases leaf with
    | childless => simp [Leaf.token?] at htok
    | token u =>
        obtain rfl := Option.some.inj htok
        exact hleaf
  · intro h
    exact ⟨_, h, rfl⟩

/-- Each token of a covering row stops before the later ones start. -/
theorem Covers.pairwise {lo hi : Nat} {a : List Leaf} (h : Covers lo hi a) :
    (a.filterMap Leaf.token?).Pairwise fun u v => u.range.stop ≤ v.start := by
  induction a generalizing lo with
  | nil => exact .nil
  | cons leaf rest ih =>
      cases leaf with
      | childless => exact ih (show Covers lo hi rest from h)
      | token t =>
          obtain ⟨-, hrest⟩ := h
          refine List.pairwise_cons.mpr ⟨?_, ih hrest⟩
          intro v hv
          exact (hrest.token_bounds (Leaf.mem_tokens.mp hv)).1

/-! ### The search for a span stays inside the node -/

namespace Leaf

/-- The first significant token of a row of leaves, if no childless node is before it. -/
def firstSignificant? : List Leaf → Option Token
  | .token t :: rest => if t.isSignificant then some t else firstSignificant? rest
  | _ => none

end Leaf

namespace Layout

/-- A search among leaves inside the range ends with them, if no token inside the range
comes next. -/
theorem significant?_append {range : TextRange} {own other : List Leaf}
    (hown : ∀ t, .token t ∈ own → range.contains t.range = true)
    (hother : ∀ t rest, other = .token t :: rest → range.contains t.range = false) :
    significant? range (own ++ other) = Leaf.firstSignificant? own := by
  induction own with
  | nil =>
      rw [List.nil_append]
      cases other with
      | nil => rfl
      | cons leaf rest =>
          cases leaf with
          | token t => simp [significant?, Leaf.firstSignificant?, hother t rest rfl]
          | childless => rfl
  | cons leaf rest ih =>
      cases leaf with
      | token t =>
          have hin : range.contains t.range = true := hown t (by simp)
          have hrest := ih fun u hu => hown u (by simp [hu])
          simp only [List.cons_append, significant?, Leaf.firstSignificant?, hin, if_true, hrest]
      | childless => rfl

variable {l : Layout} {n : Node} {size : Nat}

theorem contains_of_covers {a : List Leaf} (h : Covers n.range.start n.range.stop a) (t : Token)
    (ht : .token t ∈ a) : n.range.contains t.range = true := by
  obtain ⟨hlo, hhi⟩ := h.token_bounds ht
  have hstart : n.range.start ≤ t.range.start := hlo
  simp [TextRange.contains, hstart, hhi]

/-- The first significant token of a node is the first of its own leaves. -/
theorem first?_eq (hn : n.StandsIn 0 size 0 l.leaves)
    (htext : ∀ t, .token t ∈ l.leaves → 0 < Text.size t.text) :
    l.first? n = Leaf.firstSignificant? n.leaves := by
  obtain ⟨left, right, hrow, hbefore, -, hown, hright⟩ := hn
  have hdrop : l.leaves.drop n.leavesBefore = n.leaves ++ right := by
    rw [hrow, List.append_assoc, ← hbefore, Nat.zero_add, List.drop_left]
  rw [first?, hdrop]
  refine significant?_append (contains_of_covers hown) ?_
  intro t rest hrest
  -- The token behind the node has a byte behind the node.
  have hstart : t.start = n.range.stop := hright.head_start hrest
  have hpos : 0 < Text.size t.text := htext t (by rw [hrow, hrest]; simp)
  have hstop : t.range.stop = t.start + Text.size t.text := rfl
  have hout : ¬ t.range.stop ≤ n.range.stop := by omega
  simp [TextRange.contains, hout]

/-- The last significant token of a node is the last of its own leaves. -/
theorem last?_eq (hn : n.StandsIn 0 size 0 l.leaves)
    (htext : ∀ t, .token t ∈ l.leaves → 0 < Text.size t.text) :
    l.last? n = Leaf.firstSignificant? n.leaves.reverse := by
  obtain ⟨left, right, hrow, hbefore, hleft, hown, -⟩ := hn
  have htake : (l.leaves.take (n.leavesBefore + n.leaves.length)).reverse
      = n.leaves.reverse ++ left.reverse := by
    have hlen : n.leavesBefore + n.leaves.length = (left ++ n.leaves).length := by
      rw [List.length_append]
      omega
    rw [hrow, hlen, List.take_left, List.reverse_append]
  rw [last?, htake]
  refine significant?_append ?_ ?_
  · intro t ht
    exact contains_of_covers hown t (List.mem_reverse.mp ht)
  · intro t rest hrest
    -- The token in front of the node has a byte in front of the node.
    have hmem : .token t ∈ left := by
      rw [← List.mem_reverse, hrest]
      simp
    obtain ⟨-, hhi⟩ := hleft.token_bounds hmem
    have hpos : 0 < Text.size t.text := htext t (by rw [hrow]; simp [hmem])
    have hstop : t.range.stop = t.start + Text.size t.text := rfl
    have hout : ¬ n.range.start ≤ t.range.start := by
      show ¬ n.range.start ≤ t.start
      omega
    simp [TextRange.contains, hout]

end Layout

/-! ### Lines are no more than bytes -/

namespace Text

theorem size_append (s t : String) : size (s ++ t) = size s + size t :=
  String.utf8ByteSize_append

theorem size_ofList_cons (c : Char) (cs : List Char) :
    size (String.ofList (c :: cs)) = c.utf8Size + size (String.ofList cs) := by
  rw [String.ofList_cons, size_append, size, String.utf8ByteSize_singleton]

theorem size_pos {s : String} (h : s ≠ "") : 0 < size s := by
  rw [Nat.pos_iff_ne_zero]
  intro hzero
  exact h (String.utf8ByteSize_eq_zero_iff.mp hzero)

theorem length_le_size (s : String) : s.toList.length ≤ size s := by
  have h : ∀ cs : List Char, cs.length ≤ size (String.ofList cs) := by
    intro cs
    induction cs with
    | nil => exact Nat.zero_le _
    | cons c cs ih =>
        have hpos := c.utf8Size_pos
        rw [size_ofList_cons, List.length_cons]
        omega
  have hs := h s.toList
  rwa [String.ofList_toList] at hs

end Text

/-- No token is empty. -/
def SourceTree.AllText (t : SourceTree) : Prop := ∀ tok ∈ t.node.tokens, tok.text ≠ ""

theorem SourceTree.AllText.size_pos {t : SourceTree} (h : t.AllText) (tok : Token)
    (htok : .token tok ∈ t.layout.leaves) : 0 < Text.size tok.text :=
  Text.size_pos (h tok (Leaf.mem_tokens.mpr htok))

/-! ### Token numbers -/

namespace TokenStarts

theorem before_le (s : TokenStarts) (offset : Nat) : s.before offset ≤ s.starts.length :=
  (List.takeWhile_prefix (· < offset)).length_le

/-- Where the tokens can be counted in a word, a token's number is how many are before it. -/
theorem rank_eq {s : TokenStarts} (h : s.starts.length < Word.bound) (offset : Nat) :
    s.rank offset = s.before offset :=
  Nat.mod_eq_of_lt (Nat.lt_of_le_of_lt (s.before_le offset) h)

end TokenStarts

/-- Tokens that are not empty take a byte each. -/
theorem Covers.length_tokens_le {lo hi : Nat} {a : List Leaf} (h : Covers lo hi a)
    (htext : ∀ tok, .token tok ∈ a → 0 < Text.size tok.text) :
    (a.filterMap Leaf.token?).length + lo ≤ hi := by
  induction a generalizing lo with
  | nil =>
      have hlo : lo = hi := h
      exact Nat.le_of_eq ((Nat.zero_add lo).trans hlo)
  | cons leaf rest ih =>
      have hrest : ∀ tok, .token tok ∈ rest → 0 < Text.size tok.text := by
        intro tok htok
        exact htext tok (List.mem_cons_of_mem _ htok)
      cases leaf with
      | childless => exact ih (show Covers lo hi rest from h) hrest
      | token tok =>
          obtain ⟨hstart, hcovers⟩ := h
          have hle := ih hcovers hrest
          have hpos := htext tok List.mem_cons_self
          have hstop : tok.range.stop = tok.start + Text.size tok.text := rfl
          have hlen : ((Leaf.token tok :: rest).filterMap Leaf.token?).length
              = (rest.filterMap Leaf.token?).length + 1 := rfl
          omega

/-- No token is empty, and the tokens can be counted in a word. -/
structure SourceTree.WellNumbered (t : SourceTree) : Prop where
  text : t.AllText
  count : t.node.tokens.length < Word.bound

/-- Tokens that are not empty can be counted in a word if the bytes can. -/
theorem SourceTree.AllText.wellNumbered {t : SourceTree} (h : t.AllText)
    (hsize : t.size < Word.bound) : t.WellNumbered where
  text := h
  count := Nat.lt_of_le_of_lt (t.covers_leaves.length_tokens_le h.size_pos) hsize

theorem SourceTree.length_starts (t : SourceTree) :
    t.layout.tokens.starts.length = t.node.tokens.length :=
  List.length_map _

theorem SourceTree.WellNumbered.rank_eq {t : SourceTree} (h : t.WellNumbered) (offset : Nat) :
    t.layout.tokens.rank offset = t.layout.tokens.before offset := by
  refine TokenStarts.rank_eq ?_ offset
  rw [length_starts]
  exact h.count

/-! ### Lines -/

namespace LineMap

theorem startsAfter_length_le (offset : Nat) (cs : List Char) :
    (startsAfter offset cs).length ≤ cs.length := by
  induction cs generalizing offset with
  | nil => exact Nat.le_refl _
  | cons c cs ih =>
      have hrest := ih (offset + c.utf8Size)
      simp only [startsAfter]
      split <;> simp only [List.length_cons] <;> omega

/-- The line of an offset is no more than the bytes of the text. -/
theorem lineCol_line_le (text : String) (offset : Nat) :
    ((ofText text).lineCol offset).line ≤ Text.size text := by
  have htake := (List.takeWhile_prefix (· ≤ offset) (l := (ofText text).starts)).length_le
  have hstarts := startsAfter_length_le 0 text.toList
  have hsize := Text.length_le_size text
  have hlen : (ofText text).starts.length = (startsAfter 0 text.toList).length + 1 := rfl
  simp only [lineCol]
  omega

end LineMap

namespace Element

mutual

theorem size_text : ∀ e : Element, Text.size e.text = e.size
  | .token _ _ => rfl
  | .node _ children => by
    rw [text, size]
    exact size_textAll children

theorem size_textAll : ∀ es : List Element, Text.size (textAll es) = sizeAll es
  | [] => rfl
  | e :: es => by
    rw [textAll, sizeAll, Text.size_append, size_text e, size_textAll es]

end

end Element

theorem SourceTree.size_text (t : SourceTree) : Text.size t.text = t.size := Element.size_text t.root

/-- The lines of a span count from one and are at most one more than the bytes. -/
theorem SourceTree.span_lines (t : SourceTree) {n : Node} {s : Span}
    (h : t.layout.span? n = some s) :
    (1 ≤ s.start.line ∧ s.start.line ≤ t.size + 1) ∧
      (1 ≤ s.stop.line ∧ s.stop.line ≤ t.size + 1) := by
  have hpos : ∀ tok : Token, 1 ≤ (t.layout.position tok).line ∧
      (t.layout.position tok).line ≤ t.size + 1 := by
    intro tok
    have hline := LineMap.lineCol_line_le t.text tok.start
    rw [t.size_text] at hline
    exact ⟨Nat.le_add_left 1 _, Nat.succ_le_succ hline⟩
  unfold Layout.span? at h
  split at h
  · simp only [Option.some.injEq] at h
    subst h
    exact ⟨hpos _, hpos _⟩
  · simp at h

/-! ### Short texts have lines that fit -/

theorem Word.toSigned_of_lt {n : Nat} (h : n < 2147483648) : toSigned n = n := by
  unfold toSigned bound
  rw [Int.bmod_def]
  omega

theorem Span.fits_of_lines {s : Span} {m : Nat} (hm : m < 2147483648) (hstart : s.start.line ≤ m)
    (hstop : s.stop.line ≤ m) : s.fits = true := by
  have h1 : s.start.line < 4294967296 := by omega
  have h2 : s.stop.line < 4294967296 := by omega
  simp [fits, Word.fits, Word.bound, h1, h2]

theorem Fold.fits_ofSpan {s : Span} {m : Nat} (hm : m < 2147483648)
    (hstart : 1 ≤ s.start.line ∧ s.start.line ≤ m) (hstop : 1 ≤ s.stop.line ∧ s.stop.line ≤ m) :
    (Fold.ofSpan s).fits = true := by
  have h1 : Word.toSigned s.start.line = s.start.line := Word.toSigned_of_lt (by omega)
  have h2 : Word.toSigned s.stop.line = s.stop.line := Word.toSigned_of_lt (by omega)
  simp only [fits, ofSpan, h1, h2, Word.fitsSigned, Bool.and_eq_true, decide_eq_true_eq]
  omega

end LpcSymbols
