/-
The text at the range of a name.

Tokens are placed by adding up lengths, so what stands in the text at the range of a token is
the token (`standsAt_token`).  A symbol that is named by a word of the text has the range of
that token.  The name of a macro is a piece of a token, and it is cut out of it twice: its range
is found in the line of the definition, and its spelling in the body that the symbol keeps.  Both
cuts end up at the same place.

The target of an inherit statement is a node of its own.  Which of its tokens have text to
contribute can be told from its range (`significantText_eq`), so all nodes with that range have
the same significant text.
-/
import LpcSymbols.Proofs.Positions
import LpcSymbols.Proofs.Ranges
import LpcSymbols.Proofs.SourceOrder

namespace LpcSymbols

/-! ### Words in a text -/

namespace Text

/-- What stands in the text at the range is the word. -/
def StandsAt (text : String) (r : TextRange) (word : String) : Prop :=
  ∃ before behind, text = before ++ word ++ behind ∧ r = .ofLength (size before) (size word)

/-- A piece of a word stands in the text behind the pieces before it. -/
theorem StandsAt.piece {text word u v w : String} {start : Nat}
    (h : StandsAt text (.ofLength start (size word)) word) (hword : word = u ++ w ++ v) :
    StandsAt text (.ofLength (start + size u) (size w)) w := by
  obtain ⟨before, behind, htext, hrange⟩ := h
  obtain rfl : start = size before := (TextRange.mk.inj hrange).1
  refine ⟨before ++ u, v ++ behind, ?_, ?_⟩
  · simp only [htext, hword, String.append_assoc]
  · rw [size_append]

theorem eq_of_atBlank? {s head rest : String} (h : atBlank? s = some (head, rest)) :
    s = head ++ " " ++ rest := by
  unfold atBlank? at h
  split at h
  · simp at h
  · rename_i c cs hdrop
    obtain ⟨rfl, rfl⟩ := Prod.mk.inj (Option.some.inj h)
    have hblank : c = ' ' := by
      have hhead := List.head?_dropWhile_not (· != ' ') s.toList
      rw [hdrop] at hhead
      simpa using hhead
    rw [hblank] at hdrop
    have hsplit : s.toList = s.toList.takeWhile (· != ' ') ++ ' ' :: cs := by
      rw [← hdrop, List.takeWhile_append_dropWhile]
    rw [← String.toList_inj]
    simpa using hsplit

theorem leadingName_append (s : String) :
    s = leadingName s ++ String.ofList (s.toList.dropWhile (!endsName ·)) := by
  rw [leadingName, ← String.ofList_append, List.takeWhile_append_dropWhile, String.ofList_toList]

end Text

/-! ### Tokens in the text -/

namespace Placed

theorem mem_tokensAll {p : Placed} {ps : List Placed} {tok : Token} (hp : p ∈ ps)
    (htok : tok ∈ p.leaves.filterMap Leaf.token?) : tok ∈ tokensAll ps := by
  obtain ⟨front, back, rfl⟩ := List.append_of_mem hp
  rw [tokensAll_append, tokensAll_cons]
  exact List.mem_append_right _ (List.mem_append_left _ htok)

end Placed

namespace Node

variable {n m : Node} {tok : Token}

theorem mem_tokens_of_child {p : Placed} (hp : p ∈ n.children)
    (htok : tok ∈ p.leaves.filterMap Leaf.token?) : tok ∈ n.tokens := by
  show tok ∈ (Placed.node n.kind n.range n.leavesBefore n.children).leaves.filterMap Leaf.token?
  rw [Placed.tokens_node]
  exact Placed.mem_tokensAll hp htok

theorem mem_tokens_of_childTokens (h : tok ∈ n.childTokens) : tok ∈ n.tokens := by
  obtain ⟨p, hp, hptok⟩ := List.mem_filterMap.mp h
  cases p with
  | node kind range before children => simp [Placed.token?] at hptok
  | token u =>
      obtain rfl := Option.some.inj hptok
      exact mem_tokens_of_child hp List.mem_cons_self

theorem mem_tokens_of_childNodes (hm : m ∈ n.childNodes) (h : tok ∈ m.tokens) : tok ∈ n.tokens := by
  obtain ⟨p, hp, hpm⟩ := List.mem_filterMap.mp hm
  cases p with
  | token u => simp [Placed.node?] at hpm
  | node kind range before children =>
      obtain rfl := Option.some.inj hpm
      exact mem_tokens_of_child hp h

theorem mem_tokens_of_token? {kind : Kind} (h : n.token? kind = some tok) : tok ∈ n.tokens :=
  mem_tokens_of_childTokens (List.mem_of_find?_eq_some h)

theorem mem_tokens_of_nameIdent? (h : n.nameIdent? = some tok) : tok ∈ n.tokens := by
  obtain ⟨name, hname, hident⟩ := Option.bind_eq_some_iff.mp h
  exact mem_tokens_of_childNodes (List.mem_of_find?_eq_some hname) (mem_tokens_of_token? hident)

theorem mem_tokens_of_functionIdent? (h : n.functionIdent? = some tok) : tok ∈ n.tokens := by
  obtain ⟨header, hheader, hident⟩ := Option.bind_eq_some_iff.mp h
  exact mem_tokens_of_childNodes (List.mem_of_find?_eq_some hheader) (mem_tokens_of_nameIdent? hident)

end Node

namespace Placed

variable {s : Site} {m : Node}

mutual

theorem nodes_child (hm : m ∈ s.1.childNodes) : ∀ (p : Placed) (around : List Node),
    s ∈ p.nodes around → (m, s.1 :: s.2) ∈ p.nodes around
  | .token _, _, hs => by simp [nodes] at hs
  | .node kind range before children, around, hs => by
    rw [nodes] at hs ⊢
    refine List.mem_cons_of_mem _ ?_
    rcases List.mem_cons.mp hs with rfl | hs
    · obtain ⟨p, hp, hpm⟩ := List.mem_filterMap.mp hm
      refine mem_nodesAll.mpr ⟨p, hp, ?_⟩
      cases p with
      | token u => simp [node?] at hpm
      | node kind' range' before' children' =>
          obtain rfl := Option.some.inj hpm
          rw [nodes]
          exact List.mem_cons_self
    · exact nodesAll_child hm children _ hs

theorem nodesAll_child (hm : m ∈ s.1.childNodes) : ∀ (ps : List Placed) (around : List Node),
    s ∈ nodesAll around ps → (m, s.1 :: s.2) ∈ nodesAll around ps
  | [], _, hs => by simp [nodesAll] at hs
  | p :: ps, around, hs => by
    rw [nodesAll, List.mem_append] at hs ⊢
    exact hs.imp (nodes_child hm p around) (nodesAll_child hm ps around)

end

end Placed

namespace SourceTree

variable {t : SourceTree} {s : Site} {tok : Token}

/-- The children of a node of the tree are nodes of the tree. -/
theorem mem_nodes_of_childNodes {m : Node} (hs : s ∈ t.node.nodes) (hm : m ∈ s.1.childNodes) :
    (m, s.1 :: s.2) ∈ t.node.nodes := Placed.nodes_child hm _ [] hs

/-- **At the range of a token the token stands in the text.** -/
theorem standsAt_token (htok : tok ∈ t.node.tokens) : Text.StandsAt t.text tok.range tok.text := by
  obtain ⟨before, behind, hsplit⟩ := List.append_of_mem htok
  refine ⟨Token.textAll before, Token.textAll behind, ?_, ?_⟩
  · rw [← textAll_tokens, hsplit, Token.textAll_append, Token.textAll_cons, String.append_assoc]
  · rw [← Nat.zero_add (Text.size _), ← t.covers_leaves.start_eq hsplit]
    rfl

end SourceTree

/-! ### The names of macros -/

namespace Node

variable {n : Node}

/-- The spelling of a macro's name: what the body that the symbol keeps starts with. -/
theorem defineBody_of_atBlank? {line : Token} {head rest : String} (hline : n.defineLine? = some line)
    (hcut : Text.atBlank? line.text = some (head, rest)) : n.defineBody = rest := by
  simp [defineBody, hline, hcut]

/-- **The range of a macro's name is where its spelling stands.** -/
theorem standsAt_macroName {text : String} {line : Token} {r : TextRange}
    (hstands : Text.StandsAt text line.range line.text) (hline : n.defineLine? = some line)
    (hr : macroNameRange? line = some r) : Text.StandsAt text r (Text.leadingName n.defineBody) := by
  obtain ⟨⟨head, rest⟩, hcut, hr⟩ := Option.bind_eq_some_iff.mp hr
  simp only [Option.ite_none_left_eq_some, Option.some.injEq] at hr
  obtain ⟨-, rfl⟩ := hr
  rw [defineBody_of_atBlank? hline hcut, Nat.add_assoc]
  have hblank : Text.size head + 1 = Text.size (head ++ " ") := (Text.size_append head " ").symm
  rw [hblank]
  refine hstands.piece (v := String.ofList (rest.toList.dropWhile (!Text.endsName ·))) ?_
  rw [Text.eq_of_atBlank? hcut]
  nth_rewrite 1 [Text.leadingName_append rest]
  simp only [String.append_assoc]

/-- A macro's name has no range exactly if it has no spelling. -/
theorem macroNameRange?_eq_none_iff {line : Token} (hline : n.defineLine? = some line) :
    macroNameRange? line = none ↔ Text.leadingName n.defineBody = "" := by
  cases hcut : Text.atBlank? line.text with
  | none =>
      have hbody : n.defineBody = "" := by simp [defineBody, hline, hcut]
      rw [hbody]
      simp [macroNameRange?, hcut, Text.leadingName]
  | some cut =>
      obtain ⟨head, rest⟩ := cut
      rw [defineBody_of_atBlank? hline hcut]
      simp [macroNameRange?, hcut, Text.size]

end Node

/-! ### The significant text of a node -/

/-- Tokens without text add nothing to the text of a row. -/
theorem Token.textAll_filter_text (p : Token → Bool) (tokens : List Token) :
    textAll (tokens.filter fun tok => p tok && tok.text != "") = textAll (tokens.filter p) := by
  induction tokens with
  | nil => rfl
  | cons tok tokens ih =>
      by_cases hp : p tok = true
      · by_cases htext : tok.text = ""
        · simp [hp, htext, ih, textAll_cons]
        · simp [hp, htext, ih, textAll_cons]
      · simp [hp, ih]

namespace SourceTree

variable {t : SourceTree} {s : Site}

/-- The token adds text to the significant text of nodes with the range. -/
def contributes (r : TextRange) (tok : Token) : Bool :=
  (tok.isSignificant && tok.text != "") && r.contains tok.range

/-- A token that ends before a range or starts behind it adds nothing to what is in the range. -/
theorem filter_contributes_eq_nil {r : TextRange} {tokens : List Token}
    (h : ∀ tok ∈ tokens, tok.range.stop ≤ r.start ∨ r.stop ≤ tok.range.start) :
    tokens.filter (contributes r) = [] := by
  rw [List.filter_eq_nil_iff]
  intro tok htok hyes
  simp only [contributes, TextRange.contains, Bool.and_eq_true, bne_iff_ne, ne_eq,
    decide_eq_true_eq] at hyes
  have hpos := Text.size_pos hyes.1.2
  have hstop : tok.range.stop = tok.range.start + Text.size tok.text := rfl
  rcases h tok htok with hbefore | hbehind <;> omega

/-- **The significant text of a node is known from its range.** -/
theorem significantText_eq (hs : s ∈ t.node.nodes) : s.1.significantText
    = Token.textAll (t.node.tokens.filter (contributes s.1.range)) := by
  obtain ⟨left, right, hrow, -, hleft, hown, hright⟩ := t.standsIn_nodes hs
  have hbefore : (left.filterMap Leaf.token?).filter (contributes s.1.range) = [] := by
    refine filter_contributes_eq_nil fun tok htok => Or.inl ?_
    exact (hleft.token_bounds (Leaf.mem_tokens.mp htok)).2
  have hbehind : (right.filterMap Leaf.token?).filter (contributes s.1.range) = [] := by
    refine filter_contributes_eq_nil fun tok htok => Or.inr ?_
    exact (hright.token_bounds (Leaf.mem_tokens.mp htok)).1
  have hinside : s.1.tokens.filter (contributes s.1.range)
      = s.1.tokens.filter fun tok => tok.isSignificant && tok.text != "" := by
    refine List.filter_congr fun tok htok => ?_
    rw [contributes, Layout.contains_of_covers hown tok (Leaf.mem_tokens.mp htok), Bool.and_true]
  have htokens : t.node.tokens
      = left.filterMap Leaf.token? ++ s.1.tokens ++ right.filterMap Leaf.token? := by
    show t.node.leaves.filterMap Leaf.token? = _
    rw [show t.node.leaves = left ++ s.1.leaves ++ right from hrow, List.filterMap_append,
      List.filterMap_append]
    rfl
  rw [htokens, List.filter_append, List.filter_append, hbefore, hbehind, hinside, List.nil_append,
    List.append_nil, Token.textAll_filter_text]
  rfl

end SourceTree

/-! ### The names of symbols -/

namespace SymbolKind

/-- The symbols of the kind are named by a token. -/
def isSpelled : SymbolKind → Bool
  | .method | .variable | .parameter | .reference | .includeFile => true
  | _ => false

/-- The symbols of the kind have no name in the text. -/
def isNameless : SymbolKind → Bool
  | .file | .ifStatement | .selection | .inlineClosure | .preprocessor | .expression => true
  | _ => false

end SymbolKind

namespace Site.Reads

variable {l : Layout} {count : Nat} {s : Site} {d : Draft}

theorem spelled (h : s.Reads l count d) (hkind : d.data.kind.isSpelled = true) :
    ∃ tok ∈ s.1.tokens, d.name = tok.text ∧ d.nameRange = some tok.range := by
  cases h with
  | includeFile kind part hspan =>
      exact ⟨_, Node.mem_tokens_of_childTokens (List.mem_of_find?_eq_some part), rfl, rfl⟩
  | function kind part hspan => exact ⟨_, Node.mem_tokens_of_functionIdent? part, rfl, rfl⟩
  | parameter kind part hspan => exact ⟨_, Node.mem_tokens_of_nameIdent? part, rfl, rfl⟩
  | declarator kind htype part hspan => exact ⟨_, Node.mem_tokens_of_nameIdent? part, rfl, rfl⟩
  | identifier kind part hspan => exact ⟨_, Node.mem_tokens_of_token? part, rfl, rfl⟩
  | define | directive | inheritFile | ifStatement | clause | closure | primary =>
      simp [SymbolData.kind, SymbolKind.isSpelled] at hkind

theorem nameless (h : s.Reads l count d) (hkind : d.data.kind.isNameless = true) :
    d.nameRange = none := by
  cases h with
  | directive | ifStatement | clause | closure | primary => rfl
  | define | includeFile | inheritFile | function | parameter | declarator | identifier =>
      simp [SymbolData.kind, SymbolKind.isNameless] at hkind

/-- What an inherit statement names is the significant text of its target. -/
theorem inherited (h : s.Reads l count d) (hkind : d.data.kind = .inheritFile) :
    ∃ target, s.1.kind = .inheritStatement ∧ s.1.inheritTarget? = some target ∧
      target.significantText = d.name ∧ d.nameRange = some target.range := by
  cases h with
  | @inheritFile n target around text span kind part htext hspan =>
      simp only [Node.targetText?, Option.ite_none_left_eq_some, Option.some.injEq] at htext
      exact ⟨target, kind, part, htext.2, rfl⟩
  | _ => simp [SymbolData.kind] at hkind

/-- A macro definition keeps the body, and its name has the range that is found in its line. -/
theorem defined (h : s.Reads l count d) (hkind : d.data.kind = .define) :
    ∃ line, s.1.defineLine? = some line ∧ d.data = .define s.1.defineBody ∧
      d.nameRange = Node.macroNameRange? line := by
  cases h with
  | define kind part hspan =>
      obtain ⟨line, hline, -⟩ := Option.map_eq_some_iff.mp part
      exact ⟨line, hline, rfl, by simp [hline]⟩
  | _ => simp [SymbolData.kind] at hkind

end Site.Reads

end LpcSymbols
