/-
Which names overlap.

A name stands in a token, and the token is right below a node: below the construct itself, or
below a name in it.  The node is known from the construct and the construct from the node
(`Names.unique`), and a token right below a node has no bytes in common with the other nodes
below it.  So different constructs have names with different bytes.

The exception is an inherit statement.  Its name is a node, and nothing keeps other constructs
from standing in that node.  An identifier that is inherited is the name of what is inherited
and a reference as well.
-/
import LpcSymbols.Proofs.Highlights
import LpcSymbols.Proofs.Innermost

namespace LpcSymbols

/-- No byte is in both ranges. -/
def TextRange.Apart (p q : TextRange) : Prop := p.stop ≤ q.start ∨ q.stop ≤ p.start

theorem TextRange.Apart.symm {p q : TextRange} (h : p.Apart q) : q.Apart p := Or.symm h

/-- Ranges inside ranges that are apart are apart. -/
theorem TextRange.Apart.within {p q r s : TextRange} (h : r.Apart s) (hp : p.Within r)
    (hq : q.Within s) : p.Apart q :=
  h.imp (fun h => Nat.le_trans hp.stop_le (Nat.le_trans h hq.start_le))
    fun h => Nat.le_trans hq.stop_le (Nat.le_trans h hp.start_le)

/-- Ranges that are not apart have a range in common, if they are not empty. -/
theorem TextRange.exists_within {p q : TextRange} (hp : p.start < p.stop) (hq : q.start < q.stop)
    (h : ¬ p.Apart q) : ∃ c : TextRange, c.start < c.stop ∧ c.Within p ∧ c.Within q := by
  have hno : q.start < p.stop ∧ p.start < q.stop := by
    simpa [Apart, not_or] using h
  refine ⟨⟨max p.start q.start, min p.stop q.stop⟩, ?_, ⟨?_, ?_, ?_⟩, ⟨?_, ?_, ?_⟩⟩ <;>
    simp only [] <;> omega

/-! ### Tokens right below a node -/

/-- The elements of a placed row follow one another. -/
theorem Element.pairwise_placeAll (es : List Element) : ∀ start before : Nat,
    (placeAll start before es).Pairwise fun p q => p.range.stop ≤ q.range.start := by
  induction es with
  | nil =>
      intro start before
      exact .nil
  | cons e es ih =>
      intro start before
      refine List.pairwise_cons.mpr ⟨?_, ih _ _⟩
      intro q hq
      obtain ⟨x, a, b, rfl, hstart, -⟩ := mem_placeAll es _ _ hq
      rw [range_place, range_place]
      exact hstart

/-- The tokens among the children of a node are apart from the nodes among them. -/
theorem Node.IsPlaced.apart_children {n m : Node} {tok : Token} (h : n.IsPlaced)
    (htok : tok ∈ n.childTokens) (hm : m ∈ n.childNodes) : tok.range.Apart m.range := by
  obtain ⟨p, hp, hptok⟩ := List.mem_filterMap.mp htok
  obtain ⟨q, hq, hqm⟩ := List.mem_filterMap.mp hm
  obtain ⟨tag, start, before, children, rfl⟩ := h
  have hrow : (Element.placeAll start before children).Pairwise fun p q => p.range.Apart q.range :=
    (Element.pairwise_placeAll children start before).imp Or.inl
  have hsymm : Std.Symm fun p q : Placed => p.range.Apart q.range := ⟨fun _ _ => Or.symm⟩
  cases p with
  | node kind range before children => simp [Placed.token?] at hptok
  | token u =>
      cases q with
      | token v => simp [Placed.node?] at hqm
      | node kind range before children =>
          obtain rfl := Option.some.inj hptok
          obtain rfl := Option.some.inj hqm
          exact hrow.forall hp hq (by simp)

namespace Placed

variable {s : Site}

mutual

theorem nodes_parent : ∀ (p : Placed) (around : List Node), s ∈ p.nodes around →
    p.node? = some s.1 ∧ s.2 = around ∨ ∃ n rest, s.2 = n :: rest ∧ s.1 ∈ n.childNodes
  | .token _, _, hs => by simp [nodes] at hs
  | .node kind range before children, around, hs => by
    rw [nodes] at hs
    rcases List.mem_cons.mp hs with rfl | hs
    · exact Or.inl ⟨rfl, rfl⟩
    · right
      rcases nodesAll_parent children _ hs with ⟨hmem, haround⟩ | hparent
      · exact ⟨_, around, haround, hmem⟩
      · exact hparent

/-- A node below a row is one of the row, or a child of the nearest node around it. -/
theorem nodesAll_parent : ∀ (ps : List Placed) (around : List Node), s ∈ nodesAll around ps →
    s.1 ∈ ps.filterMap node? ∧ s.2 = around ∨ ∃ n rest, s.2 = n :: rest ∧ s.1 ∈ n.childNodes
  | [], _, hs => by simp [nodesAll] at hs
  | p :: ps, around, hs => by
    rw [nodesAll, List.mem_append] at hs
    rcases hs with hs | hs
    · refine (nodes_parent p around hs).imp_left (And.imp_left fun hp => ?_)
      exact List.mem_filterMap.mpr ⟨p, List.mem_cons_self, hp⟩
    · refine (nodesAll_parent ps around hs).imp_left (And.imp_left fun hmem => ?_)
      obtain ⟨q, hq, hnode⟩ := List.mem_filterMap.mp hmem
      exact List.mem_filterMap.mpr ⟨q, List.mem_cons_of_mem _ hq, hnode⟩

end

end Placed

namespace SourceTree

variable {t : SourceTree} {s r : Site}

/-- A node has all nodes around it as ancestors, so its parent is the nearest of them. -/
theorem mem_childNodes_of_mem_nodes {m n : Node} {around : List Node}
    (h : (m, n :: around) ∈ t.node.nodes) : m ∈ n.childNodes := by
  rcases Placed.nodes_parent t.node.toPlaced [] h with ⟨-, hnil⟩ | ⟨n', rest, haround, hmem⟩
  · simp at hnil
  · obtain ⟨rfl, -⟩ := List.cons.inj haround
    exact hmem

/-- A node around another one has a child that is the other one or around it. -/
theorem exists_child_of_outward (hr : r ∈ t.node.nodes) (hs : s ∈ Site.outward r.2) :
    ∃ c ∈ s.1.childNodes, (c, s.1 :: s.2) = r ∨ (c, s.1 :: s.2) ∈ Site.outward r.2 := by
  obtain ⟨m, around⟩ := r
  induction around generalizing m with
  | nil => simp [Site.outward] at hs
  | cons n around ih =>
      rcases List.mem_cons.mp hs with rfl | hs
      · exact ⟨m, mem_childNodes_of_mem_nodes hr, Or.inl rfl⟩
      · have hn : (n, around) ∈ t.node.nodes := t.mem_nodes_of_outward hr List.mem_cons_self
        obtain ⟨c, hc, hchain⟩ := ih n hn hs
        exact ⟨c, hc, Or.inr (List.mem_cons.mpr hchain)⟩

/-- **A token right below a node is apart from the nodes below it.** -/
theorem apart_of_childTokens {tok : Token} (hr : r ∈ t.node.nodes) (hs : s ∈ Site.outward r.2)
    (htok : tok ∈ s.1.childTokens) : tok.range.Apart r.1.range := by
  obtain ⟨c, hc, hchain⟩ := exists_child_of_outward hr hs
  have hapart := (t.isPlaced_nodes (t.mem_nodes_of_outward hr hs)).apart_children htok hc
  refine hapart.within (.refl (Nat.le_add_right _ _)) ?_
  rcases hchain with rfl | hout
  · exact .refl (t.range_within hr).le
  · exact (t.inside_of_outward hr hout).range

end SourceTree

/-! ### Where the name of a construct stands -/

/-- The name of the construct at the first site stands at the range, which is in a token right below
the second site.  If the construct is an inherit statement, it is the range of the second site. -/
inductive Site.Names : Site → Site → TextRange → Prop
  | own {n : Node} {around : List Node} {tok : Token} {p : TextRange}
      (kind : n.kind = .defineDirective ∨ n.kind = .includeDirective ∨ n.kind = .identExpr)
      (htok : tok ∈ n.childTokens) (hp : p.Within tok.range) :
      Names (n, around) (n, around) p
  | name {n name : Node} {around : List Node} {tok : Token} {p : TextRange}
      (kind : n.kind = .param ∨ n.kind = .variableDeclarator) (hname : n.name? = some name)
      (htok : tok ∈ name.childTokens) (hp : p.Within tok.range) :
      Names (n, around) (name, n :: around) p
  | header {n header name : Node} {around : List Node} {tok : Token} {p : TextRange}
      (kind : n.kind = .functionDecl) (hheader : n.header? = some header)
      (hname : header.name? = some name) (htok : tok ∈ name.childTokens)
      (hp : p.Within tok.range) : Names (n, around) (name, header :: n :: around) p
  | target {n target : Node} {around : List Node} (kind : n.kind = .inheritStatement)
      (htarget : n.inheritTarget? = some target) :
      Names (n, around) (target, n :: around) target.range

theorem Node.kind_of_child? {n m : Node} {kind : Kind} (h : n.child? kind = some m) :
    m.kind = kind := by
  simpa using List.find?_some h

/-- The nodes between a construct and its name. -/
def Kind.isNaming (k : Kind) : Bool := k == .name || k == .functionHeader || k == .inheritTarget

/-- The nearest construct that the name at a site may be of. -/
def Site.named (n : Node) : List Node → Site
  | [] => (n, [])
  | m :: around => if n.kind.isNaming then named m around else (n, m :: around)

namespace Site

theorem named_of_construct {n : Node} (hkind : n.kind.isNaming = false) (around : List Node) :
    named n around = (n, around) := by
  cases around with
  | nil => rfl
  | cons m around => simp [named, hkind]

theorem named_of_naming {n : Node} (hkind : n.kind.isNaming = true) (m : Node) (around : List Node) :
    named n (m :: around) = named m around := if_pos hkind

end Site

namespace Site.Names

variable {s r h : Site} {p q : TextRange}

/-- **The construct is known from the node that has its name.** -/
theorem named_eq (hs : s.Names h p) : named h.1 h.2 = s := by
  cases hs with
  | own kind htok hp =>
      exact named_of_construct (by rcases kind with kind | kind | kind <;> rw [kind] <;> rfl) _
  | name kind hname htok hp =>
      rw [named_of_naming (by rw [Node.kind_of_child? hname]; rfl)]
      exact named_of_construct (by rcases kind with kind | kind <;> rw [kind] <;> rfl) _
  | header kind hheader hname htok hp =>
      rw [named_of_naming (by rw [Node.kind_of_child? hname]; rfl),
        named_of_naming (by rw [Node.kind_of_child? hheader]; rfl)]
      exact named_of_construct (by rw [kind]; rfl) _
  | target kind htarget =>
      rw [named_of_naming (by rw [Node.kind_of_child? htarget]; rfl)]
      exact named_of_construct (by rw [kind]; rfl) _

theorem mem_nodes {t : SourceTree} (hs : s.Names h p) (hmem : s ∈ t.node.nodes) :
    h ∈ t.node.nodes := by
  cases hs with
  | own kind htok hp => exact hmem
  | name kind hname htok hp =>
      exact SourceTree.mem_nodes_of_childNodes hmem (List.mem_of_find?_eq_some hname)
  | header kind hheader hname htok hp =>
      have hheader' := SourceTree.mem_nodes_of_childNodes hmem (List.mem_of_find?_eq_some hheader)
      exact SourceTree.mem_nodes_of_childNodes hheader' (List.mem_of_find?_eq_some hname)
  | target kind htarget =>
      exact SourceTree.mem_nodes_of_childNodes hmem (List.mem_of_find?_eq_some htarget)

/-- The name lies inside the node that has it. -/
theorem within {t : SourceTree} (hs : s.Names h p) (hmem : s ∈ t.node.nodes) :
    p.Within h.1.range := by
  have hplaced := t.isPlaced_nodes (hs.mem_nodes hmem)
  have hrange := t.range_within (hs.mem_nodes hmem)
  cases hs with
  | own kind htok hp => exact hp.trans (hplaced.childToken htok)
  | name kind hname htok hp => exact hp.trans (hplaced.childToken htok)
  | header kind hheader hname htok hp => exact hp.trans (hplaced.childToken htok)
  | target kind htarget => exact .refl hrange.le

/-- The target of an inherit statement around the name of a construct is around the construct. -/
theorem outward_of_target {m : Site} (hs : s.Names h p) (hm : m ∈ outward h.2)
    (hkind : m.1.kind = .inheritTarget) : m ∈ outward s.2 := by
  cases hs with
  | own kind htok hp => exact hm
  | name kind hname htok hp =>
      rcases List.mem_cons.mp hm with rfl | hm
      · rcases kind with kind | kind <;> simp [kind] at hkind
      · exact hm
  | header kind hheader hname htok hp =>
      rcases List.mem_cons.mp hm with rfl | hm
      · simp [Node.kind_of_child? hheader] at hkind
      · rcases List.mem_cons.mp hm with rfl | hm
        · simp [kind] at hkind
        · exact hm
  | target kind htarget =>
      rcases List.mem_cons.mp hm with rfl | hm
      · simp [kind] at hkind
      · exact hm

end Site.Names

/-- The first site is an inherit statement, and its target is around the second site. -/
def Site.TargetAround (s r : Site) : Prop :=
  ∃ target, s.1.kind = .inheritStatement ∧ s.1.inheritTarget? = some target ∧
    (target, s.1 :: s.2) ∈ outward r.2

namespace SourceTree

variable {t : SourceTree} {s r h k : Site} {p q : TextRange}

/-- If a name has bytes in common with a node below the one that has the name, then that one is the
target of an inherit statement. -/
theorem targetAround_of_outward (hr : r ∈ t.node.nodes) (hp : s.Names h p) (hq : r.Names k q)
    (hout : h ∈ Site.outward k.2) (hover : ¬ p.Apart k.1.range) : s.TargetAround r := by
  have hk := hq.mem_nodes hr
  have hself : k.1.range.Within k.1.range := .refl (t.range_within hk).le
  have htokens : ∀ tok ∈ h.1.childTokens, p.Within tok.range → s.TargetAround r := by
    intro tok htok hin
    exact absurd ((apart_of_childTokens hk hout htok).within hin hself) hover
  cases hp with
  | own kind htok hin => exact htokens _ htok hin
  | name kind hname htok hin => exact htokens _ htok hin
  | header kind hheader hname htok hin => exact htokens _ htok hin
  | target kind htarget =>
      exact ⟨_, kind, htarget, hq.outward_of_target hout (Node.kind_of_child? htarget)⟩

/-- **The names of two constructs are apart, or one construct is in what the other inherits.** -/
theorem apart_or_targetAround (hs : s ∈ t.node.nodes) (hr : r ∈ t.node.nodes) (hne : s ≠ r)
    (hp : s.Names h p) (hq : r.Names k q) (hppos : p.start < p.stop) (hqpos : q.start < q.stop) :
    p.Apart q ∨ s.TargetAround r ∨ r.TargetAround s := by
  by_cases hapart : p.Apart q
  · exact Or.inl hapart
  obtain ⟨c, hc, hcp, hcq⟩ := TextRange.exists_within hppos hqpos hapart
  have hph := hp.within hs
  have hqk := hq.within hr
  rcases t.around_of_within (hp.mem_nodes hs) (hq.mem_nodes hr) hc (hcp.trans hph) (hcq.trans hqk)
    with rfl | hout | hout
  · exact absurd (hp.named_eq.symm.trans hq.named_eq) hne
  · refine Or.inr (Or.inl (targetAround_of_outward hr hp hq hout ?_))
    intro hno
    exact hapart (hno.within (.refl (Nat.le_of_lt hppos)) hqk)
  · refine Or.inr (Or.inr (targetAround_of_outward hs hq hp hout ?_))
    intro hno
    exact hapart (hno.within (.refl (Nat.le_of_lt hqpos)) hph).symm

end SourceTree

/-! ### The names of symbols -/

theorem Node.macroNameRange?_pos {line : Token} {p : TextRange}
    (h : macroNameRange? line = some p) : p.start < p.stop := by
  obtain ⟨⟨head, rest⟩, -, h⟩ := Option.bind_eq_some_iff.mp h
  simp only [Option.ite_none_left_eq_some, Option.some.injEq] at h
  obtain ⟨hpos, rfl⟩ := h
  exact Nat.lt_add_of_pos_right (Nat.pos_of_ne_zero hpos)

theorem Site.Reads.names {l : Layout} {count : Nat} {s : Site} {d : Draft} {p : TextRange}
    (h : s.Reads l count d) (hp : d.nameRange = some p) : ∃ k, s.Names k p := by
  have hself : ∀ tok : Token, tok.range.Within tok.range := fun tok => .refl (Nat.le_add_right _ _)
  cases h with
  | define kind part hspan =>
      obtain ⟨line, hline, hname⟩ := Option.bind_eq_some_iff.mp hp
      exact ⟨_, .own (.inl kind) (List.mem_of_find?_eq_some hline)
        (Node.macroNameRange?_within hname)⟩
  | includeFile kind part hspan =>
      obtain rfl := Option.some.inj hp
      exact ⟨_, .own (.inr (.inl kind)) (List.mem_of_find?_eq_some part) (hself _)⟩
  | inheritFile kind part htext hspan =>
      obtain rfl := Option.some.inj hp
      exact ⟨_, .target kind part⟩
  | function kind part hspan =>
      obtain rfl := Option.some.inj hp
      obtain ⟨header, hheader, part⟩ := Option.bind_eq_some_iff.mp part
      obtain ⟨name, hname, part⟩ := Option.bind_eq_some_iff.mp part
      exact ⟨_, .header kind hheader hname (List.mem_of_find?_eq_some part) (hself _)⟩
  | parameter kind part hspan =>
      obtain rfl := Option.some.inj hp
      obtain ⟨name, hname, part⟩ := Option.bind_eq_some_iff.mp part
      exact ⟨_, .name (.inl kind) hname (List.mem_of_find?_eq_some part) (hself _)⟩
  | declarator kind htype part hspan =>
      obtain rfl := Option.some.inj hp
      obtain ⟨name, hname, part⟩ := Option.bind_eq_some_iff.mp part
      exact ⟨_, .name (.inr kind) hname (List.mem_of_find?_eq_some part) (hself _)⟩
  | identifier kind part hspan =>
      obtain rfl := Option.some.inj hp
      exact ⟨_, .own (.inr (.inr kind)) (List.mem_of_find?_eq_some part) (hself _)⟩
  | directive | ifStatement | clause | closure | primary => simp at hp

theorem Node.IsPlaced.token_within {n : Node} {tok : Token} (h : n.IsPlaced)
    (htok : tok ∈ n.tokens) : tok.range.Within n.range := by
  obtain ⟨tag, start, before, children, rfl⟩ := h
  have hmem : tok ∈ Placed.tokensAll (Element.placeAll start before children) := by
    rw [← Placed.tokens_node]
    exact htok
  obtain ⟨hlo, hhi⟩ :=
    (Element.covers_placeAll start before children).token_bounds (Leaf.mem_tokens.mp hmem)
  exact ⟨hlo, Nat.le_add_right _ _, hhi⟩

/-- If tokens have text, names are not empty. -/
theorem Site.Reads.name_pos {l : Layout} {count : Nat} {s : Site} {d : Draft} {p : TextRange}
    (h : s.Reads l count d) (hplaced : s.1.IsPlaced) (htext : ∀ tok ∈ s.1.tokens, tok.text ≠ "")
    (hp : d.nameRange = some p) : p.start < p.stop := by
  by_cases hspelled : d.data.kind.isSpelled = true
  · obtain ⟨tok, htok, -, hrange⟩ := h.spelled hspelled
    obtain rfl := Option.some.inj (hp.symm.trans hrange)
    exact Nat.lt_add_of_pos_right (Text.size_pos (htext tok htok))
  · cases h with
    | define kind part hspan =>
        obtain ⟨line, -, hname⟩ := Option.bind_eq_some_iff.mp hp
        exact Node.macroNameRange?_pos hname
    | @inheritFile n target around text span kind part hsome hspan =>
        obtain rfl := Option.some.inj hp
        obtain ⟨htarget, -⟩ := hplaced.child? part
        -- The target has text, so it has a token, and that is not empty.
        obtain ⟨tok, htok⟩ : ∃ tok, tok ∈ target.tokens := by
          by_contra hnone
          have hnil : target.tokens = [] := by
            apply List.eq_nil_iff_forall_not_mem.mpr
            intro tok htok
            exact hnone ⟨tok, htok⟩
          simp [Node.targetText?, Node.significantText, hnil] at hsome
        have hpos := Text.size_pos (htext tok
          (Node.mem_tokens_of_childNodes (List.mem_of_find?_eq_some part) htok))
        have hwithin := htarget.token_within htok
        have hlt : tok.range.start < tok.range.stop := Nat.lt_add_of_pos_right hpos
        exact Nat.lt_of_le_of_lt hwithin.start_le (Nat.lt_of_lt_of_le hlt hwithin.stop_le)
    | directive | ifStatement | clause | closure | primary => simp at hp
    | includeFile | function | parameter | declarator | identifier =>
        simp [SymbolData.kind, SymbolKind.isSpelled] at hspelled

namespace SourceTree

variable {t : SourceTree} {e f : Entry} {p q : TextRange}

theorem AllText.name_pos (h : t.AllText) (he : e ∈ t.entries) (hp : e.draft.nameRange = some p) :
    p.start < p.stop := by
  obtain ⟨count, hreads⟩ := reads_of_entry he
  have hmem := site_mem_nodes he
  exact hreads.name_pos (t.isPlaced_nodes hmem) (fun tok htok => h tok (mem_tokens_of_site hmem htok))
    hp

/-- The first symbol is that of an inherit statement whose target is around the node of the second. -/
def InTarget (t : SourceTree) (i j : SymbolId) : Prop :=
  ∃ s r, t.origin? i = some s ∧ t.origin? j = some r ∧ s.TargetAround r

/-- A name in the target of an inherit statement lies inside the target. -/
theorem within_of_targetAround (he : e ∈ t.entries) (hf : f ∈ t.entries)
    (h : e.site.TargetAround f.site) (hp : e.draft.nameRange = some p)
    (hq : f.draft.nameRange = some q) : q.Within p := by
  obtain ⟨target, hkind, htarget, hout⟩ := h
  obtain ⟨_, hreads⟩ := reads_of_entry he
  obtain ⟨_, hreads'⟩ := reads_of_entry hf
  have hmem := site_mem_nodes hf
  have hrange : e.site.1.nameRange? = some target.range := by
    simp [Node.nameRange?, hkind, htarget]
  obtain rfl : target.range = p := Option.some.inj
    (hrange.symm.trans (hreads.nameRange.symm.trans hp))
  have hname := (t.isPlaced_nodes hmem).nameRange?_within (hreads'.nameRange.symm.trans hq)
  exact hname.trans (t.inside_of_outward hmem hout).range

theorem entry_of_nameRange {i : SymbolId} {s : Symbol} (hs : t.model.table.get? i = some s)
    (hp : s.nameRange = some p) : ∃ e ∈ t.entries, e.id = i ∧ e.symbol = s := by
  apply entry_of_get? hs
  intro hroot
  have hfile : t.model.table.get? SymbolId.root = some t.fileSymbol := rfl
  rw [hroot, hfile] at hs
  obtain rfl := Option.some.inj hs
  have hnone : t.fileSymbol.nameRange = none := rfl
  rw [hnone] at hp
  simp at hp

/-- **The names of two symbols are apart, or one of the symbols is in what the other inherits.** -/
theorem AllText.apart_or_inTarget (h : t.AllText) {i j : SymbolId} {s r : Symbol}
    (hs : t.model.table.get? i = some s) (hr : t.model.table.get? j = some r) (hne : i ≠ j)
    (hp : s.nameRange = some p) (hq : r.nameRange = some q) :
    p.Apart q ∨ (t.InTarget i j ∧ q.Within p) ∨ (t.InTarget j i ∧ p.Within q) := by
  obtain ⟨e, he, rfl, rfl⟩ := entry_of_nameRange hs hp
  obtain ⟨f, hf, rfl, rfl⟩ := entry_of_nameRange hr hq
  have hoe := (get?_model_of_entry he).2
  have hof := (get?_model_of_entry hf).2
  have hsite : e.site ≠ f.site := by
    intro hsame
    rw [hsame] at hoe
    exact hne (origin?_injective hof hoe)
  obtain ⟨_, hreads⟩ := reads_of_entry he
  obtain ⟨_, hreads'⟩ := reads_of_entry hf
  obtain ⟨_, hnames⟩ := hreads.names hp
  obtain ⟨_, hnames'⟩ := hreads'.names hq
  rcases apart_or_targetAround (site_mem_nodes he) (site_mem_nodes hf) hsite hnames hnames'
    (h.name_pos he hp) (h.name_pos hf hq) with hapart | htarget | htarget
  · exact Or.inl hapart
  · exact Or.inr (Or.inl ⟨⟨_, _, hoe, hof, htarget⟩, within_of_targetAround he hf htarget hp hq⟩)
  · exact Or.inr (Or.inr ⟨⟨_, _, hof, hoe, htarget⟩, within_of_targetAround hf he htarget hq hp⟩)

end SourceTree

/-! ### The highlights of a file -/

/-- Highlights in the order of their places are strictly in that order, if their names are apart. -/
theorem Highlight.before_of_apart {text : String} {x y : Highlight} {s r : Symbol}
    {p q : TextRange} (hx : ofSymbol? (.ofText text) s = some x)
    (hy : ofSymbol? (.ofText text) r = some y) (hp : s.nameRange = some p)
    (hq : r.nameRange = some q) (hppos : p.start < p.stop) (hqpos : q.start < q.stop)
    (hapart : p.Apart q) (hsorted : x.startsBefore y = true) : x.place.Before y.place := by
  obtain ⟨p', hp', hxplace, -⟩ := ofSymbol?_spec hx
  obtain ⟨q', hq', hyplace, -⟩ := ofSymbol?_spec hy
  obtain rfl := Option.some.inj (hp.symm.trans hp')
  obtain rfl := Option.some.inj (hq.symm.trans hq')
  rw [startsBefore_iff, hxplace, hyplace] at hsorted
  rw [hxplace, hyplace]
  rcases hapart with hpq | hqp
  · exact LineMap.lineCol_lt text (Nat.lt_of_lt_of_le hppos hpq)
  · have hbefore := LineMap.lineCol_lt text (Nat.lt_of_lt_of_le hqpos hqp)
    omega

namespace SourceTree

variable {t : SourceTree}

/-- Of two highlights, the first is strictly before the second, or one of their symbols is in what
the other inherits. -/
theorem AllText.before_or_inTarget (h : t.AllText) (hwf : t.model.table.WellFormed) {x y : Highlight}
    {s r : Symbol} (hs : s ∈ t.model.table.toList) (hr : r ∈ t.model.table.toList)
    (hne : s.id ≠ r.id) (hx : Highlight.ofSymbol? t.model.lines s = some x)
    (hy : Highlight.ofSymbol? t.model.lines r = some y) (hsorted : x.startsBefore y = true) :
    x.place.Before y.place ∨ t.InTarget s.id r.id ∨ t.InTarget r.id s.id := by
  obtain ⟨p, hp, -⟩ := Highlight.ofSymbol?_spec hx
  obtain ⟨q, hq, -⟩ := Highlight.ofSymbol?_spec hy
  have hgs := hwf.get?_of_mem hs
  have hgr := hwf.get?_of_mem hr
  rcases h.apart_or_inTarget hgs hgr hne hp hq with hapart | ⟨htarget, -⟩ | ⟨htarget, -⟩
  · obtain ⟨e, he, -, rfl⟩ := entry_of_nameRange hgs hp
    obtain ⟨f, hf, -, rfl⟩ := entry_of_nameRange hgr hq
    exact Or.inl (Highlight.before_of_apart hx hy hp hq (h.name_pos he hp) (h.name_pos hf hq) hapart
      hsorted)
  · exact Or.inr (Or.inl htarget)
  · exact Or.inr (Or.inr htarget)

/-- Along the highlights with their symbols. -/
theorem AllText.pairwise_before (h : t.AllText) (hwf : t.model.table.WellFormed)
    {order : List Symbol} (hperm : order.Perm (t.model.table.toList.filter (·.nameRange.isSome)))
    (hmarks : List.Forall₂ (fun x s => Highlight.ofSymbol? t.model.lines s = some x)
      t.model.highlights order)
    (hsorted : t.model.highlights.Pairwise fun a b => a.startsBefore b = true) :
    (t.model.highlights.zip order).Pairwise fun x y => x.1.place.Before y.1.place ∨
      t.InTarget x.2.id y.2.id ∨ t.InTarget y.2.id x.2.id := by
  obtain ⟨hlength, hmarks⟩ := List.forall₂_iff_zip.mp hmarks
  have hfirst : (t.model.highlights.zip order).map Prod.fst = t.model.highlights :=
    List.map_fst_zip (Nat.le_of_eq hlength)
  have hsecond : (t.model.highlights.zip order).map Prod.snd = order :=
    List.map_snd_zip (Nat.le_of_eq hlength.symm)
  have hids : order.Pairwise fun s r => s.id ≠ r.id := by
    have hascending := hwf.filter_ascending (·.nameRange.isSome)
    have hnodup : ((t.model.table.toList.filter (·.nameRange.isSome)).map (·.id)).Nodup :=
      hascending.imp Nat.ne_of_lt
    exact List.pairwise_map.mp ((hperm.map Symbol.id).nodup_iff.mpr hnodup)
  rw [← hfirst, List.pairwise_map] at hsorted
  rw [← hsecond, List.pairwise_map] at hids
  have hmem : ∀ x ∈ t.model.highlights.zip order, x.2 ∈ t.model.table.toList := by
    intro x hx
    have horder : x.2 ∈ order := (List.of_mem_zip hx).2
    exact (List.mem_filter.mp (hperm.mem_iff.mp horder)).1
  refine (hsorted.and hids).imp_of_mem ?_
  intro x y hx hy hboth
  exact h.before_or_inTarget hwf (hmem x hx) (hmem y hy) hboth.2 (hmarks hx) (hmarks hy) hboth.1

end SourceTree

/-- **Highlights overlap only inside the targets of inherit statements, and apart from these they are
strictly in the order of their places.** -/
theorem Analysis.highlights_apart {t : SourceTree} (h : t.AllText) :
    (t.InBounds → ∃ a, Analysis.ofTree t = .ok a) ∧ ∀ a, Analysis.ofTree t = .ok a →
      (∀ i j s r p q, a.model.table.get? i = some s → a.model.table.get? j = some r → i ≠ j →
        s.nameRange = some p → r.nameRange = some q →
          p.Apart q ∨ (t.InTarget i j ∧ q.Within p) ∨ (t.InTarget j i ∧ p.Within q)) ∧
      ∃ order : List Symbol, order.Perm (a.model.table.toList.filter (·.nameRange.isSome)) ∧
        List.Forall₂ (fun x s => ∃ r, a.model.MarksName x s r) a.model.highlights order ∧
        ((a.model.highlights.zip order).Pairwise fun x y => x.1.place.Before y.1.place ∨
          t.InTarget x.2.id y.2.id ∨ t.InTarget y.2.id x.2.id) ∧
        ((∀ s ∈ order, ∀ r ∈ order, ¬ t.InTarget s.id r.id) →
          a.model.highlights.Pairwise fun x y => x.place.Before y.place) := by
  refine ⟨fun h => ⟨_, Analysis.ofTree_of_inBounds h⟩, ?_⟩
  intro a ha
  have hwf := wellFormed_table ha
  obtain ⟨-, rfl⟩ := Analysis.ofTree_ok_iff.mp ha
  obtain ⟨order, hperm, hmarks, hsorted⟩ := t.exists_order_model
  have hpairs := h.pairwise_before hwf hperm (hmarks.imp fun _ _ hh => hh.1) hsorted
  refine ⟨fun i j s r p q hs hr hne hp hq => h.apart_or_inTarget hs hr hne hp hq, order, hperm,
    hmarks.imp fun _ _ hh => hh.2, hpairs, ?_⟩
  intro hnone
  have hfirst : (t.model.highlights.zip order).map Prod.fst = t.model.highlights :=
    List.map_fst_zip (Nat.le_of_eq hmarks.length_eq)
  show t.model.highlights.Pairwise _
  rw [← hfirst, List.pairwise_map]
  refine hpairs.imp_of_mem ?_
  intro x y hx hy hxy
  have hxo := (List.of_mem_zip hx).2
  have hyo := (List.of_mem_zip hy).2
  rcases hxy with hbefore | htarget | htarget
  · exact hbefore
  · exact absurd htarget (hnone _ hxo _ hyo)
  · exact absurd htarget (hnone _ hyo _ hxo)

/-- An identifier, and an inherit statement whose target is an identifier. -/
def SourceTree.inheriting : SourceTree :=
  .ofItems ⟨0⟩ {}
    [.node Kind.identExpr.tag [.token Kind.ident.tag "x"],
     .node Kind.inheritStatement.tag
      [.node Kind.inheritTarget.tag [.node Kind.identExpr.tag [.token Kind.ident.tag "BASE"]]]]

theorem Analysis.highlights_apart_inheriting :
    SourceTree.inheriting.AllText ∧ SourceTree.inheriting.InBounds ∧
      ∃ a, Analysis.ofTree .inheriting = .ok a ∧
        (a.model.table.toList.map fun s => (s.name, s.nameRange)) =
          [("file#0", none), ("x", some ⟨0, 1⟩), ("BASE", some ⟨1, 5⟩), ("BASE", some ⟨1, 5⟩)] ∧
        (SourceTree.inheriting.InTarget 2 3 ∨ SourceTree.inheriting.InTarget 3 2) := by
  have htext : SourceTree.inheriting.AllText := by
    unfold SourceTree.AllText
    decide +kernel
  have hbounds : SourceTree.inheriting.InBounds := ⟨by decide +kernel, by decide +kernel⟩
  have hnames : ((Analysis.ofTree .inheriting).toOption.map fun a =>
      (a.model.table.toList.map fun s => (s.name, s.nameRange),
       (a.model.table.get? 2).map (·.nameRange), (a.model.table.get? 3).map (·.nameRange))) = some
        ([("file#0", none), ("x", some ⟨0, 1⟩), ("BASE", some ⟨1, 5⟩), ("BASE", some ⟨1, 5⟩)],
         some (some ⟨1, 5⟩), some (some ⟨1, 5⟩)) := by decide +kernel
  obtain ⟨hok, hapart⟩ := highlights_apart htext
  obtain ⟨a, ha⟩ := hok hbounds
  rw [ha] at hnames
  obtain ⟨hsymbols, hranges⟩ := Prod.mk.inj (Option.some.inj hnames)
  obtain ⟨hsecond, hthird⟩ := Prod.mk.inj hranges
  obtain ⟨s, hs, hp⟩ := Option.map_eq_some_iff.mp hsecond
  obtain ⟨r, hr, hq⟩ := Option.map_eq_some_iff.mp hthird
  refine ⟨htext, hbounds, a, ha, hsymbols, ?_⟩
  rcases (hapart a ha).1 2 3 s r _ _ hs hr (by decide) hp hq with hno | ⟨htarget, -⟩ | ⟨htarget, -⟩
  · simp [TextRange.Apart] at hno
  · exact Or.inl htarget
  · exact Or.inr htarget

/-- **An inherited identifier is highlighted twice.** -/
theorem Analysis.highlights_overlap :
    SourceTree.inheriting.AllText ∧ ∃ a s r p q, Analysis.ofTree .inheriting = .ok a ∧
      a.model.table.get? 2 = some s ∧ a.model.table.get? 3 = some r ∧
      s.nameRange = some p ∧ r.nameRange = some q ∧ ¬ p.Apart q ∧
      ¬ a.model.highlights.Pairwise fun x y => x.place.Before y.place := by
  have htext : SourceTree.inheriting.AllText := by
    unfold SourceTree.AllText
    decide +kernel
  have hmarks : ((Analysis.ofTree .inheriting).toOption.map fun a =>
      (a.model.table.toList.filterMap (Highlight.ofSymbol? a.model.lines),
       (a.model.table.get? 2).map (·.nameRange), (a.model.table.get? 3).map (·.nameRange))) = some
        ([⟨⟨0, 0⟩, 1, .variableName⟩, ⟨⟨0, 1⟩, 4, .namespaceName⟩, ⟨⟨0, 1⟩, 4, .variableName⟩],
         some (some ⟨1, 5⟩), some (some ⟨1, 5⟩)) := by decide +kernel
  obtain ⟨a, ha⟩ : ∃ a, Analysis.ofTree .inheriting = .ok a :=
    ⟨_, Analysis.ofTree_of_inBounds ⟨by decide +kernel, by decide +kernel⟩⟩
  rw [ha] at hmarks
  obtain ⟨hhighlights, hranges⟩ := Prod.mk.inj (Option.some.inj hmarks)
  obtain ⟨hsecond, hthird⟩ := Prod.mk.inj hranges
  obtain ⟨s, hs, hp⟩ := Option.map_eq_some_iff.mp hsecond
  obtain ⟨r, hr, hq⟩ := Option.map_eq_some_iff.mp hthird
  refine ⟨htext, a, s, r, _, _, ha, hs, hr, hp, hq, by simp [TextRange.Apart], ?_⟩
  rw [FileModel.highlights, hhighlights, List.mergeSort_of_pairwise (by decide)]
  simp [LineCol.Before]

end LpcSymbols
