/-
Which nodes have a span.

One would expect a node to have a span if it has a significant token.  That is almost so.
The search for the first significant token goes from leaf to leaf, and a node without
children is a leaf with nothing to go on from.  So a childless node in front of the first
significant token ends the search before it has found anything, and one behind the last
significant token ends the search from behind.  Between the two it does no harm.

Where tokens have text the search stays among the node's own leaves, and this is the whole
truth: a node has no span exactly if it has no significant token, or if one of its childless
nodes is not between significant tokens (`span?_eq_none_iff`).  A construct that has its
parts is left out for no other reason.
-/
import LpcSymbols.Proofs.Accounting
import LpcSymbols.Proofs.Moving

namespace LpcSymbols

namespace Leaf

/-- None of the tokens is significant. -/
def Blank (leaves : List Leaf) : Prop := ∀ t, .token t ∈ leaves → t.isSignificant = false

theorem Blank.reverse {leaves : List Leaf} (h : Blank leaves) : Blank leaves.reverse := by
  intro t ht
  exact h t (List.mem_reverse.mp ht)

theorem blank_cons {t : Token} {leaves : List Leaf} :
    Blank (.token t :: leaves) ↔ t.isSignificant = false ∧ Blank leaves := by
  constructor
  · intro h
    exact ⟨h t List.mem_cons_self, fun u hu => h u (List.mem_cons_of_mem _ hu)⟩
  · intro h u hu
    rcases List.mem_cons.mp hu with heq | hmem
    · rw [Leaf.token.inj heq]
      exact h.1
    · exact h.2 u hmem

/-- A childless node with nothing significant in front of it is not the first token, and the first
token is not significant. -/
theorem exists_childless_cons {t : Token} {leaves : List Leaf} :
    (∃ front back, .token t :: leaves = front ++ .childless :: back ∧ Blank front) ↔
      t.isSignificant = false ∧ ∃ front back, leaves = front ++ .childless :: back ∧ Blank front := by
  constructor
  · intro h
    obtain ⟨front, back, hrow, hblank⟩ := h
    cases front with
    | nil => simp at hrow
    | cons leaf front =>
        obtain ⟨rfl, htail⟩ := List.cons.inj hrow
        obtain ⟨ht, hfront⟩ := blank_cons.mp hblank
        exact ⟨ht, front, back, htail, hfront⟩
  · intro h
    obtain ⟨ht, front, back, hrow, hblank⟩ := h
    exact ⟨.token t :: front, back, by rw [hrow, List.cons_append], blank_cons.mpr ⟨ht, hblank⟩⟩

/-- The search finds nothing if there is nothing to find, or if a childless node comes first. -/
theorem firstSignificant?_eq_none_iff {leaves : List Leaf} :
    firstSignificant? leaves = none ↔
      Blank leaves ∨ ∃ front back, leaves = front ++ .childless :: back ∧ Blank front := by
  induction leaves with
  | nil => exact ⟨fun _ => Or.inl (by simp [Blank]), fun _ => rfl⟩
  | cons leaf rest ih =>
      cases leaf with
      | childless => exact ⟨fun _ => Or.inr ⟨[], rest, rfl, by simp [Blank]⟩, fun _ => rfl⟩
      | token t =>
          rw [firstSignificant?, blank_cons, exists_childless_cons, ← and_or_left, ← ih]
          by_cases ht : t.isSignificant = true
          · simp [ht]
          · simp [ht]

/-- The same for a search from behind. -/
theorem firstSignificant?_reverse_eq_none_iff {leaves : List Leaf} :
    firstSignificant? leaves.reverse = none ↔
      Blank leaves ∨ ∃ front back, leaves = front ++ .childless :: back ∧ Blank back := by
  rw [firstSignificant?_eq_none_iff]
  constructor
  · intro h
    rcases h with hblank | ⟨front, back, hrow, hblank⟩
    · exact Or.inl (List.reverse_reverse leaves ▸ hblank.reverse)
    · refine Or.inr ⟨back.reverse, front.reverse, ?_, hblank.reverse⟩
      rw [← List.reverse_reverse leaves, hrow]
      simp
  · intro h
    rcases h with hblank | ⟨front, back, hrow, hblank⟩
    · exact Or.inl hblank.reverse
    · exact Or.inr ⟨back.reverse, front.reverse, by simp [hrow], hblank.reverse⟩

/-- What the search finds is the first of the significant tokens. -/
theorem head?_significant {leaves : List Leaf} {t : Token} (h : firstSignificant? leaves = some t) :
    ((leaves.filterMap Leaf.token?).filter Token.isSignificant).head? = some t := by
  induction leaves with
  | nil => simp [firstSignificant?] at h
  | cons leaf rest ih =>
      cases leaf with
      | childless => simp [firstSignificant?] at h
      | token u =>
          have htokens : (Leaf.token u :: rest).filterMap Leaf.token?
              = u :: rest.filterMap Leaf.token? := rfl
          rw [firstSignificant?] at h
          rw [htokens]
          by_cases hu : u.isSignificant = true
          · rw [if_pos hu] at h
            obtain rfl := Option.some.inj h
            rw [List.filter_cons_of_pos hu, List.head?_cons]
          · rw [if_neg hu] at h
            rw [List.filter_cons_of_neg hu]
            exact ih h

end Leaf

/-- A node without children stands in front of all significant tokens of the node, or behind
them. -/
def Node.Obscured (n : Node) : Prop :=
  ∃ front back, n.leaves = front ++ .childless :: back ∧ (Leaf.Blank front ∨ Leaf.Blank back)

namespace SourceTree

variable {t : SourceTree} {s : Site}

/-- **A node has no span exactly if it has no significant token or is obscured.** -/
theorem AllText.span?_eq_none_iff (h : t.AllText) (hs : s ∈ t.node.nodes) :
    t.layout.span? s.1 = none ↔ Leaf.Blank s.1.leaves ∨ s.1.Obscured := by
  have hstands := t.standsIn_nodes hs
  have hfirst : t.layout.first? s.1 = none ↔ Leaf.Blank s.1.leaves ∨
      ∃ front back, s.1.leaves = front ++ .childless :: back ∧ Leaf.Blank front := by
    rw [Layout.first?_eq hstands h.size_pos]
    exact Leaf.firstSignificant?_eq_none_iff
  have hlast : t.layout.last? s.1 = none ↔ Leaf.Blank s.1.leaves ∨
      ∃ front back, s.1.leaves = front ++ .childless :: back ∧ Leaf.Blank back := by
    rw [Layout.last?_eq hstands h.size_pos]
    exact Leaf.firstSignificant?_reverse_eq_none_iff
  have hspan : t.layout.span? s.1 = none ↔ t.layout.first? s.1 = none ∨ t.layout.last? s.1 = none := by
    rw [Layout.span?_eq]
    cases t.layout.first? s.1 <;> cases t.layout.last? s.1 <;> simp
  rw [hspan, hfirst, hlast, Node.Obscured]
  constructor
  · intro hnone
    rcases hnone with (hblank | ⟨front, back, hrow, hfront⟩) | (hblank | ⟨front, back, hrow, hback⟩)
    · exact Or.inl hblank
    · exact Or.inr ⟨front, back, hrow, Or.inl hfront⟩
    · exact Or.inl hblank
    · exact Or.inr ⟨front, back, hrow, Or.inr hback⟩
  · intro hnone
    rcases hnone with hblank | ⟨front, back, hrow, hfront | hback⟩
    · exact Or.inl (Or.inl hblank)
    · exact Or.inl (Or.inr ⟨front, back, hrow, hfront⟩)
    · exact Or.inr (Or.inr ⟨front, back, hrow, hback⟩)

/-- A construct with its parts is left out if it has no span. -/
theorem mem_omitted_iff (hs : s ∈ t.recorded ++ t.omitted) (hparts : s.1.hasParts = true) :
    s ∈ t.omitted ↔ t.layout.span? s.1 = none := by
  have hcomplete := t.accounts.complete s hs
  have hnodup := List.nodup_append.mp t.nodup_recorded_append_omitted
  rw [← Option.not_isSome_iff_eq_none]
  constructor
  · intro homitted hspan
    exact hnodup.2.2 s (hcomplete.mpr ⟨hparts, hspan⟩) s homitted rfl
  · intro hspan
    rcases List.mem_append.mp hs with hrecorded | homitted
    · exact absurd (hcomplete.mp hrecorded).2 hspan
    · exact homitted

end SourceTree

/-- **A construct that has its parts is left out exactly if it has no significant token or is
obscured.** -/
theorem Analysis.omitted_iff_obscured {t : SourceTree} (h : t.AllText) :
    (∀ s ∈ t.node.nodes,
      (t.layout.span? s.1 = none ↔ Leaf.Blank s.1.leaves ∨ s.1.Obscured)) ∧
    (t.InBounds → ∃ a, Analysis.ofTree t = .ok a) ∧
    ∀ a, Analysis.ofTree t = .ok a → ∃ recorded omitted, a.Accounts t recorded omitted ∧
      ∀ s ∈ recorded ++ omitted, s.1.hasParts = true →
        (s ∈ omitted ↔ Leaf.Blank s.1.leaves ∨ s.1.Obscured) := by
  refine ⟨fun s hs => h.span?_eq_none_iff hs, fun hb => ⟨_, Analysis.ofTree_of_inBounds hb⟩, ?_⟩
  intro a ha
  obtain ⟨-, rfl⟩ := Analysis.ofTree_ok_iff.mp ha
  refine ⟨t.recorded, t.omitted, t.accounts, ?_⟩
  intro s hs hparts
  have hnodes := (SourceTree.mem_recorded_append_omitted.mp hs).1
  rw [SourceTree.mem_omitted_iff hs hparts]
  exact h.span?_eq_none_iff hnodes

/-- Two functions.  The first begins with an empty list of modifiers; the second has an empty block,
with a token behind it. -/
def SourceTree.unmodified : SourceTree :=
  .ofItems ⟨0⟩ {}
    [.node Kind.functionDecl.tag
      [.node Kind.modifierList.tag [],
       .node Kind.functionHeader.tag [.node Kind.name.tag [.token Kind.ident.tag "f"]]],
     .node Kind.functionDecl.tag
      [.node Kind.functionHeader.tag [.node Kind.name.tag [.token Kind.ident.tag "g"]],
       .node Kind.block.tag [], .token Kind.semicolon.tag ";"]]

theorem Analysis.omitted_iff_obscured_unmodified :
    SourceTree.unmodified.AllText ∧ SourceTree.unmodified.InBounds ∧
      ∃ a recorded omitted, Analysis.ofTree .unmodified = .ok a ∧
        a.Accounts .unmodified recorded omitted ∧ a.model.stats.omissions = 1 ∧
        ∀ s ∈ recorded ++ omitted, s.1.hasParts = true →
          (s ∈ omitted ↔ Leaf.Blank s.1.leaves ∨ s.1.Obscured) := by
  have htext : SourceTree.unmodified.AllText := by
    unfold SourceTree.AllText
    decide +kernel
  have hbounds : SourceTree.unmodified.InBounds := ⟨by decide +kernel, by decide +kernel⟩
  have hcount : ((Analysis.ofTree .unmodified).toOption.map fun a => a.model.stats.omissions)
      = some 1 := by decide +kernel
  obtain ⟨-, hok, haccounts⟩ := omitted_iff_obscured htext
  obtain ⟨a, ha⟩ := hok hbounds
  obtain ⟨recorded, omitted, hall, hiff⟩ := haccounts a ha
  rw [ha] at hcount
  exact ⟨htext, hbounds, a, recorded, omitted, ha, hall, Option.some.inj hcount, hiff⟩

/-- A function with a name is left out for want of significant tokens, although its name is one. -/
theorem Analysis.omitted_with_significant_token :
    SourceTree.unmodified.AllText ∧
      (∃ s ∈ SourceTree.unmodified.node.nodes, s.1.kind = .functionDecl ∧ s.1.hasParts = true ∧
        (∃ tok ∈ s.1.tokens, tok.isSignificant = true) ∧
        SourceTree.unmodified.layout.span? s.1 = none) ∧
      ∃ a, Analysis.ofTree .unmodified = .ok a ∧
        a.trace.filterMap TraceEvent.omission?
          = [(⟨.functionDecl, ⟨0, 1⟩⟩, .noSignificantToken .functionDecl)] := by
  have htext : SourceTree.unmodified.AllText := by
    unfold SourceTree.AllText
    decide +kernel
  have hnode : ∃ s, SourceTree.unmodified.node.nodes[1]? = some s ∧ s.1.kind = .functionDecl ∧
      s.1.hasParts = true ∧ s.1.tokens.any Token.isSignificant = true ∧
      SourceTree.unmodified.layout.span? s.1 = none :=
    ⟨_, rfl, by decide +kernel, by decide +kernel, by decide +kernel, by decide +kernel⟩
  have htrace : ((Analysis.ofTree .unmodified).toOption.map fun a =>
      a.trace.filterMap TraceEvent.omission?)
        = some [(⟨.functionDecl, ⟨0, 1⟩⟩, .noSignificantToken .functionDecl)] := by decide +kernel
  obtain ⟨s, hs, hkind, hparts, htokens, hspan⟩ := hnode
  refine ⟨htext, ⟨s, List.mem_of_getElem? hs, hkind, hparts, List.any_eq_true.mp htokens, hspan⟩, ?_⟩
  cases ha : Analysis.ofTree .unmodified with
  | error fault =>
      rw [ha] at htrace
      simp [Except.toOption] at htrace
  | ok a =>
      rw [ha] at htrace
      exact ⟨a, rfl, Option.some.inj htrace⟩

end LpcSymbols
