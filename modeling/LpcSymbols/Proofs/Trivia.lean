/-
White space and comments do not change an analysis.

Two trees that are equal without their trivia are twins.  Twins are read alike as
soon as their nodes have spans in the same cases, and that is so if every token has
text and every node has a child: then a node has a span exactly if it has a
significant token.  Without the second condition a childless node could cut off the
search for a significant token in one of the trees and not in the other.

Nothing is asked of places here, so the likeness is the weakest one there is.
-/
import LpcSymbols.Proofs.Outcome
import LpcSymbols.Proofs.Renumbering

namespace LpcSymbols

/-! ### Trees without trivia -/

namespace Element

mutual

/-- The element without trivia: nothing is left of a trivial token. -/
def bare : Element → List Element
  | .token tag text => if (Kind.ofTag tag).isTrivia then [] else [.token tag text]
  | .node tag children => [.node tag (bareAll children)]

/-- The row without trivia. -/
def bareAll : List Element → List Element
  | [] => []
  | e :: es => e.bare ++ bareAll es

end

theorem bare_eq_nil {e : Element} (h : e.bare = []) :
    ∃ tag text, e = .token tag text ∧ (Kind.ofTag tag).isTrivia = true := by
  cases e with
  | token tag text =>
      by_cases htrivia : (Kind.ofTag tag).isTrivia = true
      · exact ⟨tag, text, rfl, htrivia⟩
      · simp [bare, htrivia] at h
  | node tag children => simp [bare] at h

theorem bare_token_of_not_trivia {tag : Nat} (text : String)
    (h : ¬ (Kind.ofTag tag).isTrivia = true) :
    (Element.token tag text).bare = [.token tag text] := by
  simp [bare, h]

theorem eq_token_of_bare {e : Element} {tag : Nat} {text : String} (h : e.bare = [.token tag text]) :
    e = .token tag text := by
  cases e with
  | token tag' text' =>
      by_cases htrivia : (Kind.ofTag tag').isTrivia = true
      · simp [bare, htrivia] at h
      · simpa [bare, htrivia] using h
  | node tag' children => simp [bare] at h

theorem eq_node_of_bare {e : Element} {tag : Nat} {children : List Element}
    (h : e.bare = [.node tag children]) : ∃ cs, e = .node tag cs ∧ bareAll cs = children := by
  cases e with
  | token tag' text =>
      by_cases htrivia : (Kind.ofTag tag').isTrivia = true
      · simp [bare, htrivia] at h
      · simp [bare, htrivia] at h
  | node tag' cs =>
      simp only [bare, List.cons.injEq, Element.node.injEq, and_true] at h
      exact ⟨cs, by rw [h.1], h.2⟩

/-- The first element that is left stands behind trivia only. -/
theorem split_of_bareAll {ys : List Element} {e : Element} {bs : List Element}
    (h : bareAll ys = e :: bs) :
    ∃ skipped y rest, ys = skipped ++ y :: rest ∧ (∀ x ∈ skipped, x.bare = []) ∧ y.bare = [e] ∧
      bareAll rest = bs := by
  induction ys with
  | nil => simp [bareAll] at h
  | cons y ys ih =>
      rw [bareAll] at h
      by_cases hy : y.bare = []
      · rw [hy, List.nil_append] at h
        obtain ⟨skipped, z, rest, rfl, hskip, hz, hrest⟩ := ih h
        refine ⟨y :: skipped, z, rest, rfl, ?_, hz, hrest⟩
        intro x hx
        rcases List.mem_cons.mp hx with rfl | hx
        · exact hy
        · exact hskip x hx
      · obtain ⟨b, hb⟩ : ∃ b, y.bare = [b] := by
          cases y with
          | token tag text =>
              by_cases htrivia : (Kind.ofTag tag).isTrivia = true
              · simp [bare, htrivia] at hy
              · exact ⟨_, bare_token_of_not_trivia text htrivia⟩
          | node tag children => exact ⟨_, rfl⟩
        rw [hb, List.singleton_append, List.cons.injEq] at h
        exact ⟨[], y, ys, rfl, by simp, by rw [hb, h.1], h.2⟩

theorem bare_of_bareAll_eq_nil {ys : List Element} (h : bareAll ys = []) :
    ∀ y ∈ ys, y.bare = [] := by
  induction ys with
  | nil => simp
  | cons y ys ih =>
      rw [bareAll, List.append_eq_nil_iff] at h
      intro x hx
      rcases List.mem_cons.mp hx with rfl | hx
      · exact h.1
      · exact ih h.2 x hx

/-- Trivia may be skipped on the right. -/
theorem twins_skip {R : TextRange → TextRange → Prop} {N : Node → Node → Prop} {ps : List Placed}
    {skipped rest : List Element} (hskip : ∀ x ∈ skipped, x.bare = [])
    (h : ∀ start before, Placed.Twins R N ps (placeAll start before rest)) (start before : Nat) :
    Placed.Twins R N ps (placeAll start before (skipped ++ rest)) := by
  induction skipped generalizing start before with
  | nil => exact h start before
  | cons x skipped ih =>
      obtain ⟨tag, text, rfl, htrivia⟩ := bare_eq_nil (hskip x (by simp))
      refine .skipRight ?_ (ih (fun y hy => hskip y (by simp [hy])) _ _)
      simp [Token.isSignificant, htrivia]

/-- **Rows that are equal without trivia are twins.** -/
theorem twins_of_bareAll : ∀ (xs ys : List Element) (start before start' before' : Nat),
    bareAll xs = bareAll ys → Placed.Twins (fun _ _ => True) (fun _ _ => True)
      (placeAll start before xs) (placeAll start' before' ys)
  | [], ys, _, _, start', before', h => by
    have hskip : Placed.Twins (fun _ _ => True) (fun _ _ => True) []
        (placeAll start' before' (ys ++ [])) :=
      twins_skip (bare_of_bareAll_eq_nil h.symm) (fun _ _ => .nil) start' before'
    rwa [List.append_nil] at hskip
  | .token tag text :: xs, ys, start, before, start', before', h => by
    rw [bareAll] at h
    by_cases htrivia : (Kind.ofTag tag).isTrivia = true
    · rw [bare, if_pos htrivia, List.nil_append] at h
      refine .skipLeft ?_ (twins_of_bareAll xs ys _ _ _ _ h)
      simp [Token.isSignificant, htrivia]
    · rw [bare_token_of_not_trivia text htrivia] at h
      obtain ⟨skipped, y, rest, rfl, hskip, hy, hrest⟩ := split_of_bareAll h.symm
      obtain rfl := eq_token_of_bare hy
      refine twins_skip hskip (fun i j => ?_) start' before'
      exact .token ⟨rfl, rfl, trivial⟩ (twins_of_bareAll xs rest _ _ _ _ hrest.symm)
  | .node tag cs :: xs, ys, start, before, start', before', h => by
    rw [bareAll, bare, List.singleton_append] at h
    obtain ⟨skipped, y, rest, rfl, hskip, hy, hrest⟩ := split_of_bareAll h.symm
    obtain ⟨ds, rfl, hds⟩ := eq_node_of_bare hy
    refine twins_skip hskip (fun i j => ?_) start' before'
    exact .node trivial (twins_of_bareAll cs ds _ _ _ _ hds.symm)
      (twins_of_bareAll xs rest _ _ _ _ hrest.symm)

end Element

/-! ### Spans of trees without empty parts -/

/-- Every token has text, and every node has a child. -/
structure SourceTree.NoEmptyParts (t : SourceTree) : Prop where
  text : ∀ tok ∈ t.node.tokens, tok.text ≠ ""
  children : ∀ s ∈ t.node.nodes, s.1.children ≠ []

theorem Leaf.firstSignificant?_of_tokens {leaves : List Leaf} (h : Leaf.childless ∉ leaves) :
    Leaf.firstSignificant? leaves = (leaves.filterMap Leaf.token?).find? Token.isSignificant := by
  induction leaves with
  | nil => rfl
  | cons leaf leaves ih =>
      cases leaf with
      | childless => simp at h
      | token t =>
          have hrest := ih fun hmem => h (List.mem_cons_of_mem _ hmem)
          cases ht : t.isSignificant <;>
            simp [Leaf.firstSignificant?, Leaf.token?, ht, hrest]

namespace Placed

mutual

theorem childless_of_mem_leaves {around : List Node} : ∀ p : Placed, Leaf.childless ∈ p.leaves →
    ∃ s ∈ p.nodes around, s.1.children = []
  | .token _, h => by simp [leaves] at h
  | .node kind range before [], _ => ⟨_, List.mem_cons_self, rfl⟩
  | .node kind range before (p :: ps), h => by
    rw [leaves, ← leavesAll] at h
    obtain ⟨s, hs, hnil⟩ := childless_of_mem_leavesAll (p :: ps) h
    exact ⟨s, List.mem_cons_of_mem _ hs, hnil⟩

/-- A childless leaf is a node without children. -/
theorem childless_of_mem_leavesAll {around : List Node} : ∀ ps : List Placed,
    Leaf.childless ∈ leavesAll ps → ∃ s ∈ nodesAll around ps, s.1.children = []
  | [], h => by simp [leavesAll] at h
  | p :: ps, h => by
    rw [leavesAll, List.mem_append] at h
    rcases h with h | h
    · obtain ⟨s, hs, hnil⟩ := childless_of_mem_leaves p h
      exact ⟨s, List.mem_append_left _ hs, hnil⟩
    · obtain ⟨s, hs, hnil⟩ := childless_of_mem_leavesAll ps h
      exact ⟨s, List.mem_append_right _ hs, hnil⟩

end

end Placed

namespace SourceTree

/-- A node has a span if it has a significant token. -/
theorem NoEmptyParts.isSome_span? {t : SourceTree} (ht : t.NoEmptyParts) {s : Site}
    (hs : s ∈ t.node.nodes) :
    (t.layout.span? s.1).isSome = s.1.tokens.any Token.isSignificant := by
  have htext := AllText.size_pos ht.text
  have hstands := t.standsIn_nodes hs
  have hchildless : Leaf.childless ∉ s.1.leaves := by
    intro hmem
    obtain ⟨left, right, hrow, -⟩ := hstands
    have hroot : Leaf.childless ∈ t.node.toPlaced.leaves := by
      show Leaf.childless ∈ t.layout.leaves
      rw [hrow]
      simp [hmem]
    obtain ⟨m, hm, hnil⟩ := Placed.childless_of_mem_leaves _ hroot
    exact ht.children m hm hnil
  have hfirst := Layout.first?_eq hstands htext
  have hlast := Layout.last?_eq hstands htext
  rw [Leaf.firstSignificant?_of_tokens hchildless] at hfirst
  rw [Leaf.firstSignificant?_of_tokens (by simpa using hchildless), List.filterMap_reverse] at hlast
  have hany : ∀ ts : List Token,
      (ts.find? Token.isSignificant).isSome = ts.any Token.isSignificant := by
    intro ts
    rw [Bool.eq_iff_iff, List.find?_isSome, List.any_eq_true]
  have hfirstSome : (t.layout.first? s.1).isSome = s.1.tokens.any Token.isSignificant := by
    rw [hfirst, hany]
    rfl
  have hlastSome : (t.layout.last? s.1).isSome = s.1.tokens.any Token.isSignificant := by
    rw [hlast, hany, List.any_reverse]
    rfl
  unfold Layout.span?
  cases hf : t.layout.first? s.1 with
  | none =>
      rw [hf] at hfirstSome
      exact hfirstSome
  | some first =>
      cases hl : t.layout.last? s.1 with
      | none =>
          rw [hl] at hlastSome
          exact hlastSome
      | some last =>
          rw [hf] at hfirstSome
          exact hfirstSome

end SourceTree

/-! ### The likeness of trees that are equal without trivia -/

/-- Any place is like any other, and the numbers are the same. -/
def Likeness.anywhere : Likeness := ⟨fun _ _ => True, fun _ _ => True, 0, fun _ _ _ => trivial⟩

/-- The two trees are equal without their trivia. -/
structure SourceTree.SameBare (t u : SourceTree) : Prop where
  tag : t.tag = u.tag
  children : Element.bareAll t.children = Element.bareAll u.children

theorem Node.Twin.any_significant {R : TextRange → TextRange → Prop} {N : Node → Node → Prop}
    {n m : Node} (h : n.Twin R N m) :
    n.tokens.any Token.isSignificant = m.tokens.any Token.isSignificant := by
  have hempty := isEmpty_related h.tokens
  have hany : ∀ ts : List Token,
      ts.any Token.isSignificant = !(ts.filter Token.isSignificant).isEmpty := by
    intro ts
    induction ts with
    | nil => rfl
    | cons t ts ih => cases ht : t.isSignificant <;> simp [ht, ih]
  rw [hany, hany, hempty]

namespace SourceTree

variable {t u : SourceTree}

theorem nodesAll_root (t : SourceTree) :
    Placed.nodesAll [] (Element.placeAll 0 0 [t.root]) = t.node.nodes := by
  rw [Element.placeAll, Element.placeAll, Placed.nodesAll, Placed.nodesAll, List.append_nil]
  rfl

/-- The roots of two such trees are twins with spans in the same cases, at all depths. -/
theorem SameBare.twin (h : t.SameBare u) (ht : t.NoEmptyParts) (hu : u.NoEmptyParts) :
    Likeness.anywhere.Twin t.layout u.layout t.node u.node := by
  have hbare : Element.bareAll [t.root] = Element.bareAll [u.root] := by
    simp only [Element.bareAll, Element.bare, root, h.tag, h.children]
  have htwins := Element.twins_of_bareAll [t.root] [u.root] 0 0 0 0 hbare
  have hplaces : Placed.Twins (fun _ _ => True) (Likeness.anywhere.Places t.layout u.layout)
      [t.node.toPlaced] [u.node.toPlaced] := by
    refine htwins.strengthen [] [] ?_
    intro s hs s' hs' hss'
    rw [nodesAll_root] at hs hs'
    have hsome := ht.isSome_span? hs
    rw [hss'.any_significant, ← hu.isSome_span? hs'] at hsome
    refine ⟨trivial, ?_⟩
    generalize t.layout.span? s.1 = x at hsome
    generalize u.layout.span? s'.1 = y at hsome
    cases x <;> cases y
    · exact .none
    · simp at hsome
    · simp at hsome
    · exact .some trivial
  exact (List.forall₂_cons.mp hplaces.nodes).1

theorem SameBare.located (h : t.SameBare u) (ht : t.NoEmptyParts) (hu : u.NoEmptyParts) :
    Located.Alike Likeness.anywhere (t.located t.layout) (u.located u.layout) :=
  located_alike (h.twin ht hu).children (.cons (.of_twin (h.twin ht hu)) .nil) false 0

theorem SameBare.entries (h : t.SameBare u) (ht : t.NoEmptyParts) (hu : u.NoEmptyParts) :
    List.Forall₂ (Entry.Alike Likeness.anywhere) t.entries u.entries :=
  (h.located ht hu).entriesAll rfl Nat.one_pos rfl

end SourceTree

/-! ### What stays the same -/

/-- The data without the fold. -/
def SymbolData.unplaced (data : SymbolData) : SymbolData := data.refold ⟨0, 0, 0, 0⟩

theorem SymbolData.unplaced_refold (f : Fold) (data : SymbolData) :
    (data.refold f).unplaced = data.unplaced := by
  cases data <;> rfl

/-- The symbols agree in all but places.  Generated names agree up to the number of a token. -/
structure Symbol.SameContent (s s' : Symbol) : Prop where
  id : s.id = s'.id
  parent : s.parent = s'.parent
  children : s.children = s'.children
  data : s.data.unplaced = s'.data.unplaced
  name : s.toDraft.NamesAlike .anywhere s'.toDraft

theorem Symbol.Alike.sameContent {s s' : Symbol} (h : s.Alike .anywhere s') : s.SameContent s' where
  id := by rw [h.id, Likeness.anywhere, SymbolId.shift_zero]
  parent := by
    rw [h.parent]
    cases s.parent with
    | none => rfl
    | some parent => exact congrArg some (SymbolId.shift_zero parent).symm
  children := by rw [h.children, Likeness.anywhere, map_shift_zero]
  data := by
    rw [h.draft.data, SymbolData.unplaced_refold, Likeness.anywhere, SymbolData.shift_zero]
  name := h.draft.name

/-- The models agree in all but places. -/
structure FileModel.SameContent (a b : FileModel) : Prop where
  size : a.table.size = b.table.size
  symbols : ∀ id s s', a.table.get? id = some s → b.table.get? id = some s' → s.SameContent s'
  imports : a.imports = b.imports
  stats : a.stats = b.stats

theorem getElem?_related {α β : Type} {R : α → β → Prop} {xs : List α} {ys : List β}
    (h : List.Forall₂ R xs ys) {i : Nat} {a : α} {b : β} (ha : xs[i]? = some a)
    (hb : ys[i]? = some b) : R a b := by
  induction h generalizing i with
  | nil => simp at ha
  | cons hab _ ih =>
      cases i with
      | zero =>
          simp only [List.getElem?_cons_zero, Option.some.injEq] at ha hb
          rwa [← ha, ← hb]
      | succ i => exact ih ha hb

namespace SourceTree

variable {t u : SourceTree}

theorem SameBare.symbols (h : t.SameBare u) (hfile : t.file = u.file) (ht : t.NoEmptyParts)
    (hu : u.NoEmptyParts) :
    List.Forall₂ (Symbol.Alike .anywhere) t.model.table.toList u.model.table.toList := by
  have htops := (h.located ht hu).tops Nat.one_pos rfl
  refine .cons ⟨⟨rfl, ?_, (h.twin ht hu).kind, trivial, trivial, .none⟩, rfl, rfl, ?_⟩
    (Entry.symbols_alike (h.entries ht hu))
  · show t.file.render = u.file.render
    rw [hfile]
  · show [] ++ _ = List.map _ ([] ++ _)
    rw [List.nil_append, List.nil_append, List.map_map]
    exact (map_related htops fun _ _ hxy => hxy.1.symm).symm

theorem SameBare.sameContent (h : t.SameBare u) (hfile : t.file = u.file) (ht : t.NoEmptyParts)
    (hu : u.NoEmptyParts) : t.model.SameContent u.model where
  size := by
    rw [SymbolTable.size_eq_length, SymbolTable.size_eq_length]
    exact (h.symbols hfile ht hu).length_eq
  symbols := by
    intro id s s' hs hs'
    rw [SymbolTable.get?_eq_toList] at hs hs'
    exact (getElem?_related (h.symbols hfile ht hu) hs hs').sameContent
  imports := by
    have himports := Entry.imports_alike (h.entries ht hu)
    rw [show Import.shift Likeness.anywhere.ids = id from funext Import.shift_zero,
      List.map_id] at himports
    exact himports.symm
  stats := by
    show t.stats = u.stats
    rw [stats, stats, (h.located ht hu).tallyAll]

end SourceTree

/-- **White space and comments do not change an analysis.** -/
theorem Analysis.sameContent_of_sameBare {t u : SourceTree} (hfile : t.file = u.file)
    (hbare : t.SameBare u) (ht : t.NoEmptyParts) (hu : u.NoEmptyParts) :
    (t.InBounds → ∃ a, Analysis.ofTree t = .ok a) ∧ (u.InBounds → ∃ b, Analysis.ofTree u = .ok b) ∧
      ∀ a b, Analysis.ofTree t = .ok a → Analysis.ofTree u = .ok b →
        a.model.SameContent b.model := by
  refine ⟨fun h => ⟨_, ofTree_of_inBounds h⟩, fun h => ⟨_, ofTree_of_inBounds h⟩, ?_⟩
  intro a b ha hb
  obtain ⟨-, rfl⟩ := ofTree_ok_iff.mp ha
  obtain ⟨-, rfl⟩ := ofTree_ok_iff.mp hb
  exact hbare.sameContent hfile ht hu

/-- A function with a condition in it. -/
def SourceTree.terse : SourceTree :=
  .ofItems ⟨0⟩ {}
    [.node Kind.functionDecl.tag
      [.node Kind.functionHeader.tag [.node Kind.name.tag [.token Kind.ident.tag "f"]],
       .node Kind.ifStatement.tag
        [.node Kind.ifClause.tag [.node Kind.identExpr.tag [.token Kind.ident.tag "x"]]]]]

/-- The same with comments and white space. -/
def SourceTree.spaced : SourceTree :=
  .ofItems ⟨0⟩ {}
    [.token Kind.comment.tag "// f\n",
     .node Kind.functionDecl.tag
      [.token Kind.whitespace.tag "  ",
       .node Kind.functionHeader.tag [.node Kind.name.tag [.token Kind.ident.tag "f"]],
       .node Kind.ifStatement.tag
        [.node Kind.ifClause.tag
          [.token Kind.whitespace.tag "\n",
           .node Kind.identExpr.tag [.token Kind.comment.tag "/* x */", .token Kind.ident.tag "x"]]]]]

theorem Analysis.sameContent_of_sameBare_spaced : ∃ a b,
    Analysis.ofTree .terse = .ok a ∧ Analysis.ofTree .spaced = .ok b ∧
      a.model.table.size = 5 ∧ a.model.SameContent b.model := by
  have hterse : SourceTree.terse.NoEmptyParts := ⟨by decide +kernel, by decide +kernel⟩
  have hspaced : SourceTree.spaced.NoEmptyParts := ⟨by decide +kernel, by decide +kernel⟩
  have hsize : (Analysis.ofTree .terse).toOption.map (·.model.table.size) = some 5 := by
    decide +kernel
  obtain ⟨hok, hok', hsame⟩ := sameContent_of_sameBare (t := .terse) (u := .spaced) rfl
    ⟨rfl, by decide +kernel⟩ hterse hspaced
  obtain ⟨a, ha⟩ := hok ⟨by decide +kernel, by decide +kernel⟩
  obtain ⟨b, hb⟩ := hok' ⟨by decide +kernel, by decide +kernel⟩
  rw [ha] at hsize
  exact ⟨a, b, ha, hb, Option.some.inj hsize, hsame a b ha hb⟩

end LpcSymbols
