/-
What is left out leaves no trace.

A directive, an inherit statement or a parameter that cannot be read is counted as an omission, and
then its parts are found as if it were not there.  Here this is said by a comparison with another
tree, in which the node is an error.  An error is no construct at all, so whatever the omitted
construct had done to the symbols would show.

Demotion is the change from the one tree to the other, for any number of such nodes (`Demotes`).
The step lemma is that a row of elements and its demotion give the same findings up to the
omissions of the demoted nodes (`Demotes.lacks`); no other node is read differently, since nothing
looks for the kinds in question.  Findings that differ in omissions alone become the same symbols
and imports (`Lacks`), so the models differ in one counter only.
-/
import LpcSymbols.Proofs.Accounting
import LpcSymbols.Proofs.Fading
import LpcSymbols.Proofs.SourceOrder
import LpcSymbols.Tree.Phrase

namespace LpcSymbols

/-! ### Findings with some omissions less -/

namespace Located

/-- The second row of findings is the first without `k` of its omissions, wherever these are. -/
inductive Lacks : Nat → List Located → List Located → Prop
  | nil : Lacks 0 [] []
  | leaf {k : Nat} {s s' : Site} {d : Draft} {fs gs : List Located} (rest : Lacks k fs gs) :
      Lacks k (.leaf s d :: fs) (.leaf s' d :: gs)
  | scope {j k : Nat} {s s' : Site} {d : Draft} {inside inside' fs gs : List Located}
      (below : Lacks j inside inside') (rest : Lacks k fs gs) :
      Lacks (j + k) (.scope s d inside :: fs) (.scope s' d inside' :: gs)
  | kept {k : Nat} {s s' : Site} {reason reason' : Omission} {fs gs : List Located}
      (rest : Lacks k fs gs) : Lacks k (.omitted s reason :: fs) (.omitted s' reason' :: gs)
  | lost {k : Nat} {s : Site} {reason : Omission} {fs gs : List Located} (rest : Lacks k fs gs) :
      Lacks (k + 1) (.omitted s reason :: fs) gs

end Located

/-- Entries that differ in nothing but their sites. -/
structure Entry.Same (e e' : Entry) : Prop where
  draft : e.draft = e'.draft
  id : e.id = e'.id
  parent : e.parent = e'.parent
  owned : e.owned = e'.owned

namespace Entry

variable {es es' : List Entry}

theorem symbols_same (h : List.Forall₂ Same es es') : es.map symbol = es'.map symbol := by
  refine map_related h ?_
  intro e e' he
  rw [symbol, symbol, he.draft, he.id, he.parent, he.owned]

theorem drafts_same (h : List.Forall₂ Same es es') : es.map draft = es'.map draft :=
  map_related h fun _ _ he => he.draft

theorem imports_same (h : List.Forall₂ Same es es') : imports es = imports es' := by
  induction h with
  | nil => rfl
  | cons he _ ih =>
      simp only [imports] at ih
      simp only [imports, List.filterMap_cons, he.draft, he.id, ih]

end Entry

namespace Located.Lacks

variable {j k : Nat} {fs gs fs' gs' : List Located}

theorem append (h : Lacks j fs gs) (h' : Lacks k fs' gs') :
    Lacks (j + k) (fs ++ fs') (gs ++ gs') := by
  induction h with
  | nil => simpa using h'
  | leaf _ ih => exact .leaf ih
  | scope below _ _ ih =>
      rw [Nat.add_assoc]
      exact .scope below ih
  | kept _ ih => exact .kept ih
  | lost _ ih =>
      rw [Nat.add_right_comm]
      exact .lost ih

theorem symbolCountAll (h : Lacks k fs gs) : symbolCountAll fs = symbolCountAll gs := by
  induction h with
  | nil => rfl
  | leaf _ ih => simp only [Located.symbolCountAll, symbolCount, ih]
  | scope _ _ ihbelow ihrest => simp only [Located.symbolCountAll, symbolCount, ihbelow, ihrest]
  | kept _ ih => simp only [Located.symbolCountAll, symbolCount, ih]
  | lost _ ih => simp only [Located.symbolCountAll, symbolCount, ih, Nat.zero_add]

theorem tops (h : Lacks k fs gs) (next : SymbolId) :
    Located.tops next fs = Located.tops next gs := by
  induction h generalizing next with
  | nil => rfl
  | leaf _ ih => simp only [Located.tops, top, symbolCount, ih]
  | scope below _ _ ih => simp only [Located.tops, top, symbolCount, below.symbolCountAll, ih]
  | kept _ ih => exact ih next
  | lost _ ih => exact ih next

/-- The entries are the same one by one: an omission takes no number. -/
theorem entriesAll (h : Lacks k fs gs) (parent next : SymbolId) :
    List.Forall₂ Entry.Same (Located.entriesAll parent next fs)
      (Located.entriesAll parent next gs) := by
  induction h generalizing parent next with
  | nil => exact .nil
  | leaf _ ih =>
      simp only [Located.entriesAll, entries, symbolCount, List.cons_append, List.nil_append]
      exact .cons ⟨rfl, rfl, rfl, rfl⟩ (ih parent _)
  | scope below _ ihbelow ihrest =>
      simp only [Located.entriesAll, entries, symbolCount, below.symbolCountAll, List.cons_append]
      exact .cons ⟨rfl, rfl, rfl, below.tops _⟩ (append_related (ihbelow _ _) (ihrest parent _))
  | kept _ ih => exact ih parent next
  | lost _ ih => exact ih parent next

/-- Only the number of omissions differs. -/
theorem tallyAll (h : Lacks k fs gs) (depth : Nat) :
    Located.tallyAll depth fs = (Located.tallyAll depth gs).join ⟨0, 0, 0, k⟩ := by
  induction h generalizing depth with
  | nil => rfl
  | leaf _ ih => simp only [Located.tallyAll, tally, ih, Stats.join_assoc]
  | scope _ _ ihbelow ihrest =>
      simp only [Located.tallyAll, tally, ihbelow, ihrest, Stats.join, Stats.mk.injEq]
      omega
  | kept _ ih => simp only [Located.tallyAll, tally, ih, Stats.join_assoc]
  | lost _ ih =>
      simp only [Located.tallyAll, tally, ih, Stats.join, Stats.mk.injEq]
      omega

/-- Sites that are read alike keep the omissions below them apart, unless they hide these. -/
theorem atSite {l : Layout} {count : Nat} {s s' : Site} (hkind : s.1.kind = s'.1.kind)
    (hread : s.reading? l count = s'.reading? l count) (hopen : k = 0 ∨ s.hides l = false)
    (h : Lacks k fs gs) : Lacks k (Located.atSite l count s fs) (Located.atSite l count s' gs) := by
  unfold Located.atSite
  rw [← hread, ← hkind]
  split
  · exact h
  · exact .kept h
  · rename_i d hd
    split
    · rename_i hdefine
      -- A macro definition with a symbol drops what is below it.
      have hhides : s.hides l = true := by
        have hisRead := (Site.reading?_ok_iff l count s).mp ⟨d, hd⟩
        simp [Site.hides, hdefine, hisRead]
      have hzero : k = 0 := by
        rcases hopen with hzero | hno
        · exact hzero
        · rw [hhides] at hno
          cases hno
      rw [hzero]
      exact .leaf .nil
    · split
      · exact .scope h .nil
      · exact .leaf h

theorem atSite_lost {l : Layout} {count : Nat} {s s' : Site} {reason : Omission}
    (h : Lacks k fs gs) (hread : s.reading? l count = some (.error reason))
    (hread' : s'.reading? l count = none) :
    Lacks (k + 1) (Located.atSite l count s fs) (Located.atSite l count s' gs) := by
  simp only [Located.atSite, hread, hread']
  exact .lost h

end Located.Lacks

/-! ### Demotion -/

namespace Placed

/-- The second row is the first with `k` nodes made errors: nodes that nothing looks for, where
nothing can be read, and that are not hidden.  The first row stands below the nodes `around`. -/
inductive Demotes (l : Layout) : List Node → Nat → List Placed → List Placed → Prop
  | nil {around : List Node} : Demotes l around 0 [] []
  | token {around : List Node} {k : Nat} {t : Token} {ps qs : List Placed}
      (rest : Demotes l around k ps qs) : Demotes l around k (.token t :: ps) (.token t :: qs)
  | keep {around : List Node} {j k : Nat} {n : Node} {children : List Placed} {ps qs : List Placed}
      (opened : j = 0 ∨ Site.hides l (n, around) = false)
      (below : Demotes l (n :: around) j n.children children) (rest : Demotes l around k ps qs) :
      Demotes l around (j + k) (n.toPlaced :: ps)
        (.node n.kind n.range n.leavesBefore children :: qs)
  | demote {around : List Node} {j k : Nat} {n : Node} {children : List Placed}
      {ps qs : List Placed} (kind : n.kind.isUnsought = true)
      (unread : ∀ count, ∃ reason, Site.reading? l count (n, around) = some (.error reason))
      (below : Demotes l (n :: around) j n.children children) (rest : Demotes l around k ps qs) :
      Demotes l around (j + k + 1) (n.toPlaced :: ps)
        (.node .error n.range n.leavesBefore children :: qs)

theorem isLate_faded (around : List Node) (p : Placed) :
    p.faded.isLate (around.map Node.faded) = p.isLate around := by
  cases p with
  | token t => rfl
  | node kind range before children =>
      have hkind : (kind.faded == .variableDeclarator) = (kind == .variableDeclarator) :=
        Kind.faded_beq rfl kind
      simp only [faded, isLate, hkind, Node.declaredType?_faded]

theorem clauses_faded (p : Placed) : p.faded.clauses = p.clauses := by
  cases p with
  | token t => rfl
  | node kind range before children => simp only [faded, clauses, Kind.branch?_faded]

namespace Demotes

variable {l : Layout} {around : List Node} {j k : Nat} {ps qs ps' qs' : List Placed}

/-- Fading makes errors of the nodes that are demoted, and of more. -/
theorem fadedAll_eq (h : Demotes l around k ps qs) : fadedAll ps = fadedAll qs := by
  induction h with
  | nil => rfl
  | token _ ih => simp only [fadedAll, ih]
  | keep _ _ _ ihbelow ihrest => simp only [fadedAll, Node.toPlaced, faded, ihbelow, ihrest]
  | demote kind _ _ _ ihbelow ihrest =>
      simp only [fadedAll, Node.toPlaced, faded, ihbelow, ihrest, Kind.faded, kind, if_true]
      rfl

theorem append (h : Demotes l around j ps qs) (h' : Demotes l around k ps' qs') :
    Demotes l around (j + k) (ps ++ ps') (qs ++ qs') := by
  induction h with
  | nil => simpa using h'
  | token _ ih => exact .token (ih h')
  | keep opened below _ _ ih =>
      rw [Nat.add_assoc]
      exact .keep opened below (ih h')
  | demote kind unread below _ _ ih =>
      rw [Nat.add_right_comm _ 1, Nat.add_assoc _ _ k]
      exact .demote kind unread below (ih h')

end Demotes

mutual

theorem demotes_self_one (l : Layout) : ∀ (p : Placed) (around : List Node),
    Demotes l around 0 [p] [p]
  | .token _, _ => .token .nil
  | .node kind range before children, _ =>
    .keep (n := ⟨kind, range, before, children⟩) (Or.inl rfl) (demotes_self l children _) .nil

/-- A row in which nothing is demoted. -/
theorem demotes_self (l : Layout) : ∀ (ps : List Placed) (around : List Node),
    Demotes l around 0 ps ps
  | [], _ => .nil
  | p :: ps, around => (demotes_self_one l p around).append (demotes_self l ps around)

end

/-! ### What is found in a demoted row -/

section Row

variable {l : Layout} {around around' : List Node} {k : Nat} {ps qs : List Placed}

/-- The second row gives the same findings as the first without `k` omissions, of which some come
early and the others late. -/
def LacksRow (l : Layout) (around around' : List Node) (count k : Nat) (ps qs : List Placed) :
    Prop :=
  ∃ i j, i + j = k ∧
    Located.Lacks i (locatedAll l around false count ps) (locatedAll l around' false count qs) ∧
    Located.Lacks j (locatedAll l around true count ps) (locatedAll l around' true count qs)

theorem LacksRow.below {count : Nat} (h : LacksRow l around around' count k ps qs) :
    Located.Lacks k
      (locatedAll l around false count ps ++ locatedAll l around true count ps)
      (locatedAll l around' false count qs ++ locatedAll l around' true count qs) := by
  obtain ⟨i, j, rfl, hearly, hlate⟩ := h
  exact hearly.append hlate

/-- An element comes early or late, and so do the omissions that it loses. -/
theorem LacksRow.cons {p q : Placed} {count m : Nat}
    (haround : around.map Node.faded = around'.map Node.faded) (hpq : p.faded = q.faded)
    (hhead : Located.Lacks m (p.located l around count) (q.located l around' count))
    (hrest : ∀ count, LacksRow l around around' count k ps qs) :
    LacksRow l around around' count (m + k) (p :: ps) (q :: qs) := by
  have hlate : q.isLate around' = p.isLate around := by
    rw [← isLate_faded around p, ← isLate_faded around' q, haround, hpq]
  have hclauses : q.clauses = p.clauses := by rw [← clauses_faded p, ← clauses_faded q, hpq]
  obtain ⟨i, j, rfl, hi, hj⟩ := hrest (count + p.clauses)
  simp only [LacksRow, locatedAll, hlate, hclauses]
  by_cases hp : p.isLate around = true
  · refine ⟨i, m + j, by omega, ?_, ?_⟩
    · simpa [hp] using hi
    · simpa [hp] using hhead.append hj
  · have hp' : p.isLate around = false := by simpa using hp
    refine ⟨m + i, j, by omega, ?_, ?_⟩
    · simpa [hp'] using hhead.append hi
    · simpa [hp'] using hj

theorem reading?_of_error (count : Nat) {s : Site} (h : s.1.kind = .error) :
    s.reading? l count = none := by
  simp [Site.reading?, h, Kind.branch?]

/-- **A row and its demotion give the same findings, but for the omissions of the demoted nodes.**
The nodes around the two may differ in what fades. -/
theorem Demotes.lacks (h : Demotes l around k ps qs)
    (haround : around.map Node.faded = around'.map Node.faded) (count : Nat) :
    LacksRow l around around' count k ps qs := by
  induction h generalizing around' count with
  | nil => exact ⟨0, 0, rfl, .nil, .nil⟩
  | @token around k t ps qs _ ih =>
      rw [← Nat.zero_add k]
      exact LacksRow.cons (p := .token t) (q := .token t) haround rfl .nil (ih haround)
  | @keep around j k n children ps qs opened below _ ihbelow ihrest =>
      let m : Node := ⟨n.kind, n.range, n.leavesBefore, children⟩
      have hfaded : n.faded = m.faded := by
        simp only [Node.faded, Node.fadedAs, m, below.fadedAll_eq]
      have hinner : (n :: around).map Node.faded = (m :: around').map Node.faded := by
        rw [List.map_cons, List.map_cons, hfaded, haround]
      refine LacksRow.cons haround ?_ ?_ (ihrest haround)
      · simp only [Node.toPlaced, faded, below.fadedAll_eq]
      · exact Located.Lacks.atSite rfl (Site.reading?_of_faded l count rfl hfaded haround) opened
          (ihbelow hinner 0).below
  | @demote around j k n children ps qs kind unread below _ ihbelow ihrest =>
      let m : Node := ⟨.error, n.range, n.leavesBefore, children⟩
      have hkind : n.kind.faded = .error := if_pos kind
      have hfaded : n.faded = m.faded := by
        simp only [Node.faded, Node.fadedAs, m, below.fadedAll_eq, hkind]
        rfl
      have hinner : (n :: around).map Node.faded = (m :: around').map Node.faded := by
        rw [List.map_cons, List.map_cons, hfaded, haround]
      obtain ⟨reason, hreason⟩ := unread count
      rw [Nat.add_right_comm]
      refine LacksRow.cons haround ?_ ?_ (ihrest haround)
      · simp only [Node.toPlaced, faded, below.fadedAll_eq, hkind]
        rfl
      · -- The omission is lost, and what is below both is found in the same way.
        have herror : Site.reading? l count (m, around') = none := reading?_of_error count rfl
        exact (ihbelow hinner 0).below.atSite_lost hreason herror

end Row

end Placed

/-! ### Demotion in a tree -/

namespace Element

/-- Elements with the same text and as many leaves, so that all that follows stands in the same
place. -/
structure SameExtent (e e' : Element) : Prop where
  text : e.text = e'.text
  leafCount : e.leafCount = e'.leafCount

theorem SameExtent.refl (e : Element) : SameExtent e e := ⟨rfl, rfl⟩

theorem SameExtent.size {e e' : Element} (h : SameExtent e e') : e.size = e'.size := by
  rw [← size_text, ← size_text, h.text]

variable {es es' : List Element}

theorem textAll_sameExtent (h : List.Forall₂ SameExtent es es') : textAll es = textAll es' := by
  induction h with
  | nil => rfl
  | cons he _ ih => rw [textAll, textAll, he.text, ih]

theorem sizeAll_sameExtent (h : List.Forall₂ SameExtent es es') : sizeAll es = sizeAll es' := by
  rw [← size_textAll, ← size_textAll, textAll_sameExtent h]

theorem leafCountAll_sameExtent (h : List.Forall₂ SameExtent es es') :
    leafCountAll es = leafCountAll es' := by
  induction h with
  | nil => rfl
  | cons he _ ih => rw [leafCountAll, leafCountAll, he.leafCount, ih]

theorem sameExtent_node (tag tag' : Nat) (h : List.Forall₂ SameExtent es es') :
    SameExtent (.node tag es) (.node tag' es') := by
  refine ⟨textAll_sameExtent h, ?_⟩
  cases h with
  | nil => simp only [leafCount]
  | cons he hrest => simp only [leafCount, he.leafCount, leafCountAll_sameExtent hrest]

theorem sameExtent_modify {f : Element → Element} (hf : ∀ e, SameExtent e (f e)) (i : Nat)
    (es : List Element) : List.Forall₂ SameExtent es (es.modify i f) := by
  induction es generalizing i with
  | nil => simp
  | cons e es ih =>
      cases i with
      | zero => exact .cons (hf e) (List.forall₂_same.mpr fun e _ => .refl e)
      | succ i => exact .cons (.refl e) (ih i)

/-- The element with another tag at the node that a path leads to.  The path has the places of
the children to go to. -/
def retag (tag : Nat) : List Nat → Element → Element
  | _, .token tag text => .token tag text
  | [], .node _ children => .node tag children
  | i :: path, .node old children => .node old (children.modify i (retag tag path))

theorem sameExtent_retag (tag : Nat) (path : List Nat) (e : Element) :
    SameExtent e (e.retag tag path) := by
  induction path generalizing e with
  | nil =>
      cases e with
      | token => exact .refl _
      | node old children =>
          exact sameExtent_node _ _ (List.forall₂_same.mpr fun e _ => .refl e)
  | cons i path ih =>
      cases e with
      | token => exact .refl _
      | node old children => exact sameExtent_node _ _ (sameExtent_modify ih i children)

/-- A change that keeps the extent of one element leaves all others in their places. -/
theorem placeAll_modify {f : Element → Element} (hf : ∀ e, SameExtent e (f e))
    {es : List Element} {start before i : Nat} {p : Placed}
    (h : (placeAll start before es)[i]? = some p) :
    ∃ e start' before' front back, p = e.place start' before' ∧
      placeAll start before es = front ++ p :: back ∧
      placeAll start before (es.modify i f) = front ++ (f e).place start' before' :: back := by
  induction es generalizing start before i with
  | nil => simp [placeAll] at h
  | cons e es ih =>
      cases i with
      | zero =>
          obtain rfl : e.place start before = p := by simpa [placeAll] using h
          refine ⟨e, start, before, [], _, rfl, rfl, ?_⟩
          rw [List.modify_zero_cons, placeAll, ← (hf e).size, ← (hf e).leafCount]
          rfl
      | succ i =>
          obtain ⟨x, start', before', front, back, hp, hrow, hrow'⟩ :=
            ih (by simpa [placeAll] using h)
          refine ⟨x, start', before', e.place start before :: front, back, hp, ?_, ?_⟩
          · rw [placeAll, hrow, List.cons_append]
          · rw [List.modify_succ_cons, placeAll, hrow', List.cons_append]

end Element

namespace Placed

/-- The site that a path leads to, from an element with the nodes `around` it. -/
def siteAt? (around : List Node) : List Nat → Placed → Option Site
  | _, .token _ => none
  | [], .node kind range before children => some (⟨kind, range, before, children⟩, around)
  | i :: path, .node kind range before children =>
    children[i]?.bind (siteAt? (⟨kind, range, before, children⟩ :: around) path)

theorem mem_nodes_of_siteAt? {s : Site} {path : List Nat} {p : Placed} {around : List Node}
    (h : siteAt? around path p = some s) : s ∈ p.nodes around := by
  induction path generalizing p around with
  | nil =>
      cases p with
      | token t => simp [siteAt?] at h
      | node kind range before children =>
          obtain rfl := Option.some.inj h
          exact List.mem_cons_self
  | cons i path ih =>
      cases p with
      | token t => simp [siteAt?] at h
      | node kind range before children =>
          obtain ⟨q, hq, hs⟩ := Option.bind_eq_some_iff.mp h
          exact List.mem_cons_of_mem _ (mem_nodesAll.mpr ⟨q, List.mem_of_getElem? hq, ih hs⟩)

mutual

/-- Every node can be reached. -/
theorem exists_siteAt? {s : Site} : ∀ (p : Placed) (around : List Node), s ∈ p.nodes around →
    ∃ path, siteAt? around path p = some s
  | .token _, _, h => by simp [nodes] at h
  | .node kind range before children, around, h => by
    rcases List.mem_cons.mp h with rfl | h
    · exact ⟨[], rfl⟩
    · obtain ⟨i, path, hs⟩ := exists_siteAtAll? children _ h
      exact ⟨i :: path, hs⟩

theorem exists_siteAtAll? {s : Site} : ∀ (ps : List Placed) (around : List Node),
    s ∈ nodesAll around ps → ∃ (i : Nat) (path : List Nat),
      ps[i]?.bind (siteAt? around path) = some s
  | [], _, h => by simp [nodesAll] at h
  | p :: ps, around, h => by
    rcases List.mem_append.mp h with h | h
    · obtain ⟨path, hs⟩ := exists_siteAt? p around h
      exact ⟨0, path, hs⟩
    · obtain ⟨i, path, hs⟩ := exists_siteAtAll? ps around h
      exact ⟨i + 1, path, hs⟩

end

end Placed

/-- The site is visible and cannot be read, and nothing looks for its node. -/
structure Site.IsOmitted (l : Layout) (s : Site) : Prop where
  kind : s.1.kind.isUnsought = true
  unread : ∀ count, ∃ reason, s.reading? l count = some (.error reason)
  visible : s.isHidden l = false

namespace Element

open Placed

variable {l : Layout} {s : Site}

/-- In a row only the element on the path changes. -/
theorem demotes_modify {path : List Nat} {around : List Node}
    (helement : ∀ (e : Element) (start before : Nat),
      siteAt? around path (e.place start before) = some s →
        Demotes l around 1 [e.place start before]
          [(e.retag Kind.error.tag path).place start before])
    {es : List Element} {start before i : Nat}
    (h : (placeAll start before es)[i]?.bind (siteAt? around path) = some s) :
    Demotes l around 1 (placeAll start before es)
      (placeAll start before (es.modify i (retag Kind.error.tag path))) := by
  obtain ⟨p, hp, hs⟩ := Option.bind_eq_some_iff.mp h
  obtain ⟨e, start', before', front, back, rfl, hrow, hrow'⟩ :=
    placeAll_modify (sameExtent_retag Kind.error.tag path) hp
  have hback := (helement e start' before' hs).append (demotes_self l back around)
  rw [hrow, hrow']
  simpa using (demotes_self l front around).append hback

/-- To make an error of an omitted node is a demotion. -/
theorem demotes_retag (hs : s.IsOmitted l) (path : List Nat) {e : Element} {start before : Nat}
    {around : List Node} (h : siteAt? around path (e.place start before) = some s) :
    Demotes l around 1 [e.place start before]
      [(e.retag Kind.error.tag path).place start before] := by
  induction path generalizing e start before around with
  | nil =>
      cases e with
      | token tag text => simp [place, siteAt?] at h
      | node tag children =>
          simp only [place, siteAt?, Option.some.injEq] at h
          subst h
          exact .demote hs.kind hs.unread (demotes_self l _ _) .nil
  | cons i path ih =>
      cases e with
      | token tag text => simp [place, siteAt?] at h
      | node tag children =>
          let n : Node := ⟨.ofTag tag, .ofLength start (sizeAll children), before,
            placeAll start before children⟩
          have hbelow : (placeAll start before children)[i]?.bind (siteAt? (n :: around) path)
              = some s := h
          -- What is on the way to an omitted node hides nothing.
          have hopen : Site.hides l (n, around) = false := by
            obtain ⟨q, -, hq⟩ := Option.bind_eq_some_iff.mp hbelow
            have hsuffix : n :: around <:+ s.2 :=
              (nodes_outward (m := s) q (mem_nodes_of_siteAt? hq)).1
            rw [Bool.eq_false_iff]
            intro hhides
            have hhidden := Site.isHidden_below hsuffix hhides
            rw [hs.visible] at hhidden
            cases hhidden
          have hsize := sizeAll_sameExtent
            (sameExtent_modify (sameExtent_retag Kind.error.tag path) i children)
          have hrow := demotes_modify (fun e start before he => ih he) hbelow
          simp only [retag, place, ← hsize]
          exact .keep (n := n) (Or.inr hopen) hrow .nil

end Element

namespace SourceTree

/-- The tree with another tag at the node that a path leads to. -/
def retag (t : SourceTree) (tag : Nat) : List Nat → SourceTree
  | [] => { t with tag }
  | i :: path => { t with children := t.children.modify i (Element.retag tag path) }

/-- The site that a path leads to. -/
def siteAt? (t : SourceTree) (path : List Nat) : Option Site := t.node.toPlaced.siteAt? [] path

variable {t w : SourceTree}

theorem exists_siteAt? {s : Site} (hs : s ∈ t.node.nodes) : ∃ path, t.siteAt? path = some s :=
  Placed.exists_siteAt? t.node.toPlaced [] hs

/-- The second tree is the first with `k` omitted nodes made errors. -/
structure Demotes (t w : SourceTree) (k : Nat) : Prop where
  file : w.file = t.file
  dialect : w.dialect = t.dialect
  tag : w.tag = t.tag
  text : w.text = t.text
  children : Placed.Demotes t.layout [t.node] k t.node.children w.node.children

/-- To make an error of an omitted node below the root is a demotion. -/
theorem demotes_retag {s : Site} (hs : s.IsOmitted t.layout) (hbelow : s.2 ≠ []) {path : List Nat}
    (h : t.siteAt? path = some s) : t.Demotes (t.retag Kind.error.tag path) 1 := by
  cases path with
  | nil =>
      obtain rfl := Option.some.inj h
      exact absurd rfl hbelow
  | cons i path =>
      have hextent := Element.sameExtent_modify (Element.sameExtent_retag Kind.error.tag path) i
        t.children
      exact ⟨rfl, rfl, rfl, (Element.textAll_sameExtent hextent).symm,
        Element.demotes_modify (fun _ _ _ he => Element.demotes_retag hs path he) h⟩

namespace Demotes

variable {k : Nat}

theorem ref_node (h : t.Demotes w k) : w.node.ref = t.node.ref := by
  have htext : Element.textAll w.children = Element.textAll t.children := h.text
  simp only [Node.ref, node, h.tag, ← Element.size_textAll, htext]

theorem faded_node (h : t.Demotes w k) : t.node.faded = w.node.faded := by
  obtain ⟨hkind, hrange⟩ := NodeRef.mk.inj h.ref_node
  have hbefore : w.node.leavesBefore = t.node.leavesBefore := rfl
  simp only [Node.faded, Node.fadedAs, hrange, hkind, hbefore, h.children.fadedAll_eq]

/-- The layout is that of the text and the leaves, and these stay. -/
theorem layout_eq (h : t.Demotes w k) : w.layout = t.layout := by
  have hleaves : w.node.leaves = t.node.leaves := by
    rw [← w.node.leaves_fadedAs w.node.kind.faded, ← t.node.leaves_fadedAs t.node.kind.faded]
    exact congrArg Node.leaves h.faded_node.symm
  simp only [layout, Node.tokens, hleaves, h.text]

theorem span?_node (h : t.Demotes w k) : w.layout.span? w.node = t.layout.span? t.node := by
  rw [h.layout_eq, ← w.node.span?_fadedAs w.node.kind.faded,
    ← t.node.span?_fadedAs t.node.kind.faded]
  exact congrArg t.layout.span? h.faded_node.symm

/-- **The findings of the trees differ in the omissions of the demoted nodes only.** -/
theorem located_lacks (h : t.Demotes w k) :
    Located.Lacks k (t.located t.layout) (w.located w.layout) := by
  have haround : [t.node].map Node.faded = [w.node].map Node.faded := by
    rw [List.map_singleton, List.map_singleton, h.faded_node]
  -- Below the root nothing comes late.
  have hlacks := (h.children.lacks haround 0).below
  rw [Placed.locatedAll_late rfl, Placed.locatedAll_late rfl, List.append_nil,
    List.append_nil] at hlacks
  rw [h.layout_eq]
  exact hlacks

theorem entries_same (h : t.Demotes w k) : List.Forall₂ Entry.Same t.entries w.entries :=
  h.located_lacks.entriesAll SymbolId.root 1

theorem stats_eq (h : t.Demotes w k) : t.stats = w.stats.join ⟨0, 0, 0, k⟩ := by
  rw [stats, stats, h.located_lacks.tallyAll, Stats.join_assoc]

/-- **The models differ in the number of omissions only.** -/
theorem model_eq (h : t.Demotes w k) :
    t.model = { w.model with stats := w.model.stats.join ⟨0, 0, 0, k⟩ } := by
  have htable : t.rootTable = w.rootTable := by
    rw [rootTable, rootTable, h.file, h.ref_node, h.span?_node]
  simp only [model, h.file, h.dialect, htable, h.located_lacks.tops, h.layout_eq, h.stats_eq,
    Entry.symbols_same h.entries_same, Entry.imports_same h.entries_same]

theorem fits (h : t.Demotes w k) (ht : t.Fits) : w.Fits := by
  obtain ⟨hsize, hroot, hdrafts, hstats⟩ := ht
  refine ⟨?_, ?_, ?_, ?_⟩
  · rw [← w.size_text, h.text, t.size_text]
    exact hsize
  · rw [h.span?_node]
    exact hroot
  · intro e he
    have hmem : e.draft ∈ t.entries.map Entry.draft := by
      rw [Entry.drafts_same h.entries_same]
      exact List.mem_map_of_mem he
    obtain ⟨x, hx, hdraft⟩ := List.mem_map.mp hmem
    rw [← hdraft]
    exact hdrafts x hx
  · rw [h.stats_eq] at hstats
    exact hstats.of_join

end Demotes

/-- What is omitted is visible and cannot be read. -/
theorem isOmitted_of_mem {s : Site} (hs : s ∈ t.omitted) (hkind : s.1.kind.isUnsought = true) :
    s.IsOmitted t.layout := by
  have hmem : s ∈ t.recorded ++ t.omitted := List.mem_append_right _ hs
  obtain ⟨hnodes, hconstruct, hvisible⟩ := mem_recorded_append_omitted.mp hmem
  refine ⟨hkind, ?_, hvisible⟩
  intro count
  obtain ⟨reading, hread⟩ := Option.isSome_iff_exists.mp
    ((Site.isSome_reading? t.layout count s).trans hconstruct)
  cases reading with
  | error reason => exact ⟨reason, hread⟩
  | ok d =>
      have hisRead := (Site.reading?_ok_iff t.layout count s).mp ⟨d, hread⟩
      have hrecorded : s ∈ t.recorded := mem_recorded.mpr ⟨hnodes, hisRead, hvisible⟩
      obtain ⟨-, -, hapart⟩ := List.nodup_append.mp t.nodup_recorded_append_omitted
      exact absurd rfl (hapart s hrecorded s hs)

end SourceTree

/-- **An omitted directive, inherit statement or parameter leaves no trace.**  If its node is made
an error the analysis gives the same, with one omission less. -/
theorem Analysis.omitted_transparent (t : SourceTree) :
    (t.InBounds → ∃ a, Analysis.ofTree t = .ok a) ∧
      ∀ a, Analysis.ofTree t = .ok a → ∃ recorded omitted, a.Accounts t recorded omitted ∧
        ∀ s ∈ omitted, s.1.kind.isUnsought = true → (∃ path, t.siteAt? path = some s) ∧
          ∀ path, t.siteAt? path = some s →
            ∃ b, Analysis.ofTree (t.retag Kind.error.tag path) = .ok b ∧
              a.model = { b.model with
                stats := { b.model.stats with omissions := b.model.stats.omissions + 1 } } := by
  refine ⟨fun h => ⟨_, Analysis.ofTree_of_inBounds h⟩, ?_⟩
  intro a ha
  obtain ⟨hfits, rfl⟩ := Analysis.ofTree_ok_iff.mp ha
  refine ⟨t.recorded, t.omitted, t.accounts, ?_⟩
  intro s hs hkind
  have hmem : s ∈ t.recorded ++ t.omitted := List.mem_append_right _ hs
  obtain ⟨hnodes, heligible⟩ := (t.accounts.eligible s).mp hmem
  refine ⟨SourceTree.exists_siteAt? hnodes, ?_⟩
  intro path hpath
  have hdemotes := SourceTree.demotes_retag (SourceTree.isOmitted_of_mem hs hkind)
    heligible.belowRoot hpath
  refine ⟨_, Analysis.ofTree_ok_iff.mpr ⟨hdemotes.fits hfits, rfl⟩, ?_⟩
  rw [hdemotes.model_eq]
  simp [Stats.join]

/-- A function whose parameter has a type and a default, but no name. -/
def SourceTree.unnamed : SourceTree :=
  .ofItems ⟨0⟩ {}
    [.node Kind.functionDecl.tag
      [.node Kind.functionHeader.tag
        [Phrase.name "f",
         .node Kind.paramList.tag
          [Phrase.word .lParen "(",
           .node Kind.param.tag [Phrase.type "int" false, Phrase.blank, Phrase.identifier "x"],
           Phrase.word .rParen ")"]],
       Phrase.block [Phrase.statement (Phrase.call "g" [])]]]

theorem Analysis.omitted_transparent_unnamed :
    SourceTree.unnamed.InBounds ∧ ∃ a b, Analysis.ofTree .unnamed = .ok a ∧
      Analysis.ofTree (SourceTree.unnamed.retag Kind.error.tag [0, 0, 1, 1]) = .ok b ∧
      a.model.table = b.model.table ∧ a.model.table.size = 6 ∧
      a.model.stats.omissions = 1 ∧ b.model.stats.omissions = 0 := by
  have hbounds : SourceTree.unnamed.InBounds := ⟨by decide +kernel, by decide +kernel⟩
  have hcounts : ((Analysis.ofTree .unnamed).toOption.map fun a =>
      (a.model.table.size, a.model.stats.omissions)) = some (6, 1) := by decide +kernel
  obtain ⟨hok, hall⟩ := omitted_transparent .unnamed
  obtain ⟨a, ha⟩ := hok hbounds
  obtain ⟨recorded, omitted, haccounts, htransparent⟩ := hall a ha
  obtain ⟨s, hs⟩ : ∃ s, SourceTree.unnamed.siteAt? [0, 0, 1, 1] = some s := ⟨_, rfl⟩
  have hnodes : s ∈ SourceTree.unnamed.node.nodes := Placed.mem_nodes_of_siteAt? hs
  have hsite : s.1.kind = .param ∧ s.1.hasParts = false ∧ s.2 ≠ [] ∧
      ∀ m ∈ Site.outward s.2, m.1.kind ≠ .defineDirective := by
    obtain rfl := Option.some.inj hs
    exact ⟨rfl, by decide +kernel, by simp, by decide +kernel⟩
  obtain ⟨hkind, hparts, hbelow, hopen⟩ := hsite
  have hmem : s ∈ recorded ++ omitted := (haccounts.eligible s).mpr
    ⟨hnodes, hbelow, fun m hm hdefine => absurd hdefine (hopen m hm), .alone (by rw [hkind]; rfl)⟩
  have homitted : s ∈ omitted := by
    rcases List.mem_append.mp hmem with hrecorded | homitted
    · have hcomplete := ((haccounts.complete s hmem).mp hrecorded).1
      rw [hparts] at hcomplete
      cases hcomplete
    · exact homitted
  obtain ⟨-, hretag⟩ := htransparent s homitted (by rw [hkind]; rfl)
  obtain ⟨b, hb, hmodel⟩ := hretag _ hs
  rw [ha] at hcounts
  obtain ⟨hsize, homissions⟩ := Prod.mk.inj (Option.some.inj hcounts)
  refine ⟨hbounds, a, b, ha, hb, by rw [hmodel], hsize, homissions, ?_⟩
  rw [hmodel] at homissions
  exact Nat.succ.inj homissions

end LpcSymbols
