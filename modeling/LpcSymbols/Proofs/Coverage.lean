/-
The walk reads every construct once.

Which sites are constructs, and which of them give a draft, can be said of a site by
itself: by its kind, its parts and its span, and by the node around it.  The one
thing that depends on nodes further out is whether a site is looked at at all,
because a macro definition with a symbol hides what is below it.

`readings` lists what a row of findings says of the sites.  `readings_perm` says that
the sites in this list are the constructs of the tree that are not hidden, each once,
in an order that differs from the order of the tree only in that the declarators of a
declaration come after its other children.
-/
import LpcSymbols.Proofs.Spans
import LpcSymbols.Proofs.Walk

namespace LpcSymbols

namespace Site

/-- The nodes around an element as sites, nearest first. -/
def outward : List Node → List Site
  | [] => []
  | n :: around => (n, around) :: outward around

theorem outward_suffix {a b : List Node} (h : a <:+ b) : outward a <:+ outward b := by
  obtain ⟨front, rfl⟩ := h
  induction front with
  | nil => exact List.suffix_refl _
  | cons n front ih => exact ih.trans (List.suffix_cons _ _)

theorem suffix_of_mem_outward {around : List Node} {m : Site} (h : m ∈ outward around) :
    m.1 :: m.2 <:+ around := by
  induction around with
  | nil => simp [outward] at h
  | cons n around ih =>
      rcases List.mem_cons.mp h with rfl | hm
      · exact List.suffix_refl _
      · exact (ih hm).trans (List.suffix_cons _ _)

/-- Something is read at the site. -/
def isConstruct (l : Layout) (s : Site) : Bool :=
  !s.2.isEmpty &&
    match s.1.kind with
    | .defineDirective | .selectionDirective | .includeDirective | .inheritStatement
    | .functionDecl | .param | .ifStatement | .inlineClosure | .primaryExpr | .identExpr => true
    | .variableDecl => !s.1.type?.isSome
    | .variableDeclarator => (declaredType? s.2).isSome
    | kind => kind.branch?.isSome && (ifSpan? l s.2).isSome

theorem isSome_reading? (l : Layout) (count : Nat) (s : Site) :
    (s.reading? l count).isSome = s.isConstruct l := by
  unfold reading? isConstruct
  cases hroot : s.2.isEmpty with
  | true => rfl
  | false =>
      simp only [Bool.false_eq_true, if_false, Bool.not_false, Bool.true_and]
      split
      case h_7 hk =>
        rw [hk]
        cases htype : s.1.type? <;> simp [Draft.declaredType, htype, Except.map]
      case h_8 hk =>
        rw [hk]
        cases declaredType? s.2 <;> rfl
      case h_13 =>
        cases hbranch : s.1.kind.branch? <;> cases ifSpan? l s.2 <;> simp [hbranch]
      all_goals
        rename_i hk
        rw [hk]
        rfl

/-- A draft is read at the site. -/
def isRead (l : Layout) (s : Site) : Bool :=
  s.isConstruct l && s.1.hasParts && (l.span? s.1).isSome

theorem reading?_ok_iff (l : Layout) (count : Nat) (s : Site) :
    (∃ d, s.reading? l count = some (.ok d)) ↔ s.isRead l = true := by
  unfold isRead
  rw [← isSome_reading? l count s]
  cases hread : s.reading? l count with
  | none => simp
  | some e =>
      have hok := (reading?_readsAs hread).isOk
      simpa using hok

/-- What is below the site is not looked at. -/
def hides (l : Layout) (s : Site) : Bool := s.1.kind == .defineDirective && s.isRead l

/-- The site is below one that hides it. -/
def isHidden (l : Layout) (s : Site) : Bool := (outward s.2).any (hides l)

theorem isHidden_below {l : Layout} {s : Site} {n : Node} {around : List Node}
    (h : n :: around <:+ s.2) (hn : hides l (n, around) = true) : s.isHidden l = true :=
  List.any_eq_true.mpr ⟨(n, around), (outward_suffix h).subset List.mem_cons_self, hn⟩

end Site

namespace Placed

mutual

/-- The nodes of an element are inside the nodes around it, and what is around them is there
too. -/
theorem nodes_outward {around : List Node} {s m : Site} :
    ∀ p : Placed, s ∈ p.nodes around → around <:+ s.2 ∧
      (m ∈ Site.outward s.2 → m ∈ p.nodes around ∨ m ∈ Site.outward around)
  | .token _, hs => by simp [nodes] at hs
  | .node kind range before children, hs => by
    rcases List.mem_cons.mp hs with rfl | hs
    · exact ⟨List.suffix_refl _, Or.inr⟩
    · obtain ⟨hsuffix, hout⟩ := nodesAll_outward children hs
      refine ⟨(List.suffix_cons _ _).trans hsuffix, ?_⟩
      intro hm
      rcases hout hm with hm | hm
      · exact Or.inl (List.mem_cons_of_mem _ hm)
      · rcases List.mem_cons.mp hm with rfl | hm
        · exact Or.inl List.mem_cons_self
        · exact Or.inr hm

theorem nodesAll_outward {around : List Node} {s m : Site} :
    ∀ ps : List Placed, s ∈ nodesAll around ps → around <:+ s.2 ∧
      (m ∈ Site.outward s.2 → m ∈ nodesAll around ps ∨ m ∈ Site.outward around)
  | [], hs => by simp [nodesAll] at hs
  | p :: ps, hs => by
    simp only [nodesAll, List.mem_append] at hs ⊢
    rcases hs with hs | hs
    · obtain ⟨hsuffix, hout⟩ := nodes_outward p hs
      exact ⟨hsuffix, fun hm => (hout hm).imp_left Or.inl⟩
    · obtain ⟨hsuffix, hout⟩ := nodesAll_outward ps hs
      exact ⟨hsuffix, fun hm => (hout hm).imp_left Or.inr⟩

end

end Placed

/-- The nodes around a node of a tree are nodes of the tree. -/
theorem SourceTree.mem_nodes_of_outward (t : SourceTree) {s m : Site} (hs : s ∈ t.node.nodes)
    (hm : m ∈ Site.outward s.2) : m ∈ t.node.nodes := by
  rcases (Placed.nodes_outward t.node.toPlaced hs).2 hm with hm | hm
  · exact hm
  · simp [Site.outward] at hm

namespace Located

mutual

/-- What a finding says of the sites in it. -/
def readings : Located → List (Site × Except Omission Draft)
  | .leaf site draft => [(site, .ok draft)]
  | .scope site draft inside => (site, .ok draft) :: readingsAll inside
  | .omitted site reason => [(site, .error reason)]

/-- What findings say of the sites in them. -/
def readingsAll : List Located → List (Site × Except Omission Draft)
  | [] => []
  | f :: fs => f.readings ++ readingsAll fs

end

theorem readingsAll_append (fs gs : List Located) :
    readingsAll (fs ++ gs) = readingsAll fs ++ readingsAll gs := by
  induction fs with
  | nil => rfl
  | cons f fs ih => simp only [List.cons_append, readingsAll, ih, List.append_assoc]

variable {l : Layout} {around : List Node} {count : Nat}

/-- A site adds its own reading to those below, unless it hides them. -/
theorem readingsAll_atSite (s : Site) (below : List Located) :
    readingsAll (atSite l count s below) = (s.reading? l count).toList.map (s, ·) ++
      if s.hides l then [] else readingsAll below := by
  have hread := Site.reading?_ok_iff l count s
  unfold atSite Site.hides
  split
  · rename_i hnone
    have hnot : s.isRead l = false := by simpa [hnone] using hread
    simp [hnone, hnot]
  · rename_i reason herror
    have hnot : s.isRead l = false := by simpa [herror] using hread
    simp [herror, hnot, readingsAll, readings]
  · rename_i draft hok
    have hyes : s.isRead l = true := hread.mp ⟨draft, hok⟩
    simp only [hok, hyes, Bool.and_true, beq_iff_eq]
    split
    · simp [readingsAll, readings]
    · split <;> simp [readingsAll, readings]

end Located

namespace Placed

open Located

/-- Every finding says what is read at its site. -/
theorem kept_reading? (l : Layout) : Kept l fun _ fs =>
    ∀ x ∈ readingsAll fs, ∃ c, x.1.reading? l c = some x.2 where
  nil := by
    intro around x hx
    simp [readingsAll] at hx
  append := by
    intro around fs gs hf hg x hx
    rw [readingsAll_append] at hx
    rcases List.mem_append.mp hx with hx | hx
    · exact hf x hx
    · exact hg x hx
  atSite := by
    intro n around count hbelow x hx
    simp only [readingsAll_atSite, List.mem_append, List.mem_map, Option.mem_toList] at hx
    rcases hx with ⟨e, he, rfl⟩ | hx
    · exact ⟨count, he⟩
    · split at hx
      · simp at hx
      · exact hbelow x hx

/-- The constructs that are not hidden. -/
def visible (l : Layout) (sites : List Site) : List Site :=
  sites.filter fun s => s.isConstruct l && !s.isHidden l

theorem visible_append (l : Layout) (a b : List Site) :
    visible l (a ++ b) = visible l a ++ visible l b := List.filter_append ..

theorem visible_below {l : Layout} {n : Node} {around : List Node}
    (hn : Site.hides l (n, around) = true) (ps : List Placed) :
    visible l (nodesAll (n :: around) ps) = [] := by
  refine List.filter_eq_nil_iff.mpr ?_
  intro s hs
  have hsuffix := (nodesAll_outward (m := (n, around)) ps hs).1
  simp [Site.isHidden_below hsuffix hn]

/-- What is found at a site covers the site, if what is found below it covers what is below. -/
theorem readings_atSite_perm {l : Layout} {n : Node} {around : List Node} (count : Nat)
    (hopen : (Site.outward around).any (Site.hides l) = false) {below : List Located}
    (hbelow : (Site.outward (n :: around)).any (Site.hides l) = false →
      ((readingsAll below).map (·.1)).Perm (visible l (nodesAll (n :: around) n.children))) :
    ((readingsAll (atSite l count (n, around) below)).map (·.1)).Perm
      (visible l ((n, around) :: nodesAll (n :: around) n.children)) := by
  have hown : ((Site.reading? l count (n, around)).toList.map ((n, around), ·)).map (·.1)
      = visible l [(n, around)] := by
    have hvisible : Site.isHidden l (n, around) = false := hopen
    have hread := Site.isSome_reading? l count (n, around)
    cases hc : Site.reading? l count (n, around) with
    | none => simp [visible, ← hread, hc]
    | some e => simp [visible, ← hread, hc, hvisible]
  rw [readingsAll_atSite, List.map_append, hown,
    show (n, around) :: nodesAll (n :: around) n.children
      = [(n, around)] ++ nodesAll (n :: around) n.children from rfl, visible_append]
  refine List.Perm.append_left _ ?_
  by_cases hhides : Site.hides l (n, around) = true
  · rw [if_pos hhides, visible_below hhides]
    exact List.Perm.refl _
  · rw [if_neg hhides]
    refine hbelow ?_
    simp [Site.outward, hhides, hopen]

mutual

theorem readings_located_perm (l : Layout) : ∀ (p : Placed) (around : List Node) (count : Nat),
    (Site.outward around).any (Site.hides l) = false →
      ((readingsAll (p.located l around count)).map (·.1)).Perm (visible l (p.nodes around))
  | .token _, _, _, _ => List.Perm.refl _
  | .node kind range before children, around, count, hopen => by
    refine readings_atSite_perm (n := ⟨kind, range, before, children⟩) count hopen ?_
    intro hbelow
    rw [readingsAll_append, List.map_append]
    exact readings_locatedAll_perm l children _ 0 hbelow

/-- The early and the late findings of a row cover its constructs. -/
theorem readings_locatedAll_perm (l : Layout) :
    ∀ (ps : List Placed) (around : List Node) (count : Nat),
      (Site.outward around).any (Site.hides l) = false →
        ((readingsAll (locatedAll l around false count ps)).map (·.1) ++
          (readingsAll (locatedAll l around true count ps)).map (·.1)).Perm
          (visible l (nodesAll around ps))
  | [], _, _, _ => List.Perm.refl _
  | p :: ps, around, count, hopen => by
    have hhead := readings_located_perm l p around count hopen
    have hrest := readings_locatedAll_perm l ps around (count + p.clauses) hopen
    simp only [locatedAll, nodesAll, visible_append, readingsAll_append, List.map_append]
    cases p.isLate around with
    | false =>
        simp only [if_true, Bool.false_eq_true, if_false, readingsAll, List.map_nil, List.nil_append,
          List.append_assoc]
        exact hhead.append hrest
    | true =>
        -- The head moves behind the early findings of the rest.
        simp only [if_true, Bool.true_eq_false, if_false, readingsAll, List.map_nil, List.nil_append]
        refine List.Perm.trans ?_ (hhead.append hrest)
        rw [← List.append_assoc, ← List.append_assoc]
        exact List.perm_append_comm.append_right _

end

end Placed

namespace SourceTree

/-- What is read in a tree, site by site. -/
def readings (t : SourceTree) : List (Site × Except Omission Draft) :=
  Located.readingsAll (t.located t.layout)

/-- **The walk reads the constructs of a tree that are not hidden, each of them once.** -/
theorem readings_perm (t : SourceTree) :
    (t.readings.map (·.1)).Perm (Placed.visible t.layout t.node.nodes) := by
  have hroot : ∀ s : Site, s.2 = [] → s.isConstruct t.layout = false := by
    intro s hs
    simp [Site.isConstruct, hs]
  have hopen : (Site.outward [t.node]).any (Site.hides t.layout) = false := by
    simp [Site.outward, Site.hides, Site.isRead, hroot (t.node, []) rfl]
  have hall := Placed.readings_locatedAll_perm t.layout t.node.children [t.node] 0 hopen
  rw [Placed.locatedAll_late rfl] at hall
  have hnodes : t.node.nodes = (t.node, []) :: Placed.nodesAll [t.node] t.node.children := rfl
  have hvisible : Placed.visible t.layout t.node.nodes
      = Placed.visible t.layout (Placed.nodesAll [t.node] t.node.children) := by
    rw [hnodes]
    exact List.filter_cons_of_neg (by simp [hroot (t.node, []) rfl])
  rw [hvisible]
  simpa [readings, located, Located.readingsAll] using hall

theorem reading?_of_mem (t : SourceTree) {x : Site × Except Omission Draft} (hx : x ∈ t.readings) :
    ∃ c, x.1.reading? t.layout c = some x.2 :=
  t.kept_located (Placed.kept_reading? t.layout) x hx

end SourceTree

end LpcSymbols
