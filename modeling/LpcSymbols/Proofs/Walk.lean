/-
The walk over a tree, told site by site.

A finding does not say which node it was found at, and the rules for it are spread
over the node's own kind and the kind of the node around it.  Here both are put
together.  A site is a node with the nodes around it, and a site alone decides what
is read there: `reading?` gives the draft of a symbol, or the reason for an
omission, or nothing.  What is found at a site follows from the reading and from
what is found below, by one rule for all constructs (`atSite`), and the located
findings say for each finding where it comes from.

Two things are left to the walk besides the order of the tree: the declarators of a
declaration come after its other children, and a macro definition with a symbol
hides what is below it.

`findings_located` says that the located findings of a tree, without the sites, are
its findings.  The induction over them is packaged once: a property that goes from what
is found below a site to what is found at the site holds of all findings (`Kept`).
-/
import LpcSymbols.Analysis.Finding
import LpcSymbols.Proofs.Reading

namespace LpcSymbols

theorem Kind.isClause_of_branch? {kind : Kind} {branch : Branch} (h : kind.branch? = some branch) :
    kind = .ifClause ∨ kind = .elseIfClause ∨ kind = .elseClause := by
  unfold Kind.branch? at h
  split at h <;> simp_all

/-- A node of a tree with the nodes around it, nearest first. -/
abbrev Site := Node × List Node

namespace Site

/-- The type of a variable, from the node around its declarator: a declaration below the
root. -/
def declaredType? : List Node → Option ValueType
  | n :: _ :: _ => if n.kind = .variableDecl then n.type?.map Draft.typeOf else none
  | _ => none

/-- The span of the `if` statement around a clause, if it is one below the root. -/
def ifSpan? (l : Layout) : List Node → Option Span
  | n :: _ :: _ => if n.kind = .ifStatement then l.span? n else none
  | _ => none

/-- What is read at a site, after `count` clauses among the earlier siblings.  Nothing is
read at the root. -/
def reading? (l : Layout) (count : Nat) (s : Site) : Option (Except Omission Draft) :=
  if s.2.isEmpty then none
  else
    match s.1.kind with
    | .defineDirective => some (Draft.ofDefine l s.1)
    | .selectionDirective => some (Draft.ofDirective l s.1)
    | .includeDirective => some (Draft.ofInclude l s.1)
    | .inheritStatement => some (Draft.ofInherit l s.1)
    | .functionDecl => some (Draft.ofFunction l s.1)
    | .param => some (Draft.ofParameter l s.1)
    | .variableDecl =>
      match Draft.declaredType s.1 with
      | .ok _ => none
      | .error reason => some (.error reason)
    | .variableDeclarator => (declaredType? s.2).map fun type => Draft.ofDeclarator l type s.1
    | .ifStatement => some (Draft.ofIf l s.1)
    | .inlineClosure => some (Draft.ofClosure l s.2 s.1)
    | .primaryExpr => some (Draft.ofPrimary l s.1)
    | .identExpr => some (Draft.ofIdentifier l s.2 s.1)
    | kind =>
      match kind.branch?, ifSpan? l s.2 with
      | some branch, some span => some (Draft.ofClause l branch span.start.index count s.1)
      | _, _ => none

/-- Whatever is read at a site is read as its construct asks. -/
theorem reading?_readsAs {l : Layout} {count : Nat} {s : Site} {e : Except Omission Draft}
    (h : s.reading? l count = some e) :
    Draft.ReadsAs l s.1 s.1.kind.opensScope s.1.hasParts e := by
  unfold reading? at h
  split at h
  · simp at h
  · split at h
    case h_7 hk =>
      -- A declaration has no symbol of its own, with a type or without.
      unfold Draft.declaredType at h
      cases htype : s.1.type? with
      | some type => simp [htype, Except.map] at h
      | none =>
          simp only [htype, Draft.require_none, Except.map, Option.some.injEq] at h
          subst h
          refine ⟨by rintro d ⟨⟩, ⟨by rintro ⟨d, ⟨⟩⟩, ?_⟩, ?_⟩
          · simp [Node.hasParts, hk, htype]
          · rintro reason ⟨⟩
            rfl
    case h_8 hk =>
      obtain ⟨type, -, rfl⟩ := Option.map_eq_some_iff.mp h
      simp only [Node.hasParts, hk, Kind.opensScope]
      exact Draft.ofDeclarator_readsAs l s.1 type
    case h_13 =>
      split at h
      · rename_i branch span hbranch hspan
        obtain rfl := Option.some.inj h
        have hkind : s.1.kind.opensScope = true ∧ s.1.hasParts = true := by
          rcases Kind.isClause_of_branch? hbranch with hk | hk | hk <;>
            simp [Node.hasParts, hk, Kind.opensScope]
        rw [hkind.1, hkind.2]
        exact Draft.ofClause_readsAs l s.1 branch _ count
      · simp at h
    all_goals
      rename_i hk
      obtain rfl := Option.some.inj h
      simp only [Node.hasParts, hk, Kind.opensScope]
    · exact Draft.ofDefine_readsAs l s.1
    · exact Draft.ofDirective_readsAs l s.1
    · exact Draft.ofInclude_readsAs l s.1
    · exact Draft.ofInherit_readsAs l s.1
    · exact Draft.ofFunction_readsAs l s.1
    · exact Draft.ofParameter_readsAs l s.1
    · exact Draft.ofIf_readsAs l s.1
    · exact Draft.ofClosure_readsAs l s.1 s.2
    · exact Draft.ofPrimary_readsAs l s.1
    · exact Draft.ofIdentifier_readsAs l s.1 s.2

end Site

/-- A clause is read as its `if` statement asks. -/
theorem Site.reading?_clause {l : Layout} {count : Nat} {n : Node} {around : List Node}
    (haround : around ≠ []) {branch : Branch} (hbranch : n.kind.branch? = some branch) :
    Site.reading? l count (n, around) = (Site.ifSpan? l around).map
      fun span => Draft.ofClause l branch span.start.index count n := by
  cases hspan : Site.ifSpan? l around <;>
    rcases Kind.isClause_of_branch? hbranch with hk | hk | hk <;> rw [hk] at hbranch <;>
    simp [Site.reading?, hk, haround, hspan, hbranch]

/-- A finding with its site. -/
inductive Located where
  | leaf (site : Site) (draft : Draft)
  | scope (site : Site) (draft : Draft) (inside : List Located)
  | omitted (site : Site) (reason : Omission)
deriving Inhabited

namespace Located

mutual

/-- The finding without its site. -/
def finding : Located → Finding
  | .leaf _ draft => .leaf draft
  | .scope _ draft inside => .scope draft (findings inside)
  | .omitted site reason => .omitted site.1.ref reason

/-- Findings without their sites. -/
def findings : List Located → List Finding
  | [] => []
  | f :: fs => f.finding :: findings fs

end

theorem findings_append (fs gs : List Located) :
    findings (fs ++ gs) = findings fs ++ findings gs := by
  induction fs with
  | nil => rfl
  | cons f fs ih => simp only [List.cons_append, findings, ih]

/-- What is found at a site, given what is found below it. -/
def atSite (l : Layout) (count : Nat) (s : Site) (below : List Located) : List Located :=
  match s.reading? l count with
  | none => below
  | some (.error reason) => .omitted s reason :: below
  | some (.ok draft) =>
    if s.1.kind = .defineDirective then [.leaf s draft]
    else if draft.data.kind.isScope then [.scope s draft below]
    else .leaf s draft :: below

end Located

namespace Placed

/-- The element is a declarator of the declaration around it. -/
def isLate (around : List Node) : Placed → Bool
  | .token _ => false
  | .node kind _ _ _ => kind == .variableDeclarator && (Site.declaredType? around).isSome

/-- One for a clause of an `if` statement. -/
def clauses : Placed → Nat
  | .token _ => 0
  | .node kind _ _ _ => if kind.branch?.isSome then 1 else 0

mutual

/-- What is found at an element after `count` clauses, with the sites. -/
def located (l : Layout) (around : List Node) (count : Nat) : Placed → List Located
  | .token _ => []
  | .node kind range before children =>
    let n : Node := ⟨kind, range, before, children⟩
    Located.atSite l count (n, around)
      (locatedAll l (n :: around) false 0 children ++ locatedAll l (n :: around) true 0 children)

/-- What is found in a row of elements: at those that come late, or at the others. -/
def locatedAll (l : Layout) (around : List Node) (late : Bool) (count : Nat) :
    List Placed → List Located
  | [] => []
  | p :: ps =>
    (if p.isLate around = late then located l around count p else []) ++
      locatedAll l around late (count + p.clauses) ps

end

end Placed

namespace Finding

/-! ### What a node makes of the visits of its children -/

/-- What is found at a child, given the nodes around it and the clauses before it. -/
def atChild (l : Layout) (around : List Node) (count : Nat) (v : Visit) : List Finding :=
  if v.isDeclarator then
    match Site.declaredType? around with
    | some type => leafThen v.node v.below (Draft.ofDeclarator l type v.node)
    | none => v.found
  else
    match v.node.kind.branch?, Site.ifSpan? l around with
    | some branch, some span =>
      scopeWith v.node v.below v.below (Draft.ofClause l branch span.start.index count v.node)
    | _, _ => v.found

/-- What is found at the children that come late, or at the others. -/
def atChildren (l : Layout) (around : List Node) (late : Bool) (count : Nat) :
    List Visit → List Finding
  | [] => []
  | v :: vs =>
    (if (v.isDeclarator && (Site.declaredType? around).isSome) = late then
      atChild l around count v else []) ++
      atChildren l around late (count + if v.node.kind.branch?.isSome then 1 else 0) vs

variable {l : Layout} {around : List Node}

theorem ifSpan?_of_declaredType? {type : ValueType} (h : Site.declaredType? around = some type) :
    Site.ifSpan? l around = none := by
  unfold Site.declaredType? at h
  split at h
  · split at h
    · rename_i hk
      simp [Site.ifSpan?, hk]
    · simp at h
  · simp at h

theorem declaredType?_of_ifSpan? {span : Span} (h : Site.ifSpan? l around = some span) :
    Site.declaredType? around = none := by
  cases htype : Site.declaredType? around with
  | none => rfl
  | some type =>
      rw [ifSpan?_of_declaredType? htype] at h
      simp at h

/-- In a declaration the declarators are read, and they come last. -/
theorem atChildren_declared {type : ValueType} (h : Site.declaredType? around = some type)
    (count : Nat) (vs : List Visit) :
    atChildren l around false count vs ++ atChildren l around true count vs
      = declared l type vs := by
  have hif : Site.ifSpan? l around = none := ifSpan?_of_declaredType? h
  have hearly : ∀ (count : Nat) (vs : List Visit),
      atChildren l around false count vs = (vs.filter (!·.isDeclarator)).flatMap (·.found) := by
    intro count vs
    induction vs generalizing count with
    | nil => rfl
    | cons v vs ih =>
        by_cases hv : v.isDeclarator = true
        · simp [atChildren, hv, h, ih]
        · have hv' : v.isDeclarator = false := by simpa using hv
          simp [atChildren, atChild, hv', hif, ih]
  have hlate : ∀ (count : Nat) (vs : List Visit),
      atChildren l around true count vs = (vs.filter (·.isDeclarator)).flatMap fun v =>
        leafThen v.node v.below (Draft.ofDeclarator l type v.node) := by
    intro count vs
    induction vs generalizing count with
    | nil => rfl
    | cons v vs ih =>
        by_cases hv : v.isDeclarator = true
        · simp [atChildren, atChild, hv, h, ih]
        · have hv' : v.isDeclarator = false := by simpa using hv
          simp [atChildren, hv', ih]
  rw [hearly, hlate, declared]

/-- Nothing comes late outside a declaration. -/
theorem atChildren_late (h : Site.declaredType? around = none) (count : Nat) (vs : List Visit) :
    atChildren l around true count vs = [] := by
  induction vs generalizing count with
  | nil => rfl
  | cons v vs ih => simp [atChildren, h, ih]

/-- In an `if` statement with a span the clauses are read, and they are counted. -/
theorem atChildren_clauses {span : Span} (h : Site.ifSpan? l around = some span) (count : Nat)
    (vs : List Visit) :
    atChildren l around false count vs = clauses l span.start.index count vs := by
  have htype : Site.declaredType? around = none := declaredType?_of_ifSpan? h
  induction vs generalizing count with
  | nil => rfl
  | cons v vs ih =>
      simp only [atChildren, clauses, htype, Option.isSome_none, Bool.and_false, if_true]
      by_cases hv : v.isDeclarator = true
      · have hkind : v.node.kind = .variableDeclarator := by simpa [Visit.isDeclarator] using hv
        simp [atChild, hv, htype, hkind, Kind.branch?, ih]
      · have hv' : v.isDeclarator = false := by simpa using hv
        cases hb : v.node.kind.branch? with
        | none => simp [atChild, hv', hb, ih]
        | some branch => simp [atChild, hv', hb, h, ih]

/-- Elsewhere the children are walked through. -/
theorem atChildren_plain (htype : Site.declaredType? around = none)
    (hif : Site.ifSpan? l around = none) (count : Nat) (vs : List Visit) :
    atChildren l around false count vs = vs.flatMap (·.found) := by
  have hchild : ∀ count v, atChild l around count v = v.found := by
    intro count v
    unfold atChild
    rw [htype, hif]
    split
    · rfl
    · cases v.node.kind.branch? <;> rfl
  induction vs generalizing count with
  | nil => rfl
  | cons v vs ih =>
      simp only [atChildren, htype, Option.isSome_none, Bool.and_false, if_true, hchild,
        List.flatMap_cons, ih]

end Finding

/-! ### The located findings are the findings -/

namespace Located

open Finding

variable {l : Layout} {around : List Node} {n : Node} {count : Nat}

/-- A site where something is read gives a leaf, a scope or an omission by its kind. -/
theorem findings_atSite_some {s : Site} {e : Except Omission Draft}
    (h : s.reading? l count = some e) (below : List Located) :
    findings (atSite l count s below) =
      if s.1.kind = .defineDirective then leafAlone s.1 (findings below) e
      else if s.1.kind.opensScope then scopeWith s.1 (findings below) (findings below) e
      else leafThen s.1 (findings below) e := by
  have hreads := Site.reading?_readsAs h
  unfold atSite
  rw [h]
  cases e with
  | error reason => simp [findings, finding, leafAlone, scopeWith, leafThen]
  | ok draft =>
      have hscope := (hreads.isOf draft rfl).isScope
      simp only [hscope]
      split
      · simp [findings, finding, leafAlone]
      · split
        · simp [findings, finding, scopeWith]
        · simp [findings, finding, leafThen]

theorem findings_atSite_none {s : Site} (h : s.reading? l count = none) (below : List Located) :
    atSite l count s below = below := by
  unfold atSite
  rw [h]

/-- A declaration. -/
theorem findings_atSite_declaration (haround : around ≠ []) (hk : n.kind = .variableDecl)
    {below : List Located} {visits : List Visit}
    (hbelow : findings below =
      atChildren l (n :: around) false 0 visits ++ atChildren l (n :: around) true 0 visits) :
    findings (atSite l count (n, around) below) = findingsAt l around n visits := by
  obtain ⟨m, rest, rfl⟩ := List.exists_cons_of_ne_nil haround
  have hif : Site.ifSpan? l (n :: m :: rest) = none := by simp [Site.ifSpan?, hk]
  cases htype : n.type? with
  | some type =>
      have hdeclared : Site.declaredType? (n :: m :: rest) = some (Draft.typeOf type) := by
        simp [Site.declaredType?, hk, htype]
      have hread : Site.reading? l count (n, m :: rest) = none := by
        simp [Site.reading?, hk, Draft.declaredType, htype, Except.map]
      rw [findings_atSite_none hread, hbelow, atChildren_declared hdeclared]
      simp [findingsAt, hk, Draft.declaredType, htype, Except.map]
  | none =>
      have hdeclared : Site.declaredType? (n :: m :: rest) = none := by
        simp [Site.declaredType?, hk, htype]
      have hread : Site.reading? l count (n, m :: rest)
          = some (.error (.missingPart n.kind "type")) := by
        simp [Site.reading?, hk, Draft.declaredType, htype, Except.map]
      rw [findings_atSite_some hread, hbelow, atChildren_plain hdeclared hif,
        atChildren_late hdeclared, List.append_nil]
      simp [findingsAt, hk, Kind.opensScope, leafThen, Draft.declaredType, htype, Except.map]

/-- An `if` statement. -/
theorem findings_atSite_ifStatement (haround : around ≠ []) (hk : n.kind = .ifStatement)
    {below : List Located} {visits : List Visit}
    (hbelow : findings below =
      atChildren l (n :: around) false 0 visits ++ atChildren l (n :: around) true 0 visits) :
    findings (atSite l count (n, around) below) = findingsAt l around n visits := by
  obtain ⟨m, rest, rfl⟩ := List.exists_cons_of_ne_nil haround
  have hdeclared : Site.declaredType? (n :: m :: rest) = none := by simp [Site.declaredType?, hk]
  have hread : Site.reading? l count (n, m :: rest) = some (Draft.ofIf l n) := by
    simp [Site.reading?, hk]
  rw [findings_atSite_some hread, hbelow, atChildren_late hdeclared, List.append_nil]
  simp only [findingsAt, hk, Kind.opensScope, reduceCtorEq, if_false, if_true]
  cases hspan : l.span? n with
  | none =>
      have hif : Site.ifSpan? l (n :: m :: rest) = none := by simp [Site.ifSpan?, hk, hspan]
      rw [atChildren_plain hdeclared hif]
      unfold Draft.ofIf
      rw [Draft.spanOf_none hspan]
      rfl
  | some span =>
      have hif : Site.ifSpan? l (n :: m :: rest) = some span := by simp [Site.ifSpan?, hk, hspan]
      rw [atChildren_clauses hif]
      unfold Draft.ofIf
      rw [Draft.spanOf_some hspan]
      rfl

/-- A construct that is read by its own kind, a declaration or `if` statement aside. -/
theorem findingsAt_of_some {e : Except Omission Draft} {visits : List Visit}
    (hread : Site.reading? l count (n, around) = some e) (hdecl : n.kind ≠ .variableDecl)
    (hstmt : n.kind ≠ .ifStatement) (hvar : n.kind ≠ .variableDeclarator)
    (hbranch : n.kind.branch? = none) :
    findingsAt l around n visits =
      if n.kind = .defineDirective then leafAlone n (visits.flatMap (·.found)) e
      else if n.kind.opensScope then
        scopeWith n (visits.flatMap (·.found)) (visits.flatMap (·.found)) e
      else leafThen n (visits.flatMap (·.found)) e := by
  unfold Site.reading? at hread
  split at hread
  · simp at hread
  · split at hread
    case h_7 hk => exact absurd hk hdecl
    case h_8 hk => exact absurd hk hvar
    case h_9 hk => exact absurd hk hstmt
    case h_13 => simp [hbranch] at hread
    all_goals
      rename_i hk
      obtain rfl := Option.some.inj hread
      have hk' : n.kind = _ := hk
      simp [findingsAt, hk', Kind.opensScope]

/-- A node where nothing is read is walked through. -/
theorem findingsAt_of_none {visits : List Visit} (haround : around ≠ [])
    (hread : Site.reading? l count (n, around) = none) (hdecl : n.kind ≠ .variableDecl) :
    findingsAt l around n visits = visits.flatMap (·.found) := by
  obtain ⟨m, rest, rfl⟩ := List.exists_cons_of_ne_nil haround
  unfold findingsAt
  split <;> rename_i hk <;> simp_all [Site.reading?]

/-- A declarator, as its declaration reads it. -/
theorem findings_atSite_declarator (haround : around ≠ []) (hk : n.kind = .variableDeclarator)
    {below : List Located} {visits : List Visit}
    (hbelow : findings below = visits.flatMap (·.found)) :
    findings (atSite l count (n, around) below) =
      atChild l around count ⟨n, findingsAt l around n visits, visits.flatMap (·.found)⟩ := by
  have hread : Site.reading? l count (n, around)
      = (Site.declaredType? around).map fun type => Draft.ofDeclarator l type n := by
    simp [Site.reading?, hk, haround]
  have hchild : Visit.isDeclarator
      ⟨n, findingsAt l around n visits, visits.flatMap (·.found)⟩ = true := by
    simp [Visit.isDeclarator, hk]
  unfold atChild
  rw [if_pos hchild]
  cases htype : Site.declaredType? around with
  | none =>
      rw [htype] at hread
      rw [findings_atSite_none hread, hbelow]
      exact (findingsAt_of_none haround hread (by simp [hk])).symm
  | some type =>
      rw [htype] at hread
      rw [findings_atSite_some hread, hbelow]
      simp [hk, Kind.opensScope]

/-- A clause, as its `if` statement reads it. -/
theorem findings_atSite_clause (haround : around ≠ []) {branch : Branch}
    (hbranch : n.kind.branch? = some branch) {below : List Located} {visits : List Visit}
    (hbelow : findings below = visits.flatMap (·.found)) :
    findings (atSite l count (n, around) below) =
      atChild l around count ⟨n, findingsAt l around n visits, visits.flatMap (·.found)⟩ := by
  have hkind : n.kind ≠ .variableDecl ∧ n.kind ≠ .variableDeclarator ∧
      n.kind ≠ .defineDirective ∧ n.kind.opensScope = true := by
    rcases Kind.isClause_of_branch? hbranch with hk | hk | hk <;> simp [hk, Kind.opensScope]
  obtain ⟨hdecl, hvar, hdefine, hscope⟩ := hkind
  have hread : Site.reading? l count (n, around) = _ := Site.reading?_clause haround hbranch
  have hchild : Visit.isDeclarator
      ⟨n, findingsAt l around n visits, visits.flatMap (·.found)⟩ = false := by
    simp [Visit.isDeclarator, hvar]
  unfold atChild
  rw [hchild]
  simp only [hbranch, Bool.false_eq_true, if_false]
  cases hspan : Site.ifSpan? l around with
  | none =>
      rw [hspan] at hread
      rw [findings_atSite_none hread, hbelow]
      exact (findingsAt_of_none haround hread hdecl).symm
  | some span =>
      rw [hspan] at hread
      rw [findings_atSite_some hread, hbelow]
      simp [hdefine, hscope]

/-- What a node finds is what its parent takes over from it. -/
theorem findings_atSite (haround : around ≠ []) {below : List Located} {visits : List Visit}
    (hbelow : findings below =
      atChildren l (n :: around) false 0 visits ++ atChildren l (n :: around) true 0 visits) :
    findings (atSite l count (n, around) below) =
      atChild l around count ⟨n, findingsAt l around n visits, visits.flatMap (·.found)⟩ := by
  by_cases hdecl : n.kind = .variableDecl
  · rw [findings_atSite_declaration haround hdecl hbelow]
    simp [atChild, Visit.isDeclarator, hdecl, Kind.branch?]
  by_cases hstmt : n.kind = .ifStatement
  · rw [findings_atSite_ifStatement haround hstmt hbelow]
    simp [atChild, Visit.isDeclarator, hstmt, Kind.branch?]
  have hdeclared : Site.declaredType? (n :: around) = none := by
    cases around <;> simp [Site.declaredType?, hdecl]
  have hif : Site.ifSpan? l (n :: around) = none := by
    cases around <;> simp [Site.ifSpan?, hstmt]
  rw [atChildren_plain hdeclared hif, atChildren_late hdeclared, List.append_nil] at hbelow
  by_cases hvar : n.kind = .variableDeclarator
  · exact findings_atSite_declarator haround hvar hbelow
  cases hbranch : n.kind.branch? with
  | some branch => exact findings_atSite_clause haround hbranch hbelow
  | none =>
      have hchild : atChild l around count
          ⟨n, findingsAt l around n visits, visits.flatMap (·.found)⟩
            = findingsAt l around n visits := by
        simp [atChild, Visit.isDeclarator, hvar, hbranch]
      rw [hchild]
      cases hread : Site.reading? l count (n, around) with
      | none =>
          rw [findings_atSite_none hread, hbelow, findingsAt_of_none haround hread hdecl]
      | some e =>
          rw [findings_atSite_some hread, hbelow,
            findingsAt_of_some hread hdecl hstmt hvar hbranch]

end Located

namespace Placed

open Located Finding

mutual

theorem findings_located (l : Layout) : ∀ (p : Placed) (around : List Node) (count : Nat),
    around ≠ [] →
      findings (p.located l around count)
        = (visit l around p).toList.flatMap (atChild l around count)
  | .token _, _, _, _ => rfl
  | .node kind range before children, around, count, haround => by
    simp only [located, visit, Option.toList_some, List.flatMap_cons, List.flatMap_nil,
      List.append_nil]
    refine findings_atSite haround ?_
    rw [findings_append, findings_locatedAll l children _ _ _ (by simp),
      findings_locatedAll l children _ _ _ (by simp)]

theorem findings_locatedAll (l : Layout) :
    ∀ (ps : List Placed) (around : List Node) (late : Bool) (count : Nat), around ≠ [] →
      findings (locatedAll l around late count ps)
        = atChildren l around late count (visitAll l around ps)
  | [], _, _, _, _ => rfl
  | .token _ :: ps, around, late, count, haround => by
    simp only [locatedAll, visitAll, visit, located, clauses, ite_self, List.nil_append,
      Option.toList_none, Nat.add_zero]
    exact findings_locatedAll l ps around late count haround
  | .node kind range before children :: ps, around, late, count, haround => by
    have hhead := findings_located l (.node kind range before children) around count haround
    have hrest := findings_locatedAll l ps around late
      (count + if kind.branch?.isSome then 1 else 0) haround
    simp only [visit, Option.toList_some, List.flatMap_cons, List.flatMap_nil,
      List.append_nil] at hhead
    simp only [locatedAll, visitAll, visit, Option.toList_some, List.cons_append,
      List.nil_append, atChildren, clauses, findings_append, hrest]
    congr 1
    by_cases hlate : isLate around (.node kind range before children) = late
    · rw [if_pos hlate, hhead]
      exact (if_pos hlate).symm
    · rw [if_neg hlate, findings]
      exact (if_neg hlate).symm

end

end Placed

/-! ### Properties of all findings -/

/-- What is found below the node of a site. -/
def Site.below (l : Layout) (s : Site) : List Located :=
  Placed.locatedAll l (s.1 :: s.2) false 0 s.1.children ++
    Placed.locatedAll l (s.1 :: s.2) true 0 s.1.children

/-- A property of findings, given the nodes around them, that goes from what is found below a
site to what is found at the site. -/
structure Located.Kept (l : Layout) (P : List Node → List Located → Prop) : Prop where
  nil : ∀ around, P around []
  append : ∀ around fs gs, P around fs → P around gs → P around (fs ++ gs)
  atSite : ∀ n around count, P (n :: around) (Site.below l (n, around)) →
    P around (Located.atSite l count (n, around) (Site.below l (n, around)))

namespace Placed

mutual

theorem kept_located {l : Layout} {P : List Node → List Located → Prop} (h : Located.Kept l P) :
    ∀ (p : Placed) (around : List Node) (count : Nat), P around (p.located l around count)
  | .token _, around, _ => h.nil around
  | .node _ _ _ children, around, count =>
    h.atSite _ around count (h.append _ _ _ (kept_locatedAll h children _ false 0)
      (kept_locatedAll h children _ true 0))

/-- What every site keeps holds of all that is found in a row. -/
theorem kept_locatedAll {l : Layout} {P : List Node → List Located → Prop} (h : Located.Kept l P) :
    ∀ (ps : List Placed) (around : List Node) (late : Bool) (count : Nat),
      P around (locatedAll l around late count ps)
  | [], around, _, _ => h.nil around
  | p :: ps, around, late, count => by
    rw [locatedAll]
    apply h.append around _ _ _ (kept_locatedAll h ps around late _)
    split
    · exact kept_located h p around count
    · exact h.nil around

end

/-- Nothing comes late outside a declaration. -/
theorem locatedAll_late {around : List Node} (h : Site.declaredType? around = none) (l : Layout)
    (count : Nat) (ps : List Placed) : locatedAll l around true count ps = [] := by
  induction ps generalizing count with
  | nil => rfl
  | cons p ps ih =>
      have hlate : p.isLate around = false := by
        cases p <;> simp [isLate, h]
      simp [locatedAll, hlate, ih]

end Placed

theorem Site.kept_below {l : Layout} {P : List Node → List Located → Prop} (h : Located.Kept l P)
    (s : Site) : P (s.1 :: s.2) (s.below l) :=
  h.append _ _ _ (Placed.kept_locatedAll h _ _ _ _) (Placed.kept_locatedAll h _ _ _ _)

/-- The findings of a tree, with their sites. -/
def SourceTree.located (l : Layout) (t : SourceTree) : List Located :=
  Placed.locatedAll l [t.node] false 0 t.node.children

/-- **The located findings of a tree are its findings.** -/
theorem SourceTree.findings_located (l : Layout) (t : SourceTree) :
    Located.findings (t.located l) = Finding.ofRoot l t.node := by
  unfold SourceTree.located Finding.ofRoot
  rw [Placed.findings_locatedAll l _ _ _ _ (by simp)]
  exact Finding.atChildren_plain rfl rfl 0 _

theorem SourceTree.kept_located {l : Layout} {P : List Node → List Located → Prop}
    (h : Located.Kept l P) (t : SourceTree) : P [t.node] (t.located l) :=
  Placed.kept_locatedAll h _ _ _ _

end LpcSymbols
