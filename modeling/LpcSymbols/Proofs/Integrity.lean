/-
What every symbol table keeps.

A table says twice which symbol owns which: a symbol names its parent, and a parent
lists its children.  `WellFormed` says that the two agree, that parents come before
their children, and that children are listed in ascending order.  A new table is well
formed, and a symbol that is created changes two things only: the table has one more
symbol, and the parent of that symbol has one more child (`parent?_append`,
`children_append`).  From these two the invariant follows.

It is kept by every history of requests to create symbols, whether they are granted or
not (`wellFormed_afterAll`), and by every run of a recorder (`recordAll_wellFormed`).
-/
import LpcSymbols.Proofs.Outcome

namespace LpcSymbols

namespace SymbolTable

/-- Parents and children agree, and parents come first. -/
structure WellFormed (t : SymbolTable) : Prop where
  /-- A table is never empty: it starts with the symbol of the file. -/
  nonempty : 0 < t.size
  /-- Every symbol is at the place of its number. -/
  numbered : ∀ i s, t.get? i = some s → s.id = i
  /-- The symbol of the file has no parent. -/
  root : t.parent? SymbolId.root = none
  /-- Every other symbol has a parent that is a scope and comes before it. -/
  owned : ∀ i, i < t.size → i ≠ SymbolId.root → ∃ p, t.parent? i = some p ∧ p < i ∧ t.Owns p
  /-- The children of a symbol are the symbols whose parent it is. -/
  listed : ∀ i c, c ∈ t.children i ↔ t.parent? c = some i
  /-- Children are listed in ascending order. -/
  ascending : ∀ i, (t.children i).Pairwise (· < ·)

variable {t : SymbolTable} {parent i : SymbolId} {d : Draft}

theorem lt_size_iff : i < t.size ↔ ∃ s, t.get? i = some s := by
  constructor
  · intro h
    exact ⟨_, Array.getElem?_eq_getElem h⟩
  · rintro ⟨s, hs⟩
    exact (Array.getElem?_eq_some_iff.mp hs).1

theorem lt_size_of_parent? {p : SymbolId} (h : t.parent? i = some p) : i < t.size := by
  obtain ⟨s, hs, -⟩ := Option.bind_eq_some_iff.mp h
  exact lt_size_iff.mpr ⟨s, hs⟩

namespace WellFormed

theorem parent_spec (h : t.WellFormed) {p : SymbolId} (hp : t.parent? i = some p) :
    p < i ∧ t.Owns p := by
  have hroot : i ≠ SymbolId.root := by
    intro hi
    rw [hi, h.root] at hp
    simp at hp
  obtain ⟨q, hq, hlt, howns⟩ := h.owned i (lt_size_of_parent? hp) hroot
  obtain rfl := Option.some.inj (hp.symm.trans hq)
  exact ⟨hlt, howns⟩

theorem parent_lt (h : t.WellFormed) {p : SymbolId} (hp : t.parent? i = some p) : p < i :=
  (h.parent_spec hp).1

/-- A child comes after its parent, and the table has it. -/
theorem child_bounds (h : t.WellFormed) {c : SymbolId} (hc : c ∈ t.children i) :
    i < c ∧ c < t.size := by
  have hp := (h.listed i c).mp hc
  exact ⟨h.parent_lt hp, lt_size_of_parent? hp⟩

/-- Going down to a child takes one step and leaves fewer numbers above. -/
theorem size_le_child (h : t.WellFormed) {c : SymbolId} {n : Nat} (hc : c ∈ t.children i)
    (hsize : t.size ≤ i + (n + 1)) : t.size ≤ c + n := by
  have hle : i + 1 + n ≤ c + n := Nat.add_le_add_right (h.child_bounds hc).1 n
  rw [Nat.add_assoc, Nat.add_comm 1 n] at hle
  exact Nat.le_trans hsize hle

/-- What passes from a parent to its child holds of every symbol. -/
theorem induction_up (h : t.WellFormed) {motive : SymbolId → Prop}
    (top : ∀ id, t.parent? id = none → motive id)
    (up : ∀ id p, t.parent? id = some p → motive p → motive id) (id : SymbolId) : motive id := by
  induction id using Nat.strongRecOn with
  | ind id ih =>
      cases hp : t.parent? id with
      | none => exact top id hp
      | some p => exact up id p hp (ih p (h.parent_lt hp))

/-- What passes from all children to their parent holds of every symbol.  The induction is on how
many numbers there are above that of the symbol. -/
theorem induction_down (h : t.WellFormed) {motive : SymbolId → Prop}
    (down : ∀ id, (∀ c ∈ t.children id, motive c) → motive id) (id : SymbolId) : motive id := by
  have habove : ∀ (above : Nat) (id : SymbolId), t.size ≤ id + above → motive id := by
    intro above
    induction above with
    | zero =>
        intro id hid
        apply down
        intro c hc
        obtain ⟨hlt, hsize⟩ := h.child_bounds hc
        exact absurd (Nat.lt_trans hlt hsize) (Nat.not_lt.mpr hid)
    | succ above ih =>
        intro id hid
        apply down
        intro c hc
        exact ih c (h.size_le_child hc hid)
  exact habove t.size id (Nat.le_add_left _ _)

end WellFormed

/-! ### A new symbol -/

theorem get?_append : (t.append d parent).get? i =
    if i = t.size then some (Symbol.ofDraft d t.size parent)
    else (t.get? i).map fun s =>
      if i = parent then { s with children := s.children ++ [t.size] } else s := by
  show ((t.symbols.modify parent _).push (Symbol.ofDraft d t.size parent))[i]? = _
  rw [Array.getElem?_push, Array.size_modify, Array.getElem?_modify]
  by_cases hi : i = t.size
  · rw [if_pos hi]
    exact if_pos hi
  · rw [if_neg hi]
    refine (if_neg hi).trans ?_
    by_cases hp : i = parent
    · simp only [hp, if_true]
      rfl
    · have hp' : parent ≠ i := fun h => hp h.symm
      simp only [hp, hp', if_false]
      exact Option.map_id'.symm

theorem size_append : (t.append d parent).size = t.size + 1 := by
  simp [append, size]

/-- Creating a symbol gives a parent to the new symbol alone. -/
theorem parent?_append :
    (t.append d parent).parent? i = if i = t.size then some parent else t.parent? i := by
  unfold parent?
  rw [get?_append]
  by_cases hi : i = t.size
  · simp [hi, Symbol.ofDraft]
  · rw [if_neg hi, if_neg hi]
    cases t.get? i with
    | none => rfl
    | some s => by_cases hp : i = parent <;> simp [hp]

/-- Creating a symbol gives a child to its parent alone. -/
theorem children_append (hparent : parent < t.size) :
    (t.append d parent).children i =
      if i = parent then t.children i ++ [t.size] else t.children i := by
  unfold children
  rw [get?_append]
  by_cases hi : i = t.size
  · have hnone : t.get? i = none := by
      rw [hi]
      exact Array.getElem?_eq_none (Nat.le_refl _)
    have hne : i ≠ parent := by
      intro hp
      rw [← hp, hi] at hparent
      exact Nat.lt_irrefl _ hparent
    rw [if_pos hi, if_neg hne, hnone]
    rfl
  · rw [if_neg hi]
    by_cases hp : i = parent
    · obtain ⟨s, hs⟩ := lt_size_iff.mp hparent
      simp [hp, hs]
    · simp [hp]

theorem Owns.append (h : t.Owns i) : (t.append d parent).Owns i := by
  have hne : i ≠ t.size := Nat.ne_of_lt h.lt
  obtain ⟨s, hs, hscope⟩ := h
  refine ⟨if i = parent then { s with children := s.children ++ [t.size] } else s, ?_, ?_⟩
  · rw [get?_append, if_neg hne, hs, Option.map_some]
  · by_cases hp : i = parent
    · rw [if_pos hp]
      exact hscope
    · rw [if_neg hp]
      exact hscope

/-- **Creating a symbol keeps a table well formed.** -/
theorem WellFormed.append (h : t.WellFormed) (hparent : t.Owns parent) (d : Draft) :
    (t.append d parent).WellFormed where
  nonempty := by
    rw [size_append]
    exact Nat.succ_pos _
  numbered := by
    intro i s hs
    rw [get?_append] at hs
    by_cases hi : i = t.size
    · rw [if_pos hi] at hs
      obtain rfl := Option.some.inj hs
      exact hi.symm
    · rw [if_neg hi] at hs
      obtain ⟨old, hold, rfl⟩ := Option.map_eq_some_iff.mp hs
      have hid := h.numbered i old hold
      by_cases hp : i = parent
      · rw [if_pos hp]
        exact hid
      · rw [if_neg hp]
        exact hid
  root := by
    have hne : SymbolId.root ≠ t.size := Nat.ne_of_lt h.nonempty
    rw [parent?_append, if_neg hne]
    exact h.root
  owned := by
    intro i hi hroot
    rw [parent?_append]
    by_cases hnew : i = t.size
    · rw [if_pos hnew]
      exact ⟨parent, rfl, by rw [hnew]; exact hparent.lt, hparent.append⟩
    · rw [if_neg hnew]
      rw [size_append] at hi
      have hold : i < t.size := Nat.lt_of_le_of_ne (Nat.le_of_lt_succ hi) hnew
      obtain ⟨p, hp, hpi, howns⟩ := h.owned i hold hroot
      exact ⟨p, hp, hpi, howns.append⟩
  listed := by
    intro i c
    have hlisted := h.listed i c
    rw [children_append hparent.lt, parent?_append]
    -- The new symbol was nobody's child before.
    by_cases hnew : c = t.size
    · have hold : c ∉ t.children i := by
        intro hc
        exact Nat.ne_of_lt (h.child_bounds hc).2 hnew
      rw [if_pos hnew, Option.some.injEq]
      by_cases hp : i = parent
      · simp [hp, hnew]
      · rw [if_neg hp]
        exact ⟨fun hc => absurd hc hold, fun hc => absurd hc.symm hp⟩
    · rw [if_neg hnew]
      by_cases hp : i = parent
      · rw [if_pos hp, List.mem_append, List.mem_singleton]
        exact ⟨fun hc => hlisted.mp (hc.resolve_right hnew), fun hc => Or.inl (hlisted.mpr hc)⟩
      · rw [if_neg hp]
        exact hlisted
  ascending := by
    intro i
    rw [children_append hparent.lt]
    by_cases hp : i = parent
    · rw [if_pos hp]
      refine List.pairwise_append.mpr ⟨h.ascending i, List.pairwise_singleton _ _, ?_⟩
      intro c hc new hnew
      obtain rfl := List.mem_singleton.mp hnew
      exact (h.child_bounds hc).2
    · rw [if_neg hp]
      exact h.ascending i

theorem get?_ofRoot_succ (name : String) (node : NodeRef) (span : Span) (i : SymbolId) :
    (ofRoot name node span).get? (i + 1) = none := rfl

theorem wellFormed_ofRoot (name : String) (node : NodeRef) (span : Span) :
    (ofRoot name node span).WellFormed where
  nonempty := Nat.one_pos
  numbered := by
    intro i s hs
    cases i with
    | zero =>
        obtain rfl := Option.some.inj hs
        rfl
    | succ i => simp [get?_ofRoot_succ] at hs
  root := rfl
  owned := by
    intro i hi hroot
    exact absurd (Nat.lt_one_iff.mp hi) hroot
  listed := by
    intro i c
    cases i <;> cases c <;> simp [children, parent?, ofRoot, get?]
  ascending := by
    intro i
    cases i with
    | zero => exact List.Pairwise.nil
    | succ i =>
        rw [children, get?_ofRoot_succ]
        exact List.Pairwise.nil

/-! ### Histories of requests -/

/-- A symbol is created below a scope and only there, and it gets the next number. -/
theorem create_eq_ok_iff {r : SymbolId × SymbolTable} :
    t.create d parent = .ok r ↔ t.Owns parent ∧ r = (t.size, t.append d parent) := by
  constructor
  · intro h
    obtain ⟨s, hs, hr⟩ := bind_eq_ok.mp h
    have hget : t.get? parent = some s := by
      unfold SymbolTable.get at hs
      split at hs
      · rename_i s' hs'
        rw [hs', Except.ok.inj hs]
      · simp at hs
    by_cases hscope : s.isScope = true
    · rw [if_pos hscope] at hr
      exact ⟨⟨s, hget, hscope⟩, (Except.ok.inj hr).symm⟩
    · rw [if_neg hscope] at hr
      simp at hr
  · rintro ⟨howns, rfl⟩
    exact Recorder.create_ok howns d

theorem create_unknown (h : t.size ≤ parent) (d : Draft) :
    t.create d parent = .error (.unknownSymbol parent) := by
  have hnone : t.get? parent = none := Array.getElem?_eq_none h
  simp [create, SymbolTable.get, hnone, bind, Except.bind]

theorem create_notScope {s : Symbol} (hs : t.get? parent = some s) (hscope : s.isScope = false)
    (d : Draft) : t.create d parent = .error (.parentNotScope parent) := by
  simp [create, SymbolTable.get, hs, hscope, bind, Except.bind]

/-- A request for a new symbol. -/
structure Request where
  draft : Draft
  parent : SymbolId

/-- The table after a request.  One that fails leaves the table as it was. -/
def afterRequest (t : SymbolTable) (r : Request) : SymbolTable :=
  match t.create r.draft r.parent with
  | .ok (_, table) => table
  | .error _ => t

/-- The table after a history of requests. -/
def afterAll (t : SymbolTable) (history : List Request) : SymbolTable :=
  history.foldl afterRequest t

theorem WellFormed.afterRequest (h : t.WellFormed) (r : Request) :
    (t.afterRequest r).WellFormed := by
  unfold SymbolTable.afterRequest
  split
  · rename_i id table hcreate
    obtain ⟨howns, hr⟩ := create_eq_ok_iff.mp hcreate
    obtain ⟨-, rfl⟩ := Prod.mk.inj hr
    exact h.append howns r.draft
  · exact h

/-- **Every history of requests leaves a well-formed table.** -/
theorem wellFormed_afterAll (h : t.WellFormed) (history : List Request) :
    (t.afterAll history).WellFormed := by
  induction history generalizing t with
  | nil => exact h
  | cons r history ih => exact ih (h.afterRequest r)

/-! ### Runs of a recorder -/

end SymbolTable

namespace Symbol

/-- A symbol that is changed, but not in its place in the table. -/
structure SamePlace (s new : Symbol) : Prop where
  id : new.id = s.id
  parent : new.parent = s.parent
  children : new.children = s.children
  isScope : new.isScope = s.isScope

/-- The symbol with a branch noted, if it is an `if` statement. -/
def withBranch (branch : Branch) (id : SymbolId) (s : Symbol) : Symbol :=
  match s.data with
  | .ifStatement branches => { s with data := .ifStatement (branches.add branch id) }
  | _ => s

theorem samePlace_withBranch (s : Symbol) (branch : Branch) (id : SymbolId) :
    s.SamePlace (s.withBranch branch id) := by
  obtain ⟨⟨name, data, node, span, nameRange⟩, number, owner, children⟩ := s
  cases data <;> exact ⟨rfl, rfl, rfl, rfl⟩

end Symbol

namespace SymbolTable

variable {t : SymbolTable}

/-- A table stays well formed if no symbol changes its place. -/
theorem WellFormed.of_samePlace {u : SymbolTable} (h : t.WellFormed)
    (f : SymbolId → Symbol → Symbol) (hget : ∀ i, u.get? i = (t.get? i).map (f i))
    (hf : ∀ i (s : Symbol), s.SamePlace (f i s)) : u.WellFormed := by
  have hlt : ∀ i, i < u.size ↔ i < t.size := by
    intro i
    rw [lt_size_iff, lt_size_iff, ← Option.isSome_iff_exists, ← Option.isSome_iff_exists, hget,
      Option.isSome_map]
  have hparent : ∀ i, u.parent? i = t.parent? i := by
    intro i
    unfold parent?
    rw [hget]
    cases t.get? i with
    | none => rfl
    | some s => exact (hf i s).parent
  have hchildren : ∀ i, u.children i = t.children i := by
    intro i
    unfold children
    rw [hget]
    cases t.get? i with
    | none => rfl
    | some s => exact (hf i s).children
  have howns : ∀ i, t.Owns i → u.Owns i := by
    intro i hi
    obtain ⟨s, hs, hscope⟩ := hi
    refine ⟨f i s, by rw [hget, hs, Option.map_some], ?_⟩
    rw [(hf i s).isScope]
    exact hscope
  refine ⟨(hlt 0).mpr h.nonempty, ?_, ?_, ?_, ?_, ?_⟩
  · intro i s hs
    rw [hget] at hs
    obtain ⟨old, hold, rfl⟩ := Option.map_eq_some_iff.mp hs
    rw [(hf i old).id]
    exact h.numbered i old hold
  · rw [hparent]
    exact h.root
  · intro i hi hroot
    obtain ⟨p, hp, hpi, hp'⟩ := h.owned i ((hlt i).mp hi) hroot
    exact ⟨p, by rw [hparent, hp], hpi, howns p hp'⟩
  · intro i c
    rw [hchildren, hparent]
    exact h.listed i c
  · intro i
    rw [hchildren]
    exact h.ascending i

theorem get?_addBranch (owner : SymbolId) (branch : Branch) (id i : SymbolId) :
    (t.addBranch owner branch id).get? i
      = (t.get? i).map (if owner = i then Symbol.withBranch branch id else fun s => s) := by
  have hmodify : (t.addBranch owner branch id).symbols
      = t.symbols.modify owner (Symbol.withBranch branch id) := rfl
  rw [get?, hmodify, Array.getElem?_modify]
  by_cases hi : owner = i
  · rw [if_pos hi, if_pos hi]
    rfl
  · rw [if_neg hi, if_neg hi]
    exact Option.map_id'.symm

/-- Noting a branch keeps a table well formed. -/
theorem WellFormed.addBranch (h : t.WellFormed) (owner : SymbolId) (branch : Branch)
    (id : SymbolId) : (t.addBranch owner branch id).WellFormed := by
  refine h.of_samePlace _ (get?_addBranch owner branch id) ?_
  intro i s
  by_cases hi : owner = i
  · rw [if_pos hi]
    exact s.samePlace_withBranch branch id
  · rw [if_neg hi]
    exact ⟨rfl, rfl, rfl, rfl⟩

end SymbolTable

namespace Recorder

theorem declare_wellFormed {r : Recorder} {d : Draft} {p : SymbolId × Recorder}
    (h : r.table.WellFormed) (hr : r.declare d = .ok p) : p.2.table.WellFormed := by
  unfold declare at hr
  split at hr
  · obtain ⟨⟨new, table⟩, hcreate, hr⟩ := bind_eq_ok.mp hr
    obtain ⟨howns, htable⟩ := SymbolTable.create_eq_ok_iff.mp hcreate
    obtain ⟨-, rfl⟩ := Prod.mk.inj htable
    obtain rfl := Except.ok.inj hr
    have happend := h.append howns d
    show (r.accept d _ _).table.WellFormed
    unfold accept
    split
    · exact happend.addBranch _ _ _
    · exact happend
  · simp at hr

mutual

theorem record_wellFormed {r r' : Recorder} (h : r.table.WellFormed) :
    ∀ f : Finding, r.record f = .ok r' → r'.table.WellFormed
  | .leaf draft, hr => by
    rw [record] at hr
    obtain ⟨p, hp, hr⟩ := bind_eq_ok.mp hr
    obtain rfl := Except.ok.inj hr
    exact declare_wellFormed h hp
  | .scope draft inside, hr => by
    rw [record] at hr
    obtain ⟨p, hp, hr⟩ := bind_eq_ok.mp hr
    obtain ⟨entered, henter, hr⟩ := bind_eq_ok.mp hr
    obtain ⟨inner, hinner, hleave⟩ := bind_eq_ok.mp hr
    -- Opening and closing a symbol leave the table alone.
    obtain ⟨-, rfl⟩ := enter_ok_iff.mp henter
    obtain ⟨-, -, rfl⟩ := leave_ok_iff.mp hleave
    have hdeclared : (p.2.entered p.1).table.WellFormed := declare_wellFormed h hp
    have hinside : inner.table.WellFormed := recordAll_wellFormed hdeclared inside hinner
    exact hinside
  | .omitted node reason, hr => by
    rw [record] at hr
    obtain ⟨-, rfl⟩ := leaveOut_ok_iff.mp hr
    exact h

/-- **A recorder keeps its table well formed.** -/
theorem recordAll_wellFormed {r r' : Recorder} (h : r.table.WellFormed) :
    ∀ fs : List Finding, r.recordAll fs = .ok r' → r'.table.WellFormed
  | [], hr => by
    rw [recordAll] at hr
    obtain rfl := Except.ok.inj hr
    exact h
  | f :: fs, hr => by
    rw [recordAll] at hr
    obtain ⟨next, hnext, hr⟩ := bind_eq_ok.mp hr
    exact recordAll_wellFormed (record_wellFormed h f hnext) fs hr

end

end Recorder

/-- **The table of every analysis is well formed.** -/
theorem Analysis.wellFormed_table {t : SourceTree} {a : Analysis} (ha : Analysis.ofTree t = .ok a) :
    a.model.table.WellFormed := by
  unfold ofTree at ha
  obtain ⟨l, hl, ha⟩ := bind_eq_ok.mp ha
  obtain ⟨-, rfl⟩ := Layout.ofTree_ok_iff.mp hl
  obtain ⟨start, hstart, ha⟩ := bind_eq_ok.mp ha
  obtain ⟨-, rfl⟩ := start_ok_iff.mp hstart
  obtain ⟨opened, hopened, ha⟩ := bind_eq_ok.mp ha
  obtain ⟨-, rfl⟩ := Recorder.enter_ok_iff.mp hopened
  obtain ⟨recorded, hrecorded, ha⟩ := bind_eq_ok.mp ha
  obtain ⟨closed, hclosed, ha⟩ := bind_eq_ok.mp ha
  obtain ⟨-, -, rfl⟩ := Recorder.leave_ok_iff.mp hclosed
  obtain ⟨finished, hfinished, ha⟩ := bind_eq_ok.mp ha
  obtain ⟨-, rfl⟩ := Recorder.finish_ok_iff.mp hfinished
  obtain rfl := Except.ok.inj ha
  have hroot : t.rootTable.WellFormed := SymbolTable.wellFormed_ofRoot _ _ _
  have htable : recorded.table.WellFormed := Recorder.recordAll_wellFormed hroot _ hrecorded
  exact htable

end LpcSymbols
