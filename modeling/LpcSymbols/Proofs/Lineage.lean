/-
Owners and descendants.

Two loops run over a table: one follows parents up to the file, the other takes
symbols from a stack and puts their children in their place.  Neither has a bound of
its own; the numbers of steps that `ancestors` and `descendants` are given only stand
in for it.  Here the loops are relations, `Climbs` and `Taken`, that hold of a run which
has come to its end.  In a well-formed table every run does: parents have smaller
numbers, and the children that are put on the stack have larger ones.

Both directions come from one relation, `Descends`, which follows parents only.  Its
two sides, what is above a symbol and what is below it, are the lists that the loops
give, so the list of descendants is read off the same parents as the list of owners.
-/
import LpcSymbols.Proofs.Integrity

namespace LpcSymbols.SymbolTable

variable {t : SymbolTable} {i j p : SymbolId}

/-! ### Owners -/

/-- The numbers of the owners of a symbol, from the nearest to the file. -/
def owners (t : SymbolTable) (id : SymbolId) : List SymbolId := (t.ancestors id).map (·.id)

/-- Following parents from symbol `id` on gives these symbols, and then there is no parent. -/
inductive Climbs (t : SymbolTable) : SymbolId → List SymbolId → Prop
  | top {id : SymbolId} (h : t.parent? id = none) : Climbs t id []
  | up {id p : SymbolId} {ids : List SymbolId} (h : t.parent? id = some p) (rest : Climbs t p ids) :
      Climbs t id (p :: ids)

/-- No more steps are needed than the number of the symbol. -/
theorem WellFormed.ancestorsUpTo_eq (h : t.WellFormed) (id : SymbolId) :
    ∀ steps more, id ≤ steps → id ≤ more → t.ancestorsUpTo steps id = t.ancestorsUpTo more id := by
  induction id using h.induction_up with
  | top id hp =>
      intro steps more _ _
      cases steps <;> cases more <;> simp [ancestorsUpTo, hp]
  | up id p hp ih =>
      intro steps more hsteps hmore
      have hlt : p < id := h.parent_lt hp
      cases steps with
      | zero => exact absurd (Nat.lt_of_lt_of_le hlt hsteps) (Nat.not_lt_zero p)
      | succ steps =>
          cases more with
          | zero => exact absurd (Nat.lt_of_lt_of_le hlt hmore) (Nat.not_lt_zero p)
          | succ more =>
              simp only [ancestorsUpTo, hp]
              rw [ih steps more (Nat.le_of_lt_succ (Nat.lt_of_lt_of_le hlt hsteps))
                (Nat.le_of_lt_succ (Nat.lt_of_lt_of_le hlt hmore))]

theorem ancestors_of_none (hp : t.parent? i = none) : t.ancestors i = [] := by
  unfold ancestors
  cases t.size <;> simp [ancestorsUpTo, hp]

/-- The owners of a symbol are its parent and the parent's owners. -/
theorem WellFormed.ancestors_of_parent (h : t.WellFormed) (hp : t.parent? i = some p) {s : Symbol}
    (hs : t.get? p = some s) : t.ancestors i = s :: t.ancestors p := by
  have hi : i < t.size := lt_size_of_parent? hp
  unfold ancestors
  rw [h.ancestorsUpTo_eq i t.size (t.size + 1) (Nat.le_of_lt hi)
    (Nat.le_succ_of_le (Nat.le_of_lt hi))]
  simp [ancestorsUpTo, hp, hs]

theorem owners_of_none (hp : t.parent? i = none) : t.owners i = [] := by
  rw [owners, ancestors_of_none hp]
  rfl

theorem WellFormed.owners_of_parent (h : t.WellFormed) (hp : t.parent? i = some p) :
    t.owners i = p :: t.owners p := by
  obtain ⟨-, s, hs, -⟩ := h.parent_spec hp
  rw [owners, h.ancestors_of_parent hp hs, List.map_cons, h.numbered p s hs]
  rfl

theorem WellFormed.climbs_owners (h : t.WellFormed) (id : SymbolId) :
    t.Climbs id (t.owners id) := by
  induction id using h.induction_up with
  | top id hp =>
      rw [owners_of_none hp]
      exact .top hp
  | up id p hp ih =>
      rw [h.owners_of_parent hp]
      exact .up hp ih

/-- Owners are listed in descending order. -/
theorem WellFormed.owners_descending (h : t.WellFormed) (id : SymbolId) :
    (id :: t.owners id).Pairwise (· > ·) := by
  induction id using h.induction_up with
  | top id hp =>
      rw [owners_of_none hp]
      exact List.pairwise_singleton _ _
  | up id p hp ih =>
      have hlt : p < id := h.parent_lt hp
      rw [h.owners_of_parent hp]
      refine List.pairwise_cons.mpr ⟨?_, ih⟩
      intro q hq
      rcases List.mem_cons.mp hq with rfl | hq
      · exact hlt
      · exact Nat.lt_trans (List.rel_of_pairwise_cons ih hq) hlt

/-- The last owner is the file. -/
theorem WellFormed.owners_last (h : t.WellFormed) (id : SymbolId) (hid : id < t.size) :
    (id :: t.owners id).getLast? = some SymbolId.root := by
  induction id using h.induction_up with
  | top id hp =>
      have hroot : id = SymbolId.root := by
        apply Decidable.byContradiction
        intro hne
        obtain ⟨p, hparent, -, -⟩ := h.owned id hid hne
        rw [hp] at hparent
        simp at hparent
      rw [hroot, owners_of_none h.root]
      rfl
  | up id p hp ih =>
      rw [h.owners_of_parent hp, List.getLast?_cons_cons]
      exact ih (h.parent_spec hp).2.lt

/-! ### Above and below -/

/-- Symbol `i` is met on the way from symbol `j` to the file; it may be `j` itself. -/
inductive Descends (t : SymbolTable) (i : SymbolId) : SymbolId → Prop
  | self : Descends t i i
  | step {j p : SymbolId} (hp : t.parent? j = some p) (h : Descends t i p) : Descends t i j

namespace Descends

theorem le (hwf : t.WellFormed) (h : t.Descends i j) : i ≤ j := by
  induction h with
  | self => exact Nat.le_refl _
  | step hp _ ih => exact Nat.le_trans ih (Nat.le_of_lt (hwf.parent_lt hp))

theorem trans {k : SymbolId} (hij : t.Descends i j) (hjk : t.Descends j k) : t.Descends i k := by
  induction hjk with
  | self => exact hij
  | step hp _ ih => exact .step hp ih

/-- Of two symbols on one way up, one is above the other. -/
theorem linear {k : SymbolId} (hi : t.Descends i k) (hj : t.Descends j k) :
    t.Descends i j ∨ t.Descends j i := by
  induction hi with
  | self => exact Or.inr hj
  | step hp hrest ih =>
      cases hj with
      | self => exact Or.inl (.step hp hrest)
      | step hq hrest' =>
          obtain rfl := Option.some.inj (hp.symm.trans hq)
          exact ih hrest'

end Descends

theorem WellFormed.descends_iff_owners (h : t.WellFormed) (i j : SymbolId) :
    t.Descends i j ↔ j = i ∨ i ∈ t.owners j := by
  constructor
  · intro hd
    induction hd with
    | self => exact Or.inl rfl
    | step hp _ ih =>
        rw [h.owners_of_parent hp]
        rcases ih with rfl | hmem
        · exact Or.inr List.mem_cons_self
        · exact Or.inr (List.mem_cons_of_mem _ hmem)
  · have hclimb : ∀ ids, t.Climbs j ids → i ∈ ids → t.Descends i j := by
      intro ids hids
      induction hids with
      | top => simp
      | up hp _ ih =>
          intro hmem
          rcases List.mem_cons.mp hmem with rfl | hmem
          · exact .step hp .self
          · exact .step hp (ih hmem)
    intro hj
    rcases hj with rfl | hmem
    · exact .self
    · exact hclimb _ (h.climbs_owners j) hmem

/-- Below a symbol are its children and what is below them. -/
theorem WellFormed.descends_iff_children (h : t.WellFormed) (i j : SymbolId) :
    t.Descends i j ↔ j = i ∨ ∃ c ∈ t.children i, t.Descends c j := by
  constructor
  · intro hd
    induction hd with
    | self => exact Or.inl rfl
    | @step j p hp _ ih =>
        refine Or.inr ?_
        rcases ih with rfl | ⟨c, hc, hcp⟩
        · exact ⟨j, (h.listed p j).mpr hp, .self⟩
        · exact ⟨c, hc, .step hp hcp⟩
  · intro hj
    rcases hj with rfl | ⟨c, hc, hcj⟩
    · exact .self
    · exact .trans (.step ((h.listed i c).mp hc) .self) hcj

/-- What is below one child of a symbol is not below another. -/
theorem WellFormed.eq_of_descends_both (h : t.WellFormed) {a b k : SymbolId} (ha : a ∈ t.children i)
    (hb : b ∈ t.children i) (hak : t.Descends a k) (hbk : t.Descends b k) : a = b := by
  -- A child that is above its sibling would be above their common parent.
  have habove : ∀ {c d : SymbolId}, c ∈ t.children i → d ∈ t.children i → t.Descends c d →
      c = d := by
    intro c d hc hd hcd
    cases hcd with
    | self => rfl
    | step hp hrest =>
        obtain rfl := Option.some.inj (hp.symm.trans ((h.listed i d).mp hd))
        exact absurd (hrest.le h) (Nat.not_le.mpr (h.child_bounds hc).1)
  rcases hak.linear hbk with hab | hba
  · exact habove ha hb hab
  · exact (habove hb ha hba).symm

/-! ### Descendants -/

/-- Taking symbols from the stack, and putting their children in their place, gives these symbols
until the stack is empty. -/
inductive Taken (t : SymbolTable) : List SymbolId → List SymbolId → Prop
  | done : Taken t [] []
  | next {id : SymbolId} {stack out : List SymbolId}
      (h : Taken t (pushAll stack (t.children id).reverse) out) : Taken t (id :: stack) (id :: out)

theorem pushAll_reverse (stack ids : List SymbolId) : pushAll stack ids.reverse = ids ++ stack := by
  rw [pushAll, List.reverse_reverse]

namespace Taken

variable {xs ys out more : List SymbolId}

/-- What is taken from two stacks, one on top of the other, is taken from one after the other. -/
theorem append (hx : Taken t xs out) (hy : Taken t ys more) : Taken t (xs ++ ys) (out ++ more) := by
  induction hx with
  | done => exact hy
  | next _ ih =>
      refine .next ?_
      rw [pushAll_reverse] at ih ⊢
      rwa [List.append_assoc] at ih

theorem unique (hx : Taken t xs out) (hy : Taken t xs more) : out = more := by
  induction hx generalizing more with
  | done =>
      cases hy
      rfl
  | next _ ih =>
      cases hy with
      | next hy => rw [ih hy]

/-- Steps that are enough for all symbols make no difference. -/
theorem takeAll_eq (hx : Taken t xs out) {steps : Nat} (hsteps : out.length ≤ steps) :
    t.takeAll steps xs = out := by
  induction hx generalizing steps with
  | done => cases steps <;> rfl
  | next _ ih =>
      rw [List.length_cons] at hsteps
      cases steps with
      | zero => omega
      | succ steps => rw [takeAll, ih (by omega)]

end Taken

/-- A run that takes a symbol and all below it, each once. -/
structure Exhausts (t : SymbolTable) (ids out : List SymbolId) : Prop where
  taken : t.Taken ids out
  mem_iff : ∀ j, j ∈ out ↔ ∃ i ∈ ids, t.Descends i j
  nodup : out.Nodup

/-- The runs over the children of a symbol are put together to one run. -/
theorem WellFormed.exhausts_children (h : t.WellFormed) (id : SymbolId) (cs : List SymbolId)
    (hsub : ∀ c ∈ cs, c ∈ t.children id) (hasc : cs.Pairwise (· < ·))
    (hone : ∀ c ∈ cs, ∃ out, t.Exhausts [c] out) : ∃ out, t.Exhausts cs out := by
  induction cs with
  | nil => exact ⟨[], .done, by simp, List.nodup_nil⟩
  | cons c cs ih =>
      obtain ⟨hfirst, hasc'⟩ := List.pairwise_cons.mp hasc
      obtain ⟨own, hown⟩ := hone c List.mem_cons_self
      obtain ⟨rest, hrest⟩ := ih (fun x hx => hsub x (List.mem_cons_of_mem _ hx)) hasc'
        (fun x hx => hone x (List.mem_cons_of_mem _ hx))
      refine ⟨own ++ rest, hown.taken.append hrest.taken, ?_, ?_⟩
      · intro j
        rw [List.mem_append, hown.mem_iff, hrest.mem_iff]
        simp
      · refine List.nodup_append.mpr ⟨hown.nodup, hrest.nodup, ?_⟩
        intro j hj k hk hjk
        obtain ⟨x, hx, hxj⟩ := (hown.mem_iff j).mp hj
        obtain ⟨y, hy, hyk⟩ := (hrest.mem_iff k).mp hk
        obtain rfl := List.mem_singleton.mp hx
        rw [← hjk] at hyk
        have hxy : x = y := h.eq_of_descends_both (hsub x List.mem_cons_self)
          (hsub y (List.mem_cons_of_mem _ hy)) hxj hyk
        exact Nat.ne_of_lt (hfirst y hy) hxy

/-- A run over the children of a symbol is, with the symbol in front, a run over the symbol. -/
theorem WellFormed.exhausts_cons (h : t.WellFormed) {id : SymbolId} {out : List SymbolId}
    (hout : t.Exhausts (t.children id) out) : t.Exhausts [id] (id :: out) := by
  refine ⟨.next ?_, ?_, List.nodup_cons.mpr ⟨?_, hout.nodup⟩⟩
  · rw [pushAll_reverse, List.append_nil]
    exact hout.taken
  · intro j
    rw [List.mem_cons, hout.mem_iff, ← h.descends_iff_children id j]
    simp
  · intro hmem
    obtain ⟨c, hc, hcid⟩ := (hout.mem_iff id).mp hmem
    exact absurd (hcid.le h) (Nat.not_le.mpr (h.child_bounds hc).1)

/-- **The loop over the descendants of a symbol ends.** -/
theorem WellFormed.exists_exhausts (h : t.WellFormed) (id : SymbolId) :
    ∃ out, t.Exhausts [id] out := by
  induction id using h.induction_down with
  | down id ih =>
      obtain ⟨out, hout⟩ := h.exhausts_children id (t.children id) (fun _ hc => hc)
        (h.ascending id) ih
      exact ⟨id :: out, h.exhausts_cons hout⟩

/-- **The descendants of a symbol are what the loop takes.** -/
theorem WellFormed.exhausts_descendants (h : t.WellFormed) (id : SymbolId) :
    t.Exhausts [id] (t.descendants id) := by
  obtain ⟨out, hout⟩ := h.exists_exhausts id
  have hsub : out ⊆ id :: List.range t.size := by
    intro j hj
    obtain ⟨i, hi, hd⟩ := (hout.mem_iff j).mp hj
    obtain rfl := List.mem_singleton.mp hi
    cases hd with
    | self => exact List.mem_cons_self
    | step hp _ => exact List.mem_cons_of_mem _ (List.mem_range.mpr (lt_size_of_parent? hp))
  have hlen : out.length ≤ t.size + 1 := by
    have := hout.nodup.length_le_of_subset hsub
    simpa using this
  rw [descendants, hout.taken.takeAll_eq hlen]
  exact hout

theorem WellFormed.mem_descendants (h : t.WellFormed) : j ∈ t.descendants i ↔ t.Descends i j := by
  rw [(h.exhausts_descendants i).mem_iff]
  simp

theorem WellFormed.taken_flatMap (h : t.WellFormed) (ids : List SymbolId) :
    t.Taken ids (ids.flatMap t.descendants) := by
  induction ids with
  | nil => exact .done
  | cons id ids ih => exact (h.exhausts_descendants id).taken.append ih

/-- The descendants of a symbol are itself and the descendants of its children, in order. -/
theorem WellFormed.descendants_eq (h : t.WellFormed) (id : SymbolId) :
    t.descendants id = id :: (t.children id).flatMap t.descendants := by
  have hrun := (h.exhausts_descendants id).taken
  refine hrun.unique (.next ?_)
  rw [pushAll_reverse, List.append_nil]
  exact h.taken_flatMap (t.children id)

/-! ### Tables with a history -/

/-- What is above and below a symbol. -/
structure Lineage (t : SymbolTable) (id : SymbolId) : Prop where
  /-- The way up ends. -/
  climbs : t.Climbs id (t.owners id)
  descending : (id :: t.owners id).Pairwise (· > ·)
  last : (id :: t.owners id).getLast? = some SymbolId.root
  /-- The loop over the stack ends. -/
  taken : t.Taken [id] (t.descendants id)
  nodup : (t.descendants id).Nodup
  /-- The loop lists the symbols as the recursion over children does. -/
  recursive : t.descendants id = id :: (t.children id).flatMap t.descendants
  mem_iff : ∀ j, j ∈ t.descendants id ↔ j = id ∨ id ∈ t.owners j

theorem WellFormed.lineage (h : t.WellFormed) {id : SymbolId} (hid : id < t.size) :
    t.Lineage id where
  climbs := h.climbs_owners id
  descending := h.owners_descending id
  last := h.owners_last id hid
  taken := (h.exhausts_descendants id).taken
  nodup := (h.exhausts_descendants id).nodup
  recursive := h.descendants_eq id
  mem_iff := by
    intro j
    rw [h.mem_descendants, h.descends_iff_owners]

/-- A symbol is listed once by its parent, and by no other symbol. -/
theorem WellFormed.count_children (h : t.WellFormed) (i c : SymbolId) :
    (t.children i).count c = if t.parent? c = some i then 1 else 0 := by
  have hnodup : (t.children i).Nodup := (h.ascending i).imp Nat.ne_of_lt
  rw [hnodup.count]
  by_cases hp : t.parent? c = some i
  · rw [if_pos ((h.listed i c).mpr hp), if_pos hp]
  · rw [if_neg (fun hc => hp ((h.listed i c).mp hc)), if_neg hp]

/-- The second table is the first with the symbol that is requested: it has the next number, it is the
last child of its parent, and nothing else has changed. -/
structure Gains (t : SymbolTable) (r : Request) (u : SymbolTable) : Prop where
  size : u.size = t.size + 1
  new : u.get? t.size = some { r.draft with id := t.size, parent := some r.parent, children := [] }
  parent : ∀ s, t.get? r.parent = some s →
    u.get? r.parent = some { s with children := s.children ++ [t.size] }
  others : ∀ i, i ≠ t.size → i ≠ r.parent → u.get? i = t.get? i

theorem gains_append {r : Request} (h : r.parent < t.size) :
    t.Gains r (t.append r.draft r.parent) where
  size := size_append
  new := by
    rw [get?_append, if_pos rfl]
    rfl
  parent := by
    intro s hs
    rw [get?_append, if_neg (Nat.ne_of_lt h), hs, Option.map_some, if_pos rfl]
  others := by
    intro i hnew hparent
    rw [get?_append, if_neg hnew]
    simp only [if_neg hparent, Option.map_id_fun', id_eq]

/-- What can be relied on in a table. -/
structure Coherent (t : SymbolTable) : Prop where
  wellFormed : t.WellFormed
  once : ∀ i c, (t.children i).count c = if t.parent? c = some i then 1 else 0
  /-- Below a scope every request is granted. -/
  grants : ∀ r : Request, t.Owns r.parent → ∃ u,
    t.create r.draft r.parent = .ok (t.size, u) ∧ t.afterRequest r = u ∧ t.Gains r u
  /-- Any other request fails, and nothing has changed. -/
  refuses : ∀ r : Request, ¬ t.Owns r.parent →
    t.create r.draft r.parent = .error (if r.parent < t.size then .parentNotScope r.parent
      else .unknownSymbol r.parent) ∧ t.afterRequest r = t
  lineage : ∀ id, id < t.size → t.Lineage id

theorem create_of_not_owns {r : Request} (h : ¬ t.Owns r.parent) :
    t.create r.draft r.parent = .error (if r.parent < t.size then .parentNotScope r.parent
      else .unknownSymbol r.parent) := by
  by_cases hlt : r.parent < t.size
  · obtain ⟨s, hs⟩ := lt_size_iff.mp hlt
    have hscope : s.isScope = false := by
      rw [Bool.eq_false_iff]
      intro hyes
      exact h ⟨s, hs, hyes⟩
    rw [if_pos hlt, create_notScope hs hscope]
  · rw [if_neg hlt, create_unknown (Nat.not_lt.mp hlt)]

/-- **Every table that has a history is coherent.**  The history may hold any requests, also such
as are refused. -/
theorem coherent_afterAll (name : String) (node : NodeRef) (span : Span) (history : List Request) :
    ((ofRoot name node span).afterAll history).Coherent := by
  have h := wellFormed_afterAll (wellFormed_ofRoot name node span) history
  refine ⟨h, h.count_children, ?_, ?_, fun id hid => h.lineage hid⟩
  · intro r howns
    have hcreate := Recorder.create_ok howns r.draft
    refine ⟨_, hcreate, ?_, gains_append howns.lt⟩
    rw [afterRequest, hcreate]
  · intro r hnot
    have hcreate := create_of_not_owns hnot
    refine ⟨hcreate, ?_⟩
    rw [afterRequest, hcreate]

/-- Two scopes, a name in the second, and a request below the name, which is no scope. -/
example :
    let draft (data : SymbolData) : Draft := ⟨"", data, ⟨.sourceFile, ⟨0, 0⟩⟩, .zero, none⟩
    let t := (ofRoot "" ⟨.sourceFile, ⟨0, 0⟩⟩ .zero).afterAll
      [⟨draft .expression, 0⟩, ⟨draft .expression, 1⟩, ⟨draft (.variable .untyped), 2⟩,
       ⟨draft .expression, 3⟩, ⟨draft .expression, 1⟩]
    t.descendants 1 = [1, 2, 3, 4] ∧ t.owners 3 = [2, 1, 0] := by
  decide

end LpcSymbols.SymbolTable
