/-
How a table grows.

A table grows in one way only: new symbols are put behind the old ones, and the
symbol below which they were created adopts them, that is, it lists them as children
and, if it is an `if` statement, as branches.  `extend` is this in one step.  Growing
twice below one symbol is growing once, and growing below the newest symbol changes
that symbol alone; these two laws carry every account of a table that was built by
creating symbols one after the other.
-/
import LpcSymbols.Symbol.Table

namespace LpcSymbols

/-! ### Lists with one place changed -/

theorem modify_append_left {α : Type} (f : α → α) {i : Nat} {a : List α} (h : i < a.length)
    (b : List α) : (a ++ b).modify i f = a.modify i f ++ b := by
  induction a generalizing i with
  | nil => simp at h
  | cons x a ih =>
      cases i with
      | zero => simp
      | succ i => simp [ih (by simpa using h)]

theorem modify_append_length {α : Type} (f : α → α) (a : List α) (x : α) (b : List α) :
    (a ++ x :: b).modify a.length f = a ++ f x :: b := by
  induction a with
  | nil => simp
  | cons y a ih => simp [ih]

/-! ### Symbols that own others -/

/-- The branches with those among the symbols of a row that are clauses. -/
def Branches.addAll (b : Branches) : List (SymbolId × Draft) → Branches
  | [] => b
  | (id, d) :: rest =>
    match d.data with
    | .selection branch _ => (b.add branch id).addAll rest
    | _ => b.addAll rest

theorem Branches.addAll_append (b : Branches) (xs ys : List (SymbolId × Draft)) :
    b.addAll (xs ++ ys) = (b.addAll xs).addAll ys := by
  induction xs generalizing b with
  | nil => rfl
  | cons x xs ih =>
      obtain ⟨id, d⟩ := x
      cases hd : d.data <;> simp only [List.cons_append, addAll, hd, ih]

/-- An `if` statement notes which of its symbols are branches. -/
def SymbolData.withBranches (owned : List (SymbolId × Draft)) : SymbolData → SymbolData
  | .ifStatement b => .ifStatement (b.addAll owned)
  | data => data

namespace SymbolData

theorem kind_withBranches (owned : List (SymbolId × Draft)) (data : SymbolData) :
    (data.withBranches owned).kind = data.kind := by
  cases data <;> rfl

theorem fold?_withBranches (owned : List (SymbolId × Draft)) (data : SymbolData) :
    (data.withBranches owned).fold? = data.fold? := by
  cases data <;> rfl

theorem withBranches_nil (data : SymbolData) : data.withBranches [] = data := by
  cases data <;> rfl

theorem withBranches_append (xs ys : List (SymbolId × Draft)) (data : SymbolData) :
    data.withBranches (xs ++ ys) = (data.withBranches xs).withBranches ys := by
  cases data <;> simp only [withBranches, Branches.addAll_append]

end SymbolData

namespace Symbol

/-- The symbol with more symbols below it. -/
def adopt (owned : List (SymbolId × Draft)) (s : Symbol) : Symbol :=
  { s with data := s.data.withBranches owned, children := s.children ++ owned.map (·.1) }

theorem adopt_nil (s : Symbol) : s.adopt [] = s := by
  simp [adopt, SymbolData.withBranches_nil]

theorem adopt_adopt (xs ys : List (SymbolId × Draft)) (s : Symbol) :
    (s.adopt xs).adopt ys = s.adopt (xs ++ ys) := by
  simp [adopt, SymbolData.withBranches_append]

theorem isScope_adopt (owned : List (SymbolId × Draft)) (s : Symbol) :
    (s.adopt owned).isScope = s.isScope := by
  simp [adopt, isScope, kind, SymbolData.kind_withBranches]

/-- The symbol of a draft, when it is new. -/
def ofDraft (d : Draft) (id parent : SymbolId) : Symbol :=
  { d with id, parent := some parent, children := [] }

end Symbol

namespace SymbolTable

/-- The table with `parent` adopting new symbols, and with more symbols behind. -/
def extend (t : SymbolTable) (parent : SymbolId) (owned : List (SymbolId × Draft))
    (new : List Symbol) : SymbolTable :=
  ⟨(t.toList.modify parent (Symbol.adopt owned) ++ new).toArray⟩

/-- A symbol below which others may be created. -/
def Owns (t : SymbolTable) (id : SymbolId) : Prop := ∃ s, t.get? id = some s ∧ s.isScope = true

variable {t : SymbolTable} {parent : SymbolId}

theorem Owns.lt (h : t.Owns parent) : parent < t.size := by
  obtain ⟨s, hs, -⟩ := h
  exact (Array.getElem?_eq_some_iff.mp hs).1

theorem toList_extend (owned : List (SymbolId × Draft)) (new : List Symbol) :
    (t.extend parent owned new).toList = t.toList.modify parent (Symbol.adopt owned) ++ new := rfl

theorem get?_eq_toList (t : SymbolTable) (id : SymbolId) : t.get? id = t.toList[id]? := by
  simp [get?, toList]

theorem size_eq_length (t : SymbolTable) : t.size = t.toList.length := by
  simp [size, toList]

@[simp] theorem size_extend (owned : List (SymbolId × Draft)) (new : List Symbol) :
    (t.extend parent owned new).size = t.size + new.length := by
  rw [size_eq_length, toList_extend, List.length_append, List.length_modify, ← size_eq_length]

theorem extend_nil (t : SymbolTable) (parent : SymbolId) : t.extend parent [] [] = t := by
  have hid : (Symbol.adopt []) = id := funext Symbol.adopt_nil
  unfold extend
  rw [hid, List.modify_id, List.append_nil]
  rfl

/-- Extending twice below the same parent is extending once. -/
theorem extend_extend (h : t.Owns parent) (xs ys : List (SymbolId × Draft))
    (new more : List Symbol) :
    (t.extend parent xs new).extend parent ys more = t.extend parent (xs ++ ys) (new ++ more) := by
  have hlt : parent < (t.toList.modify parent (Symbol.adopt xs)).length := by
    rw [List.length_modify, ← size_eq_length]
    exact h.lt
  have hcomp : Symbol.adopt ys ∘ Symbol.adopt xs = Symbol.adopt (xs ++ ys) :=
    funext (Symbol.adopt_adopt xs ys)
  show (⟨_⟩ : SymbolTable) = ⟨_⟩
  rw [toList_extend, modify_append_left _ hlt, List.modify_modify_eq, hcomp, List.append_assoc]

/-- What is created below the newest symbol changes that symbol alone. -/
theorem extend_extend_last (owned inner : List (SymbolId × Draft)) (s : Symbol)
    (more : List Symbol) :
    (t.extend parent owned [s]).extend t.size inner more
      = t.extend parent owned (s.adopt inner :: more) := by
  have hlen : t.size = (t.toList.modify parent (Symbol.adopt owned)).length := by
    rw [List.length_modify, ← size_eq_length]
  show (⟨_⟩ : SymbolTable) = ⟨_⟩
  rw [toList_extend, hlen, modify_append_length, List.append_assoc]
  rfl

theorem Owns.extend (h : t.Owns parent) (owned : List (SymbolId × Draft)) (new : List Symbol) :
    (t.extend parent owned new).Owns parent := by
  obtain ⟨s, hs, hscope⟩ := h
  have hlt : parent < t.toList.length := by
    rw [← size_eq_length]
    exact Owns.lt ⟨s, hs, hscope⟩
  refine ⟨s.adopt owned, ?_, by rw [Symbol.isScope_adopt, hscope]⟩
  rw [get?_eq_toList] at hs
  rw [get?_eq_toList, toList_extend, List.getElem?_append_left (by rwa [List.length_modify]),
    List.getElem?_modify_eq, hs]
  rfl

/-- The newest symbol may own others if its draft says so. -/
theorem owns_extend_size (owned : List (SymbolId × Draft)) {d : Draft}
    (hd : d.data.kind.isScope = true) :
    (t.extend parent owned [Symbol.ofDraft d t.size parent]).Owns t.size := by
  refine ⟨Symbol.ofDraft d t.size parent, ?_, hd⟩
  have hlen : t.size = (t.toList.modify parent (Symbol.adopt owned)).length := by
    rw [List.length_modify, ← size_eq_length]
  rw [get?_eq_toList, toList_extend, List.getElem?_append_right (Nat.le_of_eq hlen.symm), ← hlen,
    Nat.sub_self]
  rfl

theorem eq_of_toList {t u : SymbolTable} (h : t.toList = u.toList) : t = u := by
  obtain ⟨symbols⟩ := t
  obtain ⟨others⟩ := u
  rw [show symbols = others from Array.ext' h]

/-- A new symbol is noted by its parent, as a child and as a branch. -/
theorem create_eq (h : t.Owns parent) (d : Draft) :
    (match d.data with
      | .selection branch _ => (t.append d parent).addBranch parent branch t.size
      | _ => t.append d parent)
      = t.extend parent [(t.size, d)] [Symbol.ofDraft d t.size parent] := by
  have hlt : parent < t.toList.length := by
    rw [← size_eq_length]
    exact h.lt
  have happend : (t.append d parent).toList = t.toList.modify parent
      (fun s => { s with children := s.children ++ [t.size] }) ++
        [Symbol.ofDraft d t.size parent] := by
    simp [append, toList, Symbol.ofDraft]
  apply eq_of_toList
  rw [toList_extend]
  split
  · rename_i branch fold hd
    have hadd : ((t.append d parent).addBranch parent branch t.size).toList
        = (t.append d parent).toList.modify parent fun s =>
          match s.data with
          | .ifStatement branches => { s with data := .ifStatement (branches.add branch t.size) }
          | _ => s :=
      Array.toList_modify
    rw [hadd, happend, modify_append_left _ (by rwa [List.length_modify]), List.modify_modify_eq]
    congr 2
    funext s
    obtain ⟨⟨name, data, node, span, nameRange⟩, id, owner, children⟩ := s
    cases data <;> simp [Symbol.adopt, SymbolData.withBranches, Branches.addAll, hd]
  · rename_i hd
    rw [happend]
    congr 2
    funext s
    have haddAll : ∀ b : Branches, b.addAll [(t.size, d)] = b := by
      intro b
      unfold Branches.addAll
      split
      · rename_i branch fold hbranch
        exact absurd hbranch (hd branch fold)
      · rfl
    obtain ⟨⟨name, data, node, span, nameRange⟩, id, owner, children⟩ := s
    cases data <;> simp [Symbol.adopt, SymbolData.withBranches, haddAll]

end SymbolTable

end LpcSymbols
