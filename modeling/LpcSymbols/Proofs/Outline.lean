/-
The outline of a file is exact.

An outline follows the tree of symbols and leaves symbols out at every depth: a statement or
an expression gives no entry, and what is inside it is listed in the entry around it.  So the
entries have to be compared with the symbols of the whole table.

Entries may be equal, so an entry is known by its number in the order of `flatten`, and it is
listed with the numbers of the entries around it (`numbered`).  The induction goes down the
tree of symbols.  Below a scope there are the listed symbols below the scope, one entry for
each (`lists_below`), and the invariant is that the numbers of the entries around a row are
those of the listed symbols among the owners of the row.
-/
import LpcSymbols.Proofs.Drafts
import LpcSymbols.Proofs.Places
import LpcSymbols.Proofs.Safety
import Mathlib.Data.List.Forall2
import Mathlib.Data.List.Nodup

namespace LpcSymbols

namespace OutlineEntry

mutual

/-- Number of entries: the entry and all entries inside it. -/
def count : OutlineEntry → Nat
  | .mk _ _ _ _ inside => countAll inside + 1

/-- Number of entries in a list. -/
def countAll : List OutlineEntry → Nat
  | [] => 0
  | e :: es => e.count + countAll es

end

mutual

/-- The entry and all entries inside it, in the order of `flatten`, each with the numbers of
the entries around it, nearest first.  The entry itself has number `next`. -/
def numbered (around : List Nat) (next : Nat) : OutlineEntry → List (OutlineEntry × List Nat)
  | .mk name kind detail region inside =>
    (.mk name kind detail region inside, around) :: numberedAll (next :: around) (next + 1) inside

/-- The entries of a list, and all entries inside them. -/
def numberedAll (around : List Nat) (next : Nat) :
    List OutlineEntry → List (OutlineEntry × List Nat)
  | [] => []
  | e :: es => e.numbered around next ++ numberedAll around (next + e.count) es

end

mutual

theorem length_numbered (around : List Nat) (next : Nat) :
    ∀ e : OutlineEntry, (e.numbered around next).length = e.count
  | .mk _ _ _ _ inside => by
    rw [numbered, List.length_cons, length_numberedAll _ _ inside, count]

theorem length_numberedAll (around : List Nat) (next : Nat) :
    ∀ es : List OutlineEntry, (numberedAll around next es).length = countAll es
  | [] => rfl
  | e :: es => by
    rw [numberedAll, List.length_append, length_numbered around next e,
      length_numberedAll around _ es, countAll]

end

mutual

theorem flatten_eq_numbered (around : List Nat) (next : Nat) : ∀ e : OutlineEntry,
    e.flatten around.length = (e.numbered around next).map fun x => (x.2.length, x.1)
  | .mk _ _ _ _ inside => by
    rw [flatten, numbered, List.map_cons, ← flattenAll_eq_numberedAll (next :: around) _ inside]
    rfl

/-- The depth of an entry is the number of entries around it. -/
theorem flattenAll_eq_numberedAll (around : List Nat) (next : Nat) : ∀ es : List OutlineEntry,
    flattenAll around.length es = (numberedAll around next es).map fun x => (x.2.length, x.1)
  | [] => rfl
  | e :: es => by
    rw [flattenAll, numberedAll, List.map_append, flatten_eq_numbered around next e,
      flattenAll_eq_numberedAll around _ es]

end

theorem numberedAll_append (around : List Nat) (next : Nat) (xs ys : List OutlineEntry) :
    numberedAll around next (xs ++ ys)
      = numberedAll around next xs ++ numberedAll around (next + countAll xs) ys := by
  induction xs generalizing next with
  | nil => rfl
  | cons x xs ih =>
      rw [List.cons_append, numberedAll, numberedAll, countAll, ih, List.append_assoc, Nat.add_assoc]

end OutlineEntry

/-! ### The symbols that are listed -/

/-- From number `next` on, the numbers stand for these symbols. -/
def Numbers (symbol? : Nat → Option Symbol) (next : Nat) (symbols : List Symbol) : Prop :=
  ∀ k s, symbols[k]? = some s → symbol? (next + k) = some s

namespace Numbers

variable {symbol? : Nat → Option Symbol} {next : Nat}

theorem head {s : Symbol} {rest : List Symbol} (h : Numbers symbol? next (s :: rest)) :
    symbol? next = some s :=
  h 0 s rfl

theorem tail {s : Symbol} {rest : List Symbol} (h : Numbers symbol? next (s :: rest)) :
    Numbers symbol? (next + 1) rest := by
  intro k x hx
  rw [Nat.add_assoc, Nat.add_comm 1 k]
  exact h (k + 1) x hx

theorem left {xs ys : List Symbol} (h : Numbers symbol? next (xs ++ ys)) :
    Numbers symbol? next xs := by
  intro k x hx
  apply h k x
  rw [List.getElem?_append_left (List.getElem?_eq_some_iff.mp hx).1, hx]

theorem right {xs ys : List Symbol} (h : Numbers symbol? next (xs ++ ys)) :
    Numbers symbol? (next + xs.length) ys := by
  intro k x hx
  rw [Nat.add_assoc]
  apply h (xs.length + k) x
  rw [List.getElem?_append_right (Nat.le_add_right _ _), Nat.add_sub_cancel_left, hx]

end Numbers

namespace SymbolTable

variable {t : SymbolTable} {id : SymbolId}

/-- The symbols among these that are entries of an outline. -/
def listedOf (t : SymbolTable) (ids : List SymbolId) : List Symbol :=
  (ids.filterMap t.get?).filter (·.kind.isListed)

theorem listedOf_append (xs ys : List SymbolId) :
    t.listedOf (xs ++ ys) = t.listedOf xs ++ t.listedOf ys := by
  rw [listedOf, List.filterMap_append, List.filter_append]
  rfl

theorem listedOf_cons_of_listed {s : Symbol} (hs : t.get? id = some s)
    (h : s.kind.isListed = true) (ids : List SymbolId) :
    t.listedOf (id :: ids) = s :: t.listedOf ids := by
  simp [listedOf, List.filterMap_cons_some hs, h]

theorem listedOf_cons_of_not_listed {s : Symbol} (hs : t.get? id = some s)
    (h : s.kind.isListed = false) (ids : List SymbolId) :
    t.listedOf (id :: ids) = t.listedOf ids := by
  simp [listedOf, List.filterMap_cons_some hs, h]

theorem WellFormed.get?_of_mem (h : t.WellFormed) {s : Symbol} (hs : s ∈ t.toList) :
    t.get? s.id = some s := by
  obtain ⟨i, hi⟩ := List.getElem?_of_mem hs
  rw [← t.get?_eq_toList] at hi
  rw [h.numbered i s hi, hi]

/-- All listed symbols of a table. -/
theorem WellFormed.listedOf_range (h : t.WellFormed) :
    t.listedOf (List.range t.size) = t.toList.filter (·.kind.isListed) := by
  have hall : t.toList.filterMap (t.get? ∘ (·.id)) = t.toList := by
    calc t.toList.filterMap (t.get? ∘ (·.id))
      _ = t.toList.filterMap some := List.filterMap_congr fun _ hs => h.get?_of_mem hs
      _ = t.toList := List.filterMap_some
  rw [listedOf, ← h.ids_eq_range, List.filterMap_map, hall]

/-- The owners of a symbol are the symbols that it is properly below. -/
theorem WellFormed.mem_ancestors (h : t.WellFormed) {r : Symbol} (hr : r ∈ t.toList) :
    r ∈ t.ancestors id ↔ id ∈ t.descendants r.id ∧ id ≠ r.id := by
  have howners : r ∈ t.ancestors id ↔ r.id ∈ t.owners id := by
    refine ⟨List.mem_map_of_mem, ?_⟩
    intro hmem
    obtain ⟨x, hx, hid⟩ := List.mem_map.mp hmem
    obtain ⟨i, -, hi⟩ := List.mem_filterMap.mp hx
    have hget : t.get? r.id = some x := by
      rw [← hid, h.numbered i x hi, hi]
    obtain rfl := Option.some.inj (hget.symm.trans (h.get?_of_mem hr))
    exact hx
  rw [howners, h.mem_descendants, h.descends_iff_owners]
  constructor
  · intro hmem
    exact ⟨Or.inr hmem, Nat.ne_of_gt (List.rel_of_pairwise_cons (h.owners_descending id) hmem)⟩
  · intro hbelow
    exact hbelow.1.resolve_left hbelow.2

end SymbolTable

/-! ### The entries below a scope -/

namespace FileModel

open OutlineEntry

variable {m : FileModel} {symbol? : Nat → Option Symbol}

/-- The numbers stand for the listed ones among these symbols, in order. -/
def Around (symbol? : Nat → Option Symbol) (numbers : List Nat) (owners : List Symbol) : Prop :=
  numbers.map symbol? = (owners.filter (·.kind.isListed)).map some

theorem Around.cons_of_listed {numbers : List Nat} {owners : List Symbol} {s : Symbol} {next : Nat}
    (h : Around symbol? numbers owners) (hs : s.kind.isListed = true)
    (hnext : symbol? next = some s) : Around symbol? (next :: numbers) (s :: owners) := by
  unfold Around at h ⊢
  rw [List.map_cons, hnext, h]
  simp [hs]

theorem Around.cons_of_not_listed {numbers : List Nat} {owners : List Symbol} {s : Symbol}
    (h : Around symbol? numbers owners) (hs : s.kind.isListed = false) :
    Around symbol? numbers (s :: owners) := by
  unfold Around at h ⊢
  rw [h]
  simp [hs]

/-- An entry with the numbers of the entries around it stands for a symbol: it is the symbol's
entry, and the entries around it stand for the listed symbols among the symbol's owners. -/
structure Shows (m : FileModel) (symbol? : Nat → Option Symbol) (x : OutlineEntry × List Nat)
    (s : Symbol) : Prop where
  entry : ∃ inside, x.1 = ofSymbol m.lines s inside
  around : Around symbol? x.2 (m.table.ancestors s.id)

/-- A symbol that is neither an entry nor passed through has nothing below it. -/
def Ends (m : FileModel) (id : SymbolId) : Prop :=
  ∀ s, m.table.get? id = some s → s.kind.isTransparent = false → s.kind.isListed = false →
    m.table.children id = []

/-- In the outline these entries stand for these symbols, one for each, if they are numbered
from `next` on and these are the numbers of the entries around them. -/
def Lists (m : FileModel) (symbol? : Nat → Option Symbol) (around : List Nat)
    (entries : List OutlineEntry) (symbols : List Symbol) : Prop :=
  ∀ next, Numbers symbol? next symbols →
    List.Forall₂ (m.Shows symbol?) (numberedAll around next entries) symbols

theorem Lists.append {around : List Nat} {es fs : List OutlineEntry} {xs ys : List Symbol}
    (he : m.Lists symbol? around es xs) (hf : m.Lists symbol? around fs ys) :
    m.Lists symbol? around (es ++ fs) (xs ++ ys) := by
  intro next hnumbers
  have hleft := he next hnumbers.left
  have hcount : countAll es = xs.length := by
    rw [← length_numberedAll around next, hleft.length_eq]
  rw [numberedAll_append, hcount]
  exact List.rel_append hleft (hf _ hnumbers.right)

/-- The entries of a row of symbols are those of the symbols one after the other. -/
theorem lists_flatMap {around : List Nat} {entriesOf : SymbolId → List OutlineEntry}
    (cs : List SymbolId) (h : ∀ c ∈ cs, m.Lists symbol? around (entriesOf c)
      (m.table.listedOf (m.table.descendants c))) :
    m.Lists symbol? around (cs.flatMap entriesOf)
      (m.table.listedOf (cs.flatMap m.table.descendants)) := by
  induction cs with
  | nil =>
      intro next _
      exact List.Forall₂.nil
  | cons c cs ih =>
      have hrest := ih fun x hx => h x (List.mem_cons_of_mem _ hx)
      simpa only [List.flatMap_cons, SymbolTable.listedOf_append]
        using (h c List.mem_cons_self).append hrest

/-- The entry of a symbol comes before the entries inside it. -/
theorem lists_ofSymbol {s : Symbol} {around : List Nat} {inside : List OutlineEntry}
    {symbols : List Symbol} (hs : s.kind.isListed = true)
    (haround : Around symbol? around (m.table.ancestors s.id))
    (hinside : ∀ numbers, Around symbol? numbers (s :: m.table.ancestors s.id) →
      m.Lists symbol? numbers inside symbols) :
    m.Lists symbol? around [ofSymbol m.lines s inside] (s :: symbols) := by
  intro next hnumbers
  have hentry : numberedAll around next [ofSymbol m.lines s inside]
      = (ofSymbol m.lines s inside, around) :: numberedAll (next :: around) (next + 1) inside := by
    rw [numberedAll, numberedAll, List.append_nil]
    rfl
  rw [hentry]
  exact .cons ⟨⟨inside, rfl⟩, haround⟩
    (hinside _ (haround.cons_of_listed hs hnumbers.head) _ hnumbers.tail)

/-- What the outline has of a symbol and the symbols below it. -/
theorem lists_listed (hwf : m.table.WellFormed) {c : SymbolId} {s : Symbol}
    (hs : m.table.get? c = some s) (hends : m.Ends c) {around : List Nat}
    {inside : List OutlineEntry} (haround : Around symbol? around (m.table.ancestors c))
    (hinside : ∀ numbers, Around symbol? numbers (s :: m.table.ancestors c) →
      m.Lists symbol? numbers inside
        (m.table.listedOf ((m.table.children c).flatMap m.table.descendants))) :
    m.Lists symbol? around (m.listed s inside) (m.table.listedOf (m.table.descendants c)) := by
  obtain rfl : s.id = c := hwf.numbered c s hs
  rw [hwf.descendants_eq, listed]
  by_cases htransparent : s.kind.isTransparent = true
  · -- The symbol has no entry, so the same entries are around what is below it.
    have hlisted : s.kind.isListed = false := by
      cases hk : s.kind <;> simp [hk, SymbolKind.isTransparent, SymbolKind.isListed] at *
    rw [if_pos htransparent, SymbolTable.listedOf_cons_of_not_listed hs hlisted]
    exact hinside around (haround.cons_of_not_listed hlisted)
  rw [if_neg htransparent]
  by_cases hlisted : s.kind.isListed = true
  · rw [if_pos hlisted, SymbolTable.listedOf_cons_of_listed hs hlisted]
    exact lists_ofSymbol hlisted haround hinside
  · have hchildren := hends s hs (by simpa using htransparent) (by simpa using hlisted)
    rw [if_neg hlisted, SymbolTable.listedOf_cons_of_not_listed hs (by simpa using hlisted),
      hchildren]
    intro next _
    exact List.Forall₂.nil

/-- **Below a scope there is one entry for each listed symbol below it, in order.** -/
theorem lists_below (hwf : m.table.WellFormed) (hends : ∀ id, id ≠ SymbolId.root → m.Ends id)
    (id : SymbolId) : ∀ (depth : Nat) (owner : Symbol) (around : List Nat),
      m.table.size ≤ id + depth → m.table.get? id = some owner →
        Around symbol? around (owner :: m.table.ancestors id) →
          m.Lists symbol? around (m.below depth id)
            (m.table.listedOf ((m.table.children id).flatMap m.table.descendants)) := by
  induction id using hwf.induction_down with
  | down id ih =>
      intro depth owner around hdepth howner haround
      cases depth with
      | zero => exact absurd (SymbolTable.lt_size_iff.mpr ⟨owner, howner⟩) (Nat.not_lt.mpr hdepth)
      | succ depth =>
          apply lists_flatMap
          intro c hc
          obtain ⟨hlt, hsize⟩ := hwf.child_bounds hc
          obtain ⟨s, hs⟩ := SymbolTable.lt_size_iff.mp hsize
          have hroot : c ≠ SymbolId.root := Nat.ne_of_gt (Nat.zero_lt_of_lt hlt)
          rw [← hwf.ancestors_of_parent ((hwf.listed id c).mp hc) howner] at haround
          rw [hs, Option.map_some, Option.getD_some]
          apply lists_listed hwf hs (hends c hroot) haround
          intro numbers hnumbers
          exact ih c hc depth s numbers (hwf.size_le_child hc hdepth) hs hnumbers

end FileModel

/-! ### The outline of a file -/

/-- Only the symbol of the file stands for a file. -/
theorem Site.Reads.kind_ne_file {l : Layout} {count : Nat} {s : Site} {d : Draft}
    (h : s.Reads l count d) : d.data.kind ≠ .file := by
  cases h <;> simp [SymbolData.kind]

namespace SourceTree

variable {t : SourceTree}

/-- A symbol that is neither an entry nor passed through is a reference, and owns nothing. -/
theorem ends_model (hwf : t.model.table.WellFormed) {id : SymbolId} (hid : id ≠ SymbolId.root) :
    t.model.Ends id := by
  intro s hs htransparent hlisted
  obtain ⟨e, he, rfl, rfl⟩ := entry_of_get? hs hid
  obtain ⟨count, hreads⟩ := reads_of_entry he
  have hfile : e.symbol.kind ≠ .file := by
    rw [e.kind_symbol]
    exact hreads.kind_ne_file
  have hscope : e.symbol.isScope = false := by
    unfold Symbol.isScope
    cases hk : e.symbol.kind <;>
      simp [hk, SymbolKind.isTransparent, SymbolKind.isListed, SymbolKind.isScope] at *
  apply List.eq_nil_iff_forall_not_mem.mpr
  intro c hc
  obtain ⟨-, owner, howner, howns⟩ := hwf.parent_spec ((hwf.listed e.id c).mp hc)
  obtain rfl := Option.some.inj (howner.symm.trans hs)
  rw [hscope] at howns
  exact Bool.false_ne_true howns

end SourceTree

namespace FileModel

open OutlineEntry

variable {m : FileModel}

/-- The symbols that have entries in an outline, in the order of their numbers. -/
def listedSymbols (m : FileModel) : List Symbol :=
  m.table.toList.filter (·.kind ∈ [SymbolKind.define, .includeFile, .inheritFile, .variable,
    .parameter, .method, .inlineClosure])

theorem listedSymbols_eq (m : FileModel) :
    m.listedSymbols = m.table.toList.filter (·.kind.isListed) := by
  refine List.filter_congr ?_
  intro s _
  cases s.kind <;> rfl

/-- The entries are those of the listed symbols, nested as the symbols are. -/
structure OutlineExact (m : FileModel) (text : String) (entries : List OutlineEntry) : Prop where
  ascending : (m.listedSymbols.map (·.id)).Pairwise (· < ·)
  /-- In pre-order there is one entry for each listed symbol, in the order of the symbols.  It has
  the kind of the symbol, and its ends are the places of the ends of the symbol's node. -/
  entry : List.Forall₂ (fun x s => x.2.kind = s.kind ∧ x.2.region.IsOf text s.range)
    (flattenAll 0 entries) m.listedSymbols
  /-- The numbers of the entries are their places in pre-order. -/
  numbered : flattenAll 0 entries
    = (numberedAll [] 0 entries).map fun x => (x.2.length, x.1)
  /-- Entry `i` is inside entry `j` if its symbol is below that of entry `j`. -/
  nested : ∀ (i j : Nat) (x : OutlineEntry × List Nat) (s r : Symbol),
    (numberedAll [] 0 entries)[i]? = some x →
    m.listedSymbols[i]? = some s → m.listedSymbols[j]? = some r →
      (j ∈ x.2 ↔ s.id ∈ m.table.descendants r.id ∧ s.id ≠ r.id)

/-- Which entries are around an entry is known from the owners of its symbol. -/
theorem mem_around (hwf : m.table.WellFormed) {numbers : List Nat} {id j : Nat} {r : Symbol}
    (h : Around (m.listedSymbols[·]?) numbers (m.table.ancestors id))
    (hr : m.listedSymbols[j]? = some r) :
    j ∈ numbers ↔ id ∈ m.table.descendants r.id ∧ id ≠ r.id := by
  have hin := List.mem_of_getElem? hr
  rw [listedSymbols_eq] at hin
  obtain ⟨hmem, hlisted⟩ := List.mem_filter.mp hin
  have hnodup : m.listedSymbols.Nodup := by
    have hids := (hwf.filter_ascending (·.kind.isListed)).imp Nat.ne_of_lt
    rw [listedSymbols_eq]
    exact List.Nodup.of_map _ hids
  rw [← hwf.mem_ancestors hmem]
  constructor
  · intro hj
    have hsome : some r ∈ numbers.map (m.listedSymbols[·]?) :=
      List.mem_map.mpr ⟨j, hj, hr⟩
    rw [h] at hsome
    obtain ⟨x, hx, heq⟩ := List.mem_map.mp hsome
    obtain rfl := Option.some.inj heq
    exact (List.mem_filter.mp hx).1
  · intro howner
    have hsome : some r ∈ ((m.table.ancestors id).filter (·.kind.isListed)).map some :=
      List.mem_map_of_mem (List.mem_filter.mpr ⟨howner, hlisted⟩)
    rw [← h] at hsome
    obtain ⟨k, hk, hget⟩ := List.mem_map.mp hsome
    have hlt : k < m.listedSymbols.length := (List.getElem?_eq_some_iff.mp hget).1
    obtain rfl := (List.getElem?_inj hlt hnodup).mp (hget.trans hr.symm)
    exact hk

/-- **The outline of a file has one entry for each listed symbol, in order.** -/
theorem shows_outline (hwf : m.table.WellFormed)
    (hends : ∀ id, id ≠ SymbolId.root → m.Ends id) {file : Symbol}
    (hfile : m.table.get? SymbolId.root = some file) (hkind : file.kind = .file)
    (hall : m.table.descendants SymbolId.root = List.range m.table.size) :
    List.Forall₂ (m.Shows (m.listedSymbols[·]?))
      (numberedAll [] 0 (m.below m.table.size SymbolId.root)) m.listedSymbols := by
  have hsymbols : m.listedSymbols
      = m.table.listedOf ((m.table.children SymbolId.root).flatMap m.table.descendants) := by
    rw [listedSymbols_eq, ← hwf.listedOf_range, ← hall, hwf.descendants_eq]
    exact SymbolTable.listedOf_cons_of_not_listed hfile (by rw [hkind]; rfl) _
  have haround : Around (m.listedSymbols[·]?) [] (file :: m.table.ancestors SymbolId.root) := by
    rw [SymbolTable.ancestors_of_none hwf.root]
    exact Around.cons_of_not_listed rfl (by rw [hkind]; rfl)
  have hnumbers : Numbers (m.listedSymbols[·]?) 0 m.listedSymbols := by
    intro k s hs
    rw [Nat.zero_add]
    exact hs
  have hlists := lists_below hwf hends SymbolId.root m.table.size file [] (Nat.le_add_left _ _)
    hfile haround
  rw [← hsymbols] at hlists
  exact hlists 0 hnumbers

end FileModel

namespace SourceTree

open OutlineEntry

variable {t : SourceTree}

/-- The entries of the outline of a file. -/
def outlineEntries (t : SourceTree) : List OutlineEntry :=
  t.model.below t.model.table.size SymbolId.root

theorem outline_model (hwf : t.model.table.WellFormed) : t.model.outline = .ok t.outlineEntries :=
  FileModel.outlineTo_eq hwf _ SymbolId.root

theorem shows_model (hwf : t.model.table.WellFormed) :
    List.Forall₂ (t.model.Shows (t.model.listedSymbols[·]?)) (numberedAll [] 0 t.outlineEntries)
      t.model.listedSymbols :=
  FileModel.shows_outline hwf (fun _ hid => ends_model hwf hid)
    (show _ = some t.fileSymbol from rfl) rfl (inPreorder hwf).all

/-- In pre-order the entries are those of the listed symbols. -/
theorem ofSymbol_model (hwf : t.model.table.WellFormed) :
    List.Forall₂ (fun x s => ∃ inside, x.2 = ofSymbol t.model.lines s inside)
      (flattenAll 0 t.outlineEntries) t.model.listedSymbols := by
  have hflatten : flattenAll 0 t.outlineEntries = _ := flattenAll_eq_numberedAll [] 0 _
  rw [hflatten, List.forall₂_map_left_iff]
  exact (shows_model hwf).imp fun _ _ hx => hx.entry

/-- The node of a symbol stands in the text, so its region is known from the bytes before its
ends. -/
theorem region_model {s : Symbol} (hs : s ∈ t.model.table.toList) :
    (t.model.lines.region s.range).IsOf t.text s.range := by
  obtain ⟨hle, hstop⟩ := range_bounds hs List.mem_cons_self
  exact LineMap.region_isOf t.text hle hstop

/-- **The outline of a file is exact.** -/
theorem outlineExact (hwf : t.model.table.WellFormed) :
    t.model.OutlineExact t.text t.outlineEntries where
  ascending := by
    rw [FileModel.listedSymbols_eq]
    exact hwf.filter_ascending _
  entry := by
    refine imp_related_of_mem (ofSymbol_model hwf) ?_
    intro x _ s hs hx
    obtain ⟨inside, hx⟩ := hx
    rw [hx]
    exact ⟨rfl, region_model (List.mem_filter.mp hs).1⟩
  numbered := flattenAll_eq_numberedAll [] 0 _
  nested := by
    intro i j x s r hx hs hr
    obtain ⟨hi, rfl⟩ := List.getElem?_eq_some_iff.mp hx
    obtain ⟨hi', rfl⟩ := List.getElem?_eq_some_iff.mp hs
    exact FileModel.mem_around hwf ((shows_model hwf).get hi hi').around hr

end SourceTree

/-- **The outline of a file has the entries of its listed symbols, each at the place of its node, and
nested as the symbols are.** -/
theorem Analysis.outline_exact (t : SourceTree) :
    (t.InBounds → ∃ a, Analysis.ofTree t = .ok a) ∧
      ∀ a, Analysis.ofTree t = .ok a → ∃ entries, a.model.outline = .ok entries ∧
        a.model.OutlineExact t.text entries := by
  refine ⟨fun h => ⟨_, Analysis.ofTree_of_inBounds h⟩, ?_⟩
  intro a ha
  have hwf := wellFormed_table ha
  obtain ⟨-, rfl⟩ := Analysis.ofTree_ok_iff.mp ha
  exact ⟨t.outlineEntries, SourceTree.outline_model hwf, SourceTree.outlineExact hwf⟩

/-- A comment with a letter of two bytes, a macro, two imports, and a function with a parameter.  In
a branch of an `if` statement of the function there is a variable, with a closure that has a
parameter. -/
def SourceTree.wrapped : SourceTree :=
  .ofItems ⟨0⟩ {}
    [.token Kind.comment.tag "/* é */",
     .node Kind.defineDirective.tag [.token Kind.defineLine.tag "#define N(a) 1"],
     .token Kind.whitespace.tag "\n",
     .node Kind.includeDirective.tag [.token Kind.headerName.tag "<a.h>"],
     .node Kind.inheritStatement.tag
      [.node Kind.inheritTarget.tag [.token Kind.stringLit.tag "\"b\""]],
     .token Kind.whitespace.tag "\n",
     .node Kind.functionDecl.tag
      [.node Kind.functionHeader.tag [.node Kind.name.tag [.token Kind.ident.tag "f"]],
       .node Kind.param.tag [.node Kind.name.tag [.token Kind.ident.tag "p"]],
       .node Kind.ifStatement.tag
        [.node Kind.ifClause.tag
          [.node Kind.variableDecl.tag
            [.node Kind.primitiveType.tag [.token Kind.typeKw.tag "int"],
             .token Kind.whitespace.tag "\n ",
             .node Kind.variableDeclarator.tag
              [.node Kind.name.tag [.token Kind.ident.tag "v"],
               .node Kind.inlineClosure.tag
                [.token Kind.whitespace.tag "\n",
                 .node Kind.param.tag [.node Kind.name.tag [.token Kind.ident.tag "q"]]]]]]]]]

/-- What the outline of a file shows: depth, name and kind, and the places of the ends. -/
def OutlineEntry.rows (entries : List OutlineEntry) :
    List (Nat × String × SymbolKind × LineCol × LineCol) :=
  (flattenAll 0 entries).map fun x =>
    (x.1, x.2.name, x.2.kind, x.2.region.start, x.2.region.stop)

theorem Analysis.outline_exact_wrapped :
    SourceTree.wrapped.InBounds ∧ ∃ a entries, Analysis.ofTree .wrapped = .ok a ∧
      a.model.outline = .ok entries ∧ a.model.OutlineExact SourceTree.wrapped.text entries ∧
      OutlineEntry.rows entries =
        [(0, "N", .define, ⟨0, 8⟩, ⟨0, 22⟩), (0, "<a.h>", .includeFile, ⟨1, 0⟩, ⟨1, 5⟩),
         (0, "\"b\"", .inheritFile, ⟨1, 5⟩, ⟨1, 8⟩), (0, "f", .method, ⟨2, 0⟩, ⟨4, 1⟩),
         (1, "p", .parameter, ⟨2, 1⟩, ⟨2, 2⟩), (1, "v", .variable, ⟨3, 1⟩, ⟨4, 1⟩),
         (1, "v", .inlineClosure, ⟨3, 2⟩, ⟨4, 1⟩), (2, "q", .parameter, ⟨4, 0⟩, ⟨4, 1⟩)] := by
  have hbounds : SourceTree.wrapped.InBounds := ⟨by decide +kernel, by decide +kernel⟩
  have hrows : ((Analysis.ofTree .wrapped).toOption.bind fun a =>
      a.model.outline.toOption.map OutlineEntry.rows) = some
        [(0, "N", .define, ⟨0, 8⟩, ⟨0, 22⟩), (0, "<a.h>", .includeFile, ⟨1, 0⟩, ⟨1, 5⟩),
         (0, "\"b\"", .inheritFile, ⟨1, 5⟩, ⟨1, 8⟩), (0, "f", .method, ⟨2, 0⟩, ⟨4, 1⟩),
         (1, "p", .parameter, ⟨2, 1⟩, ⟨2, 2⟩), (1, "v", .variable, ⟨3, 1⟩, ⟨4, 1⟩),
         (1, "v", .inlineClosure, ⟨3, 2⟩, ⟨4, 1⟩), (2, "q", .parameter, ⟨4, 0⟩, ⟨4, 1⟩)] := by
    decide +kernel
  obtain ⟨hok, hexact⟩ := outline_exact .wrapped
  obtain ⟨a, ha⟩ := hok hbounds
  obtain ⟨entries, hentries, h⟩ := hexact a ha
  rw [ha] at hrows
  simp only [Except.toOption, Option.bind_some, hentries, Option.map_some, Option.some.injEq] at hrows
  exact ⟨hbounds, a, entries, ha, hentries, h, hrows⟩

end LpcSymbols
