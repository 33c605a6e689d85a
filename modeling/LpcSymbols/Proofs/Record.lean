/-
What a recorder has recorded.

Recording is a fold over findings that changes a table, a list of imports, the
statistics and a trace.  Each of these has a closed form.  The symbols come in the
order of the findings, each finding before what is inside it, and the numbers are
counted on from the size of the table; so the number of every symbol, its parent and
its children are known without running the recorder (`Entry`).

The recorder takes its place from a stack of open symbols.  In the closed form there
is no stack: a finding is below the finding around it, and as deep as it is nested.
The two agree because whatever is recorded leaves the stack as it was, so that the
symbol on top is always the one that is being looked into.

`recordAll_ok_iff` says that recording succeeds exactly if the lines of all drafts
and the counters fit, and that the outcome is then the closed form, `after`.  It
fails in no other way than that a number leaves its word (`onlyOverflows_recordAll`).
-/
import LpcSymbols.Analysis.Recorder
import LpcSymbols.Proofs.Growth
import LpcSymbols.Proofs.Walk

namespace LpcSymbols

theorem bind_eq_ok {α β : Type} {x : Except Fault α} {f : α → Except Fault β} {b : β} :
    (x >>= f) = .ok b ↔ ∃ a, x = .ok a ∧ f a = .ok b := by
  cases x with
  | error fault =>
      constructor
      · rintro ⟨⟩
      · rintro ⟨a, ⟨⟩, -⟩
  | ok a =>
      constructor
      · intro h
        exact ⟨a, rfl, h⟩
      · rintro ⟨_, ⟨⟩, h⟩
        exact h

/-- Nothing goes wrong but that a number leaves its word. -/
def OnlyOverflows {α : Type} (x : Except Fault α) : Prop :=
  ∀ fault, x = .error fault → fault = .overflow

namespace OnlyOverflows

variable {α β : Type}

theorem ok (a : α) : OnlyOverflows (.ok a) := by
  intro fault h
  simp at h

theorem ite {condition : Prop} [Decidable condition] {x : Except Fault α} (h : OnlyOverflows x) :
    OnlyOverflows (if condition then x else .error .overflow) := by
  intro fault hfault
  split at hfault
  · exact h fault hfault
  · exact (Except.error.inj hfault).symm

theorem bind {x : Except Fault α} {f : α → Except Fault β} (hx : OnlyOverflows x)
    (hf : ∀ a, x = .ok a → OnlyOverflows (f a)) : OnlyOverflows (x >>= f) := by
  cases x with
  | error fault =>
      intro other h
      exact hx other (congrArg _ (Except.error.inj h))
  | ok a => exact hf a rfl

end OnlyOverflows

/-- All that is to be known of a symbol, and the site it comes from. -/
structure Entry where
  site : Site
  draft : Draft
  id : SymbolId
  parent : SymbolId
  /-- The symbols it owns, with their drafts. -/
  owned : List (SymbolId × Draft)

/-- The symbol of an entry. -/
def Entry.symbol (e : Entry) : Symbol := (Symbol.ofDraft e.draft e.id e.parent).adopt e.owned

namespace Located

mutual

/-- Number of symbols that a finding becomes. -/
def symbolCount : Located → Nat
  | .leaf _ _ => 1
  | .scope _ _ inside => symbolCountAll inside + 1
  | .omitted _ _ => 0

/-- Number of symbols that findings become. -/
def symbolCountAll : List Located → Nat
  | [] => 0
  | f :: fs => f.symbolCount + symbolCountAll fs

end

/-- The symbol of the finding itself, if `next` is the next number. -/
def top (next : SymbolId) : Located → List (SymbolId × Draft)
  | .leaf _ draft => [(next, draft)]
  | .scope _ draft _ => [(next, draft)]
  | .omitted _ _ => []

/-- The symbols of the findings themselves, without those inside them. -/
def tops (next : SymbolId) : List Located → List (SymbolId × Draft)
  | [] => []
  | f :: fs => f.top next ++ tops (next + f.symbolCount) fs

mutual

/-- The entries of a finding below `parent`, if `next` is the next number. -/
def entries (parent next : SymbolId) : Located → List Entry
  | .leaf site draft => [⟨site, draft, next, parent, []⟩]
  | .scope site draft inside =>
    ⟨site, draft, next, parent, tops (next + 1) inside⟩ :: entriesAll next (next + 1) inside
  | .omitted _ _ => []

/-- The entries of findings below `parent`, if `next` is the next number. -/
def entriesAll (parent next : SymbolId) : List Located → List Entry
  | [] => []
  | f :: fs => f.entries parent next ++ entriesAll parent (next + f.symbolCount) fs

end

mutual

/-- What the trace says of a finding. -/
def events (depth : Nat) (next : SymbolId) : Located → List TraceEvent
  | .leaf _ _ => []
  | .scope _ _ inside =>
    .entered next (depth + 1) :: (eventsAll (depth + 1) (next + 1) inside ++ [.left next depth])
  | .omitted site reason => [.omitted site.1.ref reason]

/-- What the trace says of findings. -/
def eventsAll (depth : Nat) (next : SymbolId) : List Located → List TraceEvent
  | [] => []
  | f :: fs => f.events depth next ++ eventsAll depth (next + f.symbolCount) fs

end

end Located

/-- The statistics of one thing after another. -/
def Stats.join (a b : Stats) : Stats :=
  ⟨a.opened + b.opened, a.closed + b.closed, max a.maxDepth b.maxDepth, a.omissions + b.omissions⟩

/-- The counters are words. -/
structure Stats.Fits (s : Stats) : Prop where
  opened : s.opened < Word.bound
  closed : s.closed < Word.bound
  omissions : s.omissions < Word.bound

theorem Stats.join_assoc (a b c : Stats) : (a.join b).join c = a.join (b.join c) := by
  simp only [join, Nat.add_assoc, Nat.max_assoc]

theorem Stats.join_zero (a : Stats) : a.join {} = a := by
  simp [join]

/-- What fits with more to come fits already. -/
theorem Stats.Fits.of_join {a b : Stats} (h : (a.join b).Fits) : a.Fits := by
  obtain ⟨ho, hc, hm⟩ := h
  simp only [join] at ho hc hm
  exact ⟨by omega, by omega, by omega⟩

namespace Located

mutual

/-- What a finding adds to the statistics while `depth` symbols are open. -/
def tally (depth : Nat) : Located → Stats
  | .leaf _ _ => {}
  | .scope _ _ inside => Stats.join ⟨1, 1, depth + 1, 0⟩ (tallyAll (depth + 1) inside)
  | .omitted _ _ => ⟨0, 0, 0, 1⟩

/-- What findings add to the statistics. -/
def tallyAll (depth : Nat) : List Located → Stats
  | [] => {}
  | f :: fs => (f.tally depth).join (tallyAll depth fs)

end

mutual

/-- A finding with symbols inside has a draft whose symbol may own them. -/
def WellScoped : Located → Prop
  | .leaf _ draft => draft.data.kind.isScope = false
  | .scope _ draft inside => draft.data.kind.isScope = true ∧ WellScopedAll inside
  | .omitted _ _ => True

/-- All findings of a row are well scoped. -/
def WellScopedAll : List Located → Prop
  | [] => True
  | f :: fs => f.WellScoped ∧ WellScopedAll fs

end

mutual

theorem length_entries (parent next : SymbolId) :
    ∀ f : Located, (f.entries parent next).length = f.symbolCount
  | .leaf _ _ => rfl
  | .scope _ _ inside => by
    rw [entries, List.length_cons, length_entriesAll next (next + 1) inside, symbolCount]
  | .omitted _ _ => rfl

theorem length_entriesAll (parent next : SymbolId) :
    ∀ fs : List Located, (entriesAll parent next fs).length = symbolCountAll fs
  | [] => rfl
  | f :: fs => by
    rw [entriesAll, List.length_append, length_entries parent next f,
      length_entriesAll parent _ fs, symbolCountAll]

end

theorem entriesAll_append (parent next : SymbolId) (fs gs : List Located) :
    entriesAll parent next (fs ++ gs)
      = entriesAll parent next fs ++ entriesAll parent (next + symbolCountAll fs) gs := by
  induction fs generalizing next with
  | nil => rfl
  | cons f fs ih => simp only [List.cons_append, entriesAll, symbolCountAll, ih, List.append_assoc,
      Nat.add_assoc]

mutual

theorem entries_ids (parent next : SymbolId) :
    ∀ f : Located, (f.entries parent next).map (·.id) = List.range' next f.symbolCount
  | .leaf _ _ => rfl
  | .scope _ _ inside => by
    rw [entries, List.map_cons, entriesAll_ids next (next + 1) inside, symbolCount]
    rfl
  | .omitted _ _ => rfl

/-- Entries are numbered on without a gap. -/
theorem entriesAll_ids (parent next : SymbolId) :
    ∀ fs : List Located, (entriesAll parent next fs).map (·.id) = List.range' next (symbolCountAll fs)
  | [] => rfl
  | f :: fs => by
    rw [entriesAll, List.map_append, entries_ids parent next f, entriesAll_ids parent _ fs,
      symbolCountAll, List.range'_append_1]

end

end Located

/-- The imports among entries. -/
def Entry.imports (entries : List Entry) : List Import :=
  entries.filterMap fun e => Import.ofData? e.draft.data e.id

namespace Recorder

open Located

variable {r r' : Recorder}

/-- The recorder when findings have been recorded.  The stack of open symbols is as before. -/
def after (r : Recorder) (fs : List Located) : Recorder where
  table := r.table.extend r.current (tops r.table.size fs)
    ((entriesAll r.current r.table.size fs).map Entry.symbol)
  imports := r.imports ++ (Entry.imports (entriesAll r.current r.table.size fs)).toArray
  stats := r.stats.join (tallyAll r.scopes.length fs)
  trace := r.trace ++ (eventsAll r.scopes.length r.table.size fs).toArray
  scopes := r.scopes

@[simp] theorem scopes_after (r : Recorder) (fs : List Located) : (r.after fs).scopes = r.scopes := rfl

@[simp] theorem current_after (r : Recorder) (fs : List Located) :
    (r.after fs).current = r.current := rfl

theorem after_nil (r : Recorder) : r.after [] = r := by
  simp [after, tops, entriesAll, Entry.imports, tallyAll, eventsAll, SymbolTable.extend_nil,
    Stats.join_zero]

@[simp] theorem size_after (r : Recorder) (fs : List Located) :
    (r.after fs).table.size = r.table.size + symbolCountAll fs := by
  simp [after, length_entriesAll]

/-- Findings are recorded one after the other. -/
theorem after_cons (h : r.table.Owns r.current) (f : Located) (fs : List Located) :
    (r.after [f]).after fs = r.after (f :: fs) := by
  have hsize : (r.after [f]).table.size = r.table.size + f.symbolCount := by
    simp [symbolCountAll]
  have hcurrent : (r.after [f]).current = r.current := rfl
  unfold after at hsize hcurrent ⊢
  simp only [hsize, hcurrent]
  simp only [tops, entriesAll, tallyAll, eventsAll, List.append_nil, Stats.join_zero,
    SymbolTable.extend_extend h, Stats.join_assoc, Entry.imports, List.map_append,
    List.filterMap_append, List.append_toArray, Array.append_assoc]

/-! ### The steps of a recorder -/

theorem create_ok {t : SymbolTable} {parent : SymbolId} (h : t.Owns parent) (d : Draft) :
    t.create d parent = .ok (t.size, t.append d parent) := by
  obtain ⟨s, hs, hscope⟩ := h
  unfold SymbolTable.create SymbolTable.get
  rw [hs]
  show (if s.isScope = true then _ else _) = _
  rw [if_pos hscope]

/-- The recorder with a new symbol. -/
def declared (r : Recorder) (d : Draft) : Recorder :=
  { r with
    table := r.table.extend r.current [(r.table.size, d)] [Symbol.ofDraft d r.table.size r.current]
    imports := r.imports ++ (Import.ofData? d.data r.table.size).toArray }

theorem declare_ok_iff (h : r.table.Owns r.current) {d : Draft} {p : SymbolId × Recorder} :
    r.declare d = .ok p ↔ d.fits = true ∧ p = (r.table.size, r.declared d) := by
  have haccept : r.accept d r.table.size (r.table.append d r.current) = r.declared d := by
    have htable := SymbolTable.create_eq h d
    unfold accept declared
    cases hdata : d.data <;> simp only [hdata] at htable ⊢ <;> rw [htable]
  unfold declare
  split
  · rename_i hfits
    rw [create_ok h d]
    show Except.ok (r.table.size, r.accept d r.table.size (r.table.append d r.current)) = .ok p ↔ _
    rw [haccept, Except.ok.injEq]
    exact ⟨fun hp => ⟨hfits, hp.symm⟩, fun hp => hp.2.symm⟩
  · rename_i hfits
    constructor
    · rintro ⟨⟩
    · rintro ⟨hd, -⟩
      exact absurd hd hfits

theorem succ_ok_iff {n m : Nat} : Word.succ n = .ok m ↔ n + 1 < Word.bound ∧ m = n + 1 := by
  unfold Word.succ
  split
  · rename_i hfits
    have hlt : n + 1 < Word.bound := by simpa [Word.fits] using hfits
    rw [Except.ok.injEq]
    exact ⟨fun hm => ⟨hlt, hm.symm⟩, fun hm => hm.2.symm⟩
  · rename_i hfits
    have hlt : ¬ n + 1 < Word.bound := by simpa [Word.fits] using hfits
    constructor
    · rintro ⟨⟩
    · rintro ⟨hn, -⟩
      exact absurd hn hlt

/-- The recorder with a symbol opened. -/
def entered (r : Recorder) (scope : SymbolId) : Recorder :=
  { r with
    stats := r.stats.join ⟨1, 0, r.scopes.length + 1, 0⟩
    trace := r.trace.push (.entered scope (r.scopes.length + 1))
    scopes := scope :: r.scopes }

/-- The recorder with the symbol opened last closed. -/
def closed (r : Recorder) : Recorder :=
  { r with
    stats := r.stats.join ⟨0, 1, 0, 0⟩
    trace := r.trace.push (.left r.current (r.scopes.length - 1))
    scopes := r.scopes.tail }

/-- The recorder with an omission. -/
def leftOut (r : Recorder) (node : NodeRef) (reason : Omission) : Recorder :=
  { r with stats := r.stats.join ⟨0, 0, 0, 1⟩, trace := r.trace.push (.omitted node reason) }

theorem enter_ok_iff {scope : SymbolId} :
    r.enter scope = .ok r' ↔ r.stats.opened + 1 < Word.bound ∧ r' = r.entered scope := by
  unfold enter
  rw [bind_eq_ok]
  constructor
  · rintro ⟨opened, hopened, hr⟩
    obtain ⟨hlt, rfl⟩ := succ_ok_iff.mp hopened
    obtain rfl := Except.ok.inj hr
    exact ⟨hlt, by simp [entered, note, Stats.join]⟩
  · rintro ⟨hlt, rfl⟩
    exact ⟨_, succ_ok_iff.mpr ⟨hlt, rfl⟩, by simp [entered, note, Stats.join, pure, Except.pure]⟩

/-- Only an open symbol can be closed. -/
theorem leave_ok_iff :
    r.leave = .ok r' ↔ r.scopes ≠ [] ∧ r.stats.closed + 1 < Word.bound ∧ r' = r.closed := by
  unfold leave
  cases hscopes : r.scopes with
  | nil => simp
  | cons scope scopes =>
      have hclosed : r.closed = { r with
          stats := r.stats.join ⟨0, 1, 0, 0⟩
          trace := r.trace.push (.left scope scopes.length)
          scopes := scopes } := by
        simp [closed, current, hscopes]
      rw [hclosed, bind_eq_ok]
      constructor
      · rintro ⟨n, hn, hr⟩
        obtain ⟨hlt, rfl⟩ := succ_ok_iff.mp hn
        obtain rfl := Except.ok.inj hr
        exact ⟨List.cons_ne_nil _ _, hlt, by simp [note, Stats.join]⟩
      · rintro ⟨-, hlt, rfl⟩
        exact ⟨_, succ_ok_iff.mpr ⟨hlt, rfl⟩, by simp [note, Stats.join, pure, Except.pure]⟩

theorem finish_ok_iff : r.finish = .ok r' ↔ r.scopes = [] ∧ r' = r := by
  unfold finish
  by_cases hscopes : r.scopes = []
  · simp [hscopes, eq_comm]
  · simp [hscopes]

theorem leaveOut_ok_iff {node : NodeRef} {reason : Omission} :
    r.leaveOut node reason = .ok r' ↔
      r.stats.omissions + 1 < Word.bound ∧ r' = r.leftOut node reason := by
  unfold leaveOut
  rw [bind_eq_ok]
  constructor
  · rintro ⟨n, hn, hr⟩
    obtain ⟨hlt, rfl⟩ := succ_ok_iff.mp hn
    obtain rfl := Except.ok.inj hr
    exact ⟨hlt, by simp [leftOut, note, Stats.join]⟩
  · rintro ⟨hlt, rfl⟩
    exact ⟨_, succ_ok_iff.mpr ⟨hlt, rfl⟩, by simp [leftOut, note, Stats.join, pure, Except.pure]⟩

/-! ### What a run of a recorder leaves -/

@[simp] theorem size_declared (r : Recorder) (d : Draft) :
    (r.declared d).table.size = r.table.size + 1 := by
  simp [declared]

/-- A new symbol that is opened owns what is declared next. -/
theorem owns_entered (r : Recorder) {d : Draft} (h : d.data.kind.isScope = true) :
    ((r.declared d).entered r.table.size).table.Owns
      ((r.declared d).entered r.table.size).current :=
  SymbolTable.owns_extend_size _ h

theorem after_leaf (r : Recorder) (site : Site) (d : Draft) :
    r.after [.leaf site d] = r.declared d := by
  have himports : (Entry.imports (entriesAll r.current r.table.size [.leaf site d])).toArray
      = (Import.ofData? d.data r.table.size).toArray := by
    simp only [entriesAll, entries, Entry.imports, List.append_nil, List.filterMap_cons]
    cases Import.ofData? d.data r.table.size <;> rfl
  unfold after
  rw [himports]
  simp [declared, tops, top, entriesAll, entries, tallyAll, tally, eventsAll, events,
    Entry.symbol, Symbol.adopt_nil, Stats.join_zero]

theorem after_omitted (r : Recorder) (site : Site) (reason : Omission) :
    r.after [.omitted site reason] = r.leftOut site.1.ref reason := by
  simp [after, leftOut, tops, top, entriesAll, entries, tallyAll, tally, eventsAll, events,
    SymbolTable.extend_nil, Stats.join_zero, Entry.imports]

/-- **A symbol that owns others is put on the stack, what is inside is recorded below it, and it is
taken off the stack again.** -/
theorem after_scope (r : Recorder) (site : Site) (d : Draft) (inside : List Located) :
    (((r.declared d).entered r.table.size).after inside).closed
      = r.after [.scope site d inside] := by
  have hsize : ((r.declared d).entered r.table.size).table.size = r.table.size + 1 :=
    size_declared r d
  have hcurrent : ((r.declared d).entered r.table.size).current = r.table.size := rfl
  have hscopes : ((r.declared d).entered r.table.size).scopes = r.table.size :: r.scopes := rfl
  have hstats : ((r.stats.join ⟨1, 0, r.scopes.length + 1, 0⟩).join
      (tallyAll (r.scopes.length + 1) inside)).join ⟨0, 1, 0, 0⟩
      = r.stats.join (Stats.join ⟨1, 1, r.scopes.length + 1, 0⟩
          (tallyAll (r.scopes.length + 1) inside)) := by
    simp only [Stats.join, Stats.mk.injEq]
    omega
  have himports : (Import.ofData? d.data r.table.size).toArray
      ++ (Entry.imports (entriesAll r.table.size (r.table.size + 1) inside)).toArray
      = (Entry.imports (entries r.current r.table.size (.scope site d inside))).toArray := by
    simp only [entries, Entry.imports, List.filterMap_cons]
    cases Import.ofData? d.data r.table.size <;> simp
  unfold closed
  rw [current_after, hcurrent]
  unfold after
  rw [hsize, hcurrent, hscopes]
  simp only [entered, declared, SymbolTable.extend_extend_last, List.length_cons, hstats,
    Array.append_assoc, himports]
  simp [tops, top, entriesAll, entries, tallyAll, tally, eventsAll, events, Entry.symbol,
    Stats.join_zero]

mutual

theorem record_ok_iff {r r' : Recorder} (hown : r.table.Owns r.current) (hfits : r.stats.Fits) :
    ∀ f : Located, f.WellScoped → (r.record f.finding = .ok r' ↔
      (∀ e ∈ f.entries r.current r.table.size, e.draft.fits = true) ∧
        (r.stats.join (f.tally r.scopes.length)).Fits ∧ r' = r.after [f])
  | .leaf site d, _ => by
    rw [after_leaf, Located.finding, record, bind_eq_ok]
    constructor
    · rintro ⟨p, hp, hr⟩
      obtain ⟨hd, rfl⟩ := (declare_ok_iff hown).mp hp
      obtain rfl := Except.ok.inj hr
      exact ⟨by simpa [entries] using hd, by simpa [tally, Stats.join_zero] using hfits, rfl⟩
    · rintro ⟨hd, -, rfl⟩
      exact ⟨_, (declare_ok_iff hown).mpr ⟨by simpa [entries] using hd, rfl⟩, rfl⟩
  | .omitted site reason, _ => by
    rw [after_omitted, Located.finding, record, leaveOut_ok_iff]
    obtain ⟨ho, hc, -⟩ := hfits
    constructor
    · rintro ⟨hlt, rfl⟩
      exact ⟨by simp [entries], ⟨ho, hc, hlt⟩, rfl⟩
    · rintro ⟨-, hlt, rfl⟩
      exact ⟨hlt.omissions, rfl⟩
  | .scope site d inside, ⟨hscope, hinside⟩ => by
    have hopened := owns_entered r hscope
    have hsize : ((r.declared d).entered r.table.size).table.size = r.table.size + 1 :=
      size_declared r d
    have hcurrent : ((r.declared d).entered r.table.size).current = r.table.size := rfl
    have hdepth : ((r.declared d).entered r.table.size).scopes.length = r.scopes.length + 1 := rfl
    rw [← after_scope, Located.finding, record, bind_eq_ok]
    constructor
    · rintro ⟨p, hp, h⟩
      obtain ⟨hd, rfl⟩ := (declare_ok_iff hown).mp hp
      obtain ⟨r₂, henter, h⟩ := bind_eq_ok.mp h
      obtain ⟨hlt, rfl⟩ := enter_ok_iff.mp henter
      obtain ⟨r₃, hrest, hleave⟩ := bind_eq_ok.mp h
      have hentered : ((r.declared d).entered r.table.size).stats.Fits :=
        ⟨hlt, hfits.closed, hfits.omissions⟩
      obtain ⟨hall, hjoin, rfl⟩ := (recordAll_ok_iff hopened hentered inside hinside).mp hrest
      obtain ⟨-, hclosed, rfl⟩ := leave_ok_iff.mp hleave
      rw [hsize, hcurrent] at hall
      refine ⟨?_, ?_, rfl⟩
      · intro e he
        rcases List.mem_cons.mp he with rfl | he
        · exact hd
        · exact hall e he
      · obtain ⟨ho, -, hm⟩ := hjoin
        rw [hdepth] at ho hm
        simp only [after, hdepth] at hclosed
        simp only [entered, declared, Stats.join] at ho hclosed hm
        simp only [tally, Stats.join]
        exact ⟨by simp only; omega, by simp only; omega, by simp only; omega⟩
    · rintro ⟨hall, ⟨ho, hc, hm⟩, rfl⟩
      simp only [tally, Stats.join] at ho hc hm
      have hentered : ((r.declared d).entered r.table.size).stats.Fits := by
        simp only [entered, declared, Stats.join]
        exact ⟨by simp only; omega, hfits.closed, hfits.omissions⟩
      have hrest : ((r.declared d).entered r.table.size).recordAll (findings inside) = .ok _ :=
        (recordAll_ok_iff hopened hentered inside hinside).mpr
          ⟨fun e he => hall e (List.mem_cons_of_mem _ (by rwa [hsize, hcurrent] at he)), by
            rw [hdepth]
            simp only [entered, declared, Stats.join]
            exact ⟨by simp only; omega, by simp only; omega, by simp only; omega⟩, rfl⟩
      refine ⟨_, (declare_ok_iff hown).mpr ⟨hall _ List.mem_cons_self, rfl⟩, ?_⟩
      refine bind_eq_ok.mpr ⟨_, enter_ok_iff.mpr ⟨?_, rfl⟩, bind_eq_ok.mpr ⟨_, hrest, ?_⟩⟩
      · simp only [declared]
        omega
      · refine leave_ok_iff.mpr ⟨List.cons_ne_nil _ _, ?_, rfl⟩
        simp only [after, hdepth]
        simp only [entered, declared, Stats.join]
        omega

/-- **Recording succeeds if the lines of the drafts and the counters fit, and the outcome is the
closed form.** -/
theorem recordAll_ok_iff {r r' : Recorder} (hown : r.table.Owns r.current)
    (hfits : r.stats.Fits) :
    ∀ fs : List Located, WellScopedAll fs → (r.recordAll (findings fs) = .ok r' ↔
      (∀ e ∈ entriesAll r.current r.table.size fs, e.draft.fits = true) ∧
        (r.stats.join (tallyAll r.scopes.length fs)).Fits ∧ r' = r.after fs)
  | [], _ => by
    rw [after_nil, findings, recordAll, tallyAll, Stats.join_zero, entriesAll]
    constructor
    · intro h
      exact ⟨by simp, hfits, (Except.ok.inj h).symm⟩
    · rintro ⟨-, -, rfl⟩
      rfl
  | f :: fs, ⟨hf, hfs⟩ => by
    have hown' : (r.after [f]).table.Owns (r.after [f]).current := hown.extend _ _
    have hsize : (r.after [f]).table.size = r.table.size + f.symbolCount := by
      simp [symbolCountAll]
    have hstats : (r.after [f]).stats = r.stats.join (f.tally r.scopes.length) := by
      simp [after, tallyAll, Stats.join_zero]
    rw [← after_cons hown, findings, recordAll, bind_eq_ok, tallyAll, ← Stats.join_assoc, entriesAll]
    constructor
    · rintro ⟨r₁, hr₁, hrest⟩
      obtain ⟨hall, hjoin, rfl⟩ := (record_ok_iff hown hfits f hf).mp hr₁
      obtain ⟨hall', hjoin', rfl⟩ :=
        (recordAll_ok_iff hown' (by rwa [hstats]) fs hfs).mp hrest
      rw [hstats] at hjoin'
      rw [hsize] at hall'
      refine ⟨?_, hjoin', rfl⟩
      intro e he
      rcases List.mem_append.mp he with he | he
      · exact hall e he
      · exact hall' e he
    · rintro ⟨hall, hjoin, rfl⟩
      have hjoin' := hjoin.of_join
      refine ⟨_, (record_ok_iff hown hfits f hf).mpr ⟨?_, hjoin', rfl⟩, ?_⟩
      · exact fun e he => hall e (List.mem_append_left _ he)
      · refine (recordAll_ok_iff hown' (by rwa [hstats]) fs hfs).mpr ⟨?_, by rwa [hstats], rfl⟩
        rw [hsize]
        exact fun e he => hall e (List.mem_append_right _ he)

end

/-! ### What can go wrong -/

theorem onlyOverflows_succ (n : Nat) : OnlyOverflows (Word.succ n) := (OnlyOverflows.ok _).ite

theorem onlyOverflows_declare (h : r.table.Owns r.current) (d : Draft) :
    OnlyOverflows (r.declare d) := by
  refine OnlyOverflows.ite ?_
  rw [create_ok h d]
  exact .ok _

theorem onlyOverflows_enter (r : Recorder) (scope : SymbolId) : OnlyOverflows (r.enter scope) :=
  (onlyOverflows_succ _).bind fun _ _ => .ok _

/-- Closing the symbol opened last fails at nothing but the counter. -/
theorem onlyOverflows_leave (h : r.scopes ≠ []) : OnlyOverflows r.leave := by
  unfold leave
  cases hscopes : r.scopes with
  | nil => exact absurd hscopes h
  | cons scope scopes => exact (onlyOverflows_succ _).bind fun _ _ => .ok _

mutual

theorem onlyOverflows_record {r : Recorder} (hown : r.table.Owns r.current) (hfits : r.stats.Fits) :
    ∀ f : Located, f.WellScoped → OnlyOverflows (r.record f.finding)
  | .leaf site d, _ => by
    rw [Located.finding, record]
    exact (onlyOverflows_declare hown d).bind fun _ _ => .ok _
  | .omitted site reason, _ => by
    rw [Located.finding, record]
    exact (onlyOverflows_succ _).bind fun _ _ => .ok _
  | .scope site d inside, ⟨hscope, hinside⟩ => by
    rw [Located.finding, record]
    refine (onlyOverflows_declare hown d).bind ?_
    intro p hp
    obtain ⟨-, rfl⟩ := (declare_ok_iff hown).mp hp
    refine (onlyOverflows_enter _ _).bind ?_
    intro r₂ henter
    obtain ⟨hlt, rfl⟩ := enter_ok_iff.mp henter
    have hopened := owns_entered r hscope
    have hentered : ((r.declared d).entered r.table.size).stats.Fits :=
      ⟨hlt, hfits.closed, hfits.omissions⟩
    refine (onlyOverflows_recordAll hopened hentered inside hinside).bind ?_
    intro r₃ hrest
    -- What is recorded inside leaves the stack as it was, so the symbol is still on top of it.
    obtain ⟨-, -, rfl⟩ := (recordAll_ok_iff hopened hentered inside hinside).mp hrest
    exact onlyOverflows_leave (List.cons_ne_nil _ _)

/-- **Recording fails only where a number leaves its word.**  There is always a symbol that owns what
is declared, and one that can be closed. -/
theorem onlyOverflows_recordAll {r : Recorder} (hown : r.table.Owns r.current)
    (hfits : r.stats.Fits) :
    ∀ fs : List Located, WellScopedAll fs → OnlyOverflows (r.recordAll (findings fs))
  | [], _ => by
    rw [findings, recordAll]
    exact .ok r
  | f :: fs, ⟨hf, hfs⟩ => by
    rw [findings, recordAll]
    refine (onlyOverflows_record hown hfits f hf).bind ?_
    intro r₁ hr₁
    obtain ⟨-, hjoin, rfl⟩ := (record_ok_iff hown hfits f hf).mp hr₁
    have hown' : (r.after [f]).table.Owns (r.after [f]).current := hown.extend _ _
    have hstats : (r.after [f]).stats.Fits := by
      simpa [after, tallyAll, Stats.join_zero] using hjoin
    exact onlyOverflows_recordAll hown' hstats fs hfs

end

end Recorder

end LpcSymbols
