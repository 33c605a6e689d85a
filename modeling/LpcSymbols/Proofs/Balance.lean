/-
Scopes are opened and closed in pairs.

The trace tells which scopes are opened and closed, and how many are open then.  A stack
is enough to check what it tells: a scope that is opened goes on the stack, and one that
is closed has to be on top of it.  `replay` runs through a trace in this way, and it comes
to an end only if every event fits the stack.

The numbers of the statistics are tied to the finished table.  The recorder has a stack of
its own, but what it records is known from the findings alone, and there only the depth is
left of it; that the depth is the number of owners of the scope that is open is shown
together with the rest, as `Recounts`.  What one finding adds to it does not depend on
what comes before or after, so it is put together along the findings.
-/
import LpcSymbols.Proofs.Preorder
import LpcSymbols.Proofs.Scoping

namespace LpcSymbols

namespace TraceEvent

/-- The open scopes after an event, the latest on top, if the event fits the scopes that are open:
the depth is their number, and what is closed is the latest of them. -/
def next? (stack : List SymbolId) : TraceEvent → Option (List SymbolId)
  | .entered scope depth => if depth = stack.length + 1 then some (scope :: stack) else none
  | .left scope depth =>
    match stack with
    | [] => none
    | top :: rest => if scope = top ∧ depth = rest.length then some rest else none
  | _ => some stack

/-- The open scopes after a row of events. -/
def replay (stack : List SymbolId) : List TraceEvent → Option (List SymbolId)
  | [] => some stack
  | event :: rest => (event.next? stack).bind (replay · rest)

/-- The scope that is opened. -/
def entered? : TraceEvent → Option SymbolId
  | .entered scope _ => some scope
  | _ => none

/-- The scope that is closed. -/
def left? : TraceEvent → Option SymbolId
  | .left scope _ => some scope
  | _ => none

theorem replay_append (stack : List SymbolId) (xs ys : List TraceEvent) :
    replay stack (xs ++ ys) = (replay stack xs).bind (replay · ys) := by
  induction xs generalizing stack with
  | nil => rfl
  | cons x xs ih =>
      rw [List.cons_append, replay, replay]
      cases x.next? stack with
      | none => rfl
      | some stack => exact ih stack

end TraceEvent

open TraceEvent

/-- The scopes among symbols. -/
def Symbol.scopesOf (symbols : List Symbol) : List Symbol := symbols.filter (·.isScope)

open LpcSymbols.Symbol

theorem Symbol.scopesOf_append (xs ys : List Symbol) :
    scopesOf (xs ++ ys) = scopesOf xs ++ scopesOf ys :=
  List.filter_append ..

/-- No scope among the symbols is deeper than `depth`, and one is as deep.  The depth of a scope is
the number of its owners, and one for the scope itself. -/
structure Deepest (table : SymbolTable) (symbols : List Symbol) (depth : Nat) : Prop where
  bound : ∀ s ∈ scopesOf symbols, 1 + (table.ancestors s.id).length ≤ depth
  attained : depth = 0 ∨ ∃ s ∈ scopesOf symbols, 1 + (table.ancestors s.id).length = depth

namespace Deepest

variable {table : SymbolTable}

theorem nil {symbols : List Symbol} (h : scopesOf symbols = []) : Deepest table symbols 0 := by
  refine ⟨?_, Or.inl rfl⟩
  intro s hs
  rw [h] at hs
  exact absurd hs List.not_mem_nil

theorem single {s : Symbol} {depth : Nat} (hs : s.isScope = true)
    (hdepth : (table.ancestors s.id).length = depth) : Deepest table [s] (depth + 1) := by
  have hscopes : scopesOf [s] = [s] := List.filter_cons_of_pos hs
  have hown : 1 + (table.ancestors s.id).length = depth + 1 := by rw [hdepth, Nat.add_comm]
  refine ⟨?_, Or.inr ⟨s, by rw [hscopes]; exact List.mem_cons_self, hown⟩⟩
  intro x hx
  rw [hscopes] at hx
  rw [List.mem_singleton.mp hx]
  exact Nat.le_of_eq hown

theorem append {xs ys : List Symbol} {a b : Nat} (hx : Deepest table xs a)
    (hy : Deepest table ys b) : Deepest table (xs ++ ys) (max a b) := by
  constructor
  · intro s hs
    rw [scopesOf_append] at hs
    rcases List.mem_append.mp hs with hs | hs
    · exact Nat.le_trans (hx.bound s hs) (Nat.le_max_left ..)
    · exact Nat.le_trans (hy.bound s hs) (Nat.le_max_right ..)
  · rw [scopesOf_append]
    rcases Nat.le_total a b with hle | hle
    · rw [Nat.max_eq_right hle]
      rcases hy.attained with hzero | ⟨s, hs, heq⟩
      · exact Or.inl hzero
      · exact Or.inr ⟨s, List.mem_append_right _ hs, heq⟩
    · rw [Nat.max_eq_left hle]
      rcases hx.attained with hzero | ⟨s, hs, heq⟩
      · exact Or.inl hzero
      · exact Or.inr ⟨s, List.mem_append_left _ hs, heq⟩

end Deepest

/-- What the trace and the statistics say of symbols that are recorded while a stack of scopes is
open. -/
structure Recounts (table : SymbolTable) (stack : List SymbolId) (symbols : List Symbol)
    (events : List TraceEvent) (stats : Stats) : Prop where
  /-- The events fit, and in the end the same scopes are open. -/
  replay : replay stack events = some stack
  entered : events.filterMap entered? = (scopesOf symbols).map (·.id)
  left : (events.filterMap left?).Perm ((scopesOf symbols).map (·.id))
  opened : stats.opened = (scopesOf symbols).length
  closed : stats.closed = (scopesOf symbols).length
  deepest : Deepest table symbols stats.maxDepth

namespace Recounts

variable {table : SymbolTable} {stack : List SymbolId}

/-- An event that opens and closes nothing. -/
theorem silent {event : TraceEvent} {stats : Stats} (hentered : event.entered? = none)
    (hleft : event.left? = none) (hopened : stats.opened = 0) (hclosed : stats.closed = 0)
    (hdepth : stats.maxDepth = 0) : Recounts table stack [] [event] stats where
  replay := by
    cases event with
    | entered scope depth => simp [entered?] at hentered
    | left scope depth => simp [left?] at hleft
    | began file => rfl
    | omitted node reason => rfl
    | ended symbols imports omissions maxDepth => rfl
  entered := by
    rw [List.filterMap_cons_none hentered]
    rfl
  left := by
    rw [List.filterMap_cons_none hleft]
    exact List.Perm.refl _
  opened := hopened
  closed := hclosed
  deepest := by
    rw [hdepth]
    exact .nil rfl

/-- No event tells of symbols that are no scopes. -/
theorem quiet {symbols : List Symbol} (h : scopesOf symbols = []) :
    Recounts table stack symbols [] {} where
  replay := rfl
  entered := by
    rw [h]
    rfl
  left := by
    rw [h]
    exact List.Perm.refl _
  opened := by
    rw [h]
    rfl
  closed := by
    rw [h]
    rfl
  deepest := .nil h

theorem append {xs ys : List Symbol} {es fs : List TraceEvent} {a b : Stats}
    (hx : Recounts table stack xs es a) (hy : Recounts table stack ys fs b) :
    Recounts table stack (xs ++ ys) (es ++ fs) (a.join b) where
  replay := by
    rw [replay_append, hx.replay]
    exact hy.replay
  entered := by
    rw [List.filterMap_append, hx.entered, hy.entered, scopesOf_append, List.map_append]
  left := by
    rw [List.filterMap_append, scopesOf_append, List.map_append]
    exact hx.left.append hy.left
  opened := by
    rw [scopesOf_append, List.length_append, ← hx.opened, ← hy.opened]
    rfl
  closed := by
    rw [scopesOf_append, List.length_append, ← hx.closed, ← hy.closed]
    rfl
  deepest := hx.deepest.append hy.deepest

/-- What is inside a scope is recorded while the scope is open. -/
theorem scope {s : Symbol} {inside : List Symbol} {events : List TraceEvent} {stats : Stats}
    (hs : s.isScope = true) (hdepth : (table.ancestors s.id).length = stack.length)
    (h : Recounts table (s.id :: stack) inside events stats) :
    Recounts table stack (s :: inside)
      (.entered s.id (stack.length + 1) :: (events ++ [.left s.id stack.length]))
      (Stats.join ⟨1, 1, stack.length + 1, 0⟩ stats) := by
  have hscopes : scopesOf (s :: inside) = s :: scopesOf inside := List.filter_cons_of_pos hs
  refine ⟨?_, ?_, ?_, ?_, ?_, (Deepest.single hs hdepth).append h.deepest⟩
  · rw [TraceEvent.replay, next?, if_pos rfl, Option.bind_some, replay_append, h.replay,
      Option.bind_some, TraceEvent.replay, next?, if_pos ⟨rfl, rfl⟩]
    rfl
  · have hevents : (TraceEvent.entered s.id (stack.length + 1) ::
        (events ++ [.left s.id stack.length])).filterMap entered?
          = s.id :: events.filterMap entered? := by
      simp [entered?]
    rw [hevents, h.entered, hscopes, List.map_cons]
  · have hevents : (TraceEvent.entered s.id (stack.length + 1) ::
        (events ++ [.left s.id stack.length])).filterMap left? = events.filterMap left? ++ [s.id] :=
      List.filterMap_append
    rw [hevents, hscopes, List.map_cons]
    exact (List.perm_append_singleton s.id _).trans (h.left.cons s.id)
  · rw [hscopes, List.length_cons, ← h.opened]
    exact Nat.add_comm 1 _
  · rw [hscopes, List.length_cons, ← h.closed]
    exact Nat.add_comm 1 _

end Recounts

theorem SymbolTable.WellFormed.length_ancestors_of_parent {t : SymbolTable} (h : t.WellFormed)
    {i p : SymbolId} (hp : t.parent? i = some p) :
    (t.ancestors i).length = (t.ancestors p).length + 1 := by
  obtain ⟨-, s, hs, -⟩ := h.parent_spec hp
  rw [h.ancestors_of_parent hp hs, List.length_cons]

namespace Located

variable {table : SymbolTable}

mutual

theorem recounts_events (hwf : table.WellFormed) (parent next : SymbolId) (stack : List SymbolId)
    (hstack : (table.ancestors parent).length + 1 = stack.length) : ∀ f : Located, f.WellScoped →
    (∀ e ∈ f.entries parent next, table.Holds e) →
      Recounts table stack ((f.entries parent next).map Entry.symbol) (f.events stack.length next)
        (f.tally stack.length)
  | .leaf site draft, hleaf, _ => by
    have hscope : (Entry.symbol ⟨site, draft, next, parent, []⟩).isScope = false := by
      rw [SourceTree.isScope_symbol]
      exact hleaf
    apply Recounts.quiet
    exact List.filter_cons_of_neg (by rw [hscope]; decide)
  | .scope site draft inside, ⟨hscope, hinside⟩, hholds => by
    have hparent := (hholds _ List.mem_cons_self).parent
    have hdepth : (table.ancestors next).length = stack.length := by
      rw [← hstack, hwf.length_ancestors_of_parent hparent]
    have hsymbol : (Entry.symbol ⟨site, draft, next, parent, tops (next + 1) inside⟩).isScope
        = true := by
      rw [SourceTree.isScope_symbol]
      exact hscope
    have hrest := recounts_eventsAll hwf next (next + 1) (next :: stack)
      (congrArg (· + 1) hdepth) inside hinside (fun e he => hholds e (List.mem_cons_of_mem _ he))
    exact Recounts.scope hsymbol hdepth hrest
  | .omitted _ _, _, _ => Recounts.silent rfl rfl rfl rfl rfl

/-- **The trace and the statistics of a row of findings recount its scopes.** -/
theorem recounts_eventsAll (hwf : table.WellFormed) (parent next : SymbolId) (stack : List SymbolId)
    (hstack : (table.ancestors parent).length + 1 = stack.length) :
    ∀ fs : List Located, WellScopedAll fs →
      (∀ e ∈ entriesAll parent next fs, table.Holds e) →
      Recounts table stack ((entriesAll parent next fs).map Entry.symbol)
        (eventsAll stack.length next fs) (tallyAll stack.length fs)
  | [], _, _ => Recounts.quiet rfl
  | f :: fs, ⟨hf, hfs⟩, hholds => by
    rw [entriesAll] at hholds ⊢
    rw [List.map_append, eventsAll, tallyAll]
    have hhead := recounts_events hwf parent next stack hstack f hf
      (fun e he => hholds e (List.mem_append_left _ he))
    have hrest := recounts_eventsAll hwf parent (next + f.symbolCount) stack hstack fs hfs
      (fun e he => hholds e (List.mem_append_right _ he))
    exact hhead.append hrest

end

end Located

/-! ### The whole trace -/

namespace SourceTree

theorem recounts_trace {t : SourceTree} (hwf : t.model.table.WellFormed) :
    Recounts t.model.table [] t.model.table.toList t.trace t.stats := by
  have htop : t.model.table.ancestors SymbolId.root = [] := SymbolTable.ancestors_of_none hwf.root
  have hinside := Located.recounts_eventsAll hwf SymbolId.root 1 [SymbolId.root]
    (by rw [htop]; rfl) (t.located t.layout) (t.kept_located (Located.kept_wellScoped t.layout))
    (fun e he => holds_entry he)
  have hfile : Recounts t.model.table [] t.model.table.toList
      (.entered SymbolId.root 1 :: (Located.eventsAll 1 1 (t.located t.layout) ++
        [.left SymbolId.root 0])) t.stats :=
    Recounts.scope (s := t.fileSymbol) rfl (congrArg List.length htop) hinside
  have hbegan : Recounts t.model.table [] [] [.began t.file] {} := .silent rfl rfl rfl rfl rfl
  have hended : Recounts t.model.table [] [] [.ended t.model.table.size t.model.imports.length
      t.stats.omissions t.stats.maxDepth] {} := .silent rfl rfl rfl rfl rfl
  have hstats : (Stats.join {} t.stats).join {} = t.stats := by simp [Stats.join]
  have htrace : t.trace = [.began t.file] ++ (.entered SymbolId.root 1 ::
      (Located.eventsAll 1 1 (t.located t.layout) ++ [.left SymbolId.root 0])) ++
        [.ended t.model.table.size t.model.imports.length t.stats.omissions t.stats.maxDepth] := by
    simp [trace]
  have h := (hbegan.append hfile).append hended
  rw [List.append_nil, hstats, ← htrace] at h
  exact h

end SourceTree

/-- The scopes of a table, in the order of their numbers. -/
def SymbolTable.scopes (t : SymbolTable) : List Symbol := scopesOf t.toList

/-- Symbols are listed in the order of their numbers. -/
theorem SymbolTable.WellFormed.ids_eq_range {t : SymbolTable} (h : t.WellFormed) :
    t.toList.map (·.id) = List.range t.size := by
  apply List.ext_getElem?
  intro i
  rw [List.getElem?_map, ← t.get?_eq_toList]
  by_cases hi : i < t.size
  · obtain ⟨s, hs⟩ := lt_size_iff.mp hi
    rw [hs, List.getElem?_range hi, ← h.numbered i s hs]
    rfl
  · have hnone : t.get? i = none := Array.getElem?_eq_none (Nat.not_lt.mp hi)
    rw [hnone, List.getElem?_eq_none (by rw [List.length_range]; exact Nat.not_lt.mp hi)]
    rfl

theorem SymbolTable.WellFormed.filter_ascending {t : SymbolTable} (h : t.WellFormed)
    (p : Symbol → Bool) : ((t.toList.filter p).map (·.id)).Pairwise (· < ·) := by
  have hsub : ((t.toList.filter p).map (·.id)).Sublist (List.range t.size) := by
    rw [← h.ids_eq_range]
    exact List.filter_sublist.map _
  exact List.pairwise_lt_range.sublist hsub

theorem SymbolTable.WellFormed.scopes_ascending {t : SymbolTable} (h : t.WellFormed) :
    (t.scopes.map (·.id)).Pairwise (· < ·) :=
  h.filter_ascending Symbol.isScope

/-- Every scope is opened and closed once, and in pairs. -/
structure Analysis.Balanced (a : Analysis) : Prop where
  /-- Every event fits the scopes that are open, and in the end none is. -/
  bracketed : replay [] a.trace = some []
  /-- The scopes that are opened are those of the table, in the order of their numbers. -/
  entered : a.trace.filterMap entered? = a.model.table.scopes.map (·.id)
  ascending : (a.trace.filterMap entered?).Pairwise (· < ·)
  left : (a.trace.filterMap left?).Perm (a.model.table.scopes.map (·.id))
  opened : a.model.stats.opened = a.model.table.scopes.length
  closed : a.model.stats.closed = a.model.table.scopes.length
  /-- No scope has more owners than the greatest depth allows, and one has as many. -/
  bound : ∀ s ∈ a.model.table.scopes,
    1 + (a.model.table.ancestors s.id).length ≤ a.model.stats.maxDepth
  attained : ∃ s ∈ a.model.table.scopes,
    1 + (a.model.table.ancestors s.id).length = a.model.stats.maxDepth

/-- **Scopes are opened and closed in pairs.** -/
theorem Analysis.scopes_balanced (t : SourceTree) :
    (t.InBounds → ∃ a, Analysis.ofTree t = .ok a) ∧
      ∀ a, Analysis.ofTree t = .ok a → a.Balanced := by
  refine ⟨fun h => ⟨_, Analysis.ofTree_of_inBounds h⟩, ?_⟩
  intro a ha
  have hwf := wellFormed_table ha
  obtain ⟨-, rfl⟩ := Analysis.ofTree_ok_iff.mp ha
  have h := SourceTree.recounts_trace hwf
  refine ⟨h.replay, h.entered, ?_, h.left, h.opened, h.closed, h.deepest.bound, ?_⟩
  · show (t.trace.filterMap entered?).Pairwise (· < ·)
    rw [h.entered]
    exact hwf.scopes_ascending
  · rcases h.deepest.attained with hzero | hs
    · have hle : 1 ≤ t.stats.maxDepth := Nat.le_max_left ..
      rw [hzero] at hle
      exact absurd hle (Nat.not_succ_le_zero _)
    · exact hs

theorem Analysis.scopes_balanced_siblings :
    SourceTree.siblings.InBounds ∧ ∃ a, Analysis.ofTree .siblings = .ok a ∧ a.Balanced ∧
      a.trace.filterMap entered? = [0, 1, 3, 4] ∧ a.trace.filterMap left? = [1, 4, 3, 0] ∧
        a.model.stats.maxDepth = 3 := by
  have hbounds : SourceTree.siblings.InBounds := ⟨by decide +kernel, by decide +kernel⟩
  have htrace : ((Analysis.ofTree .siblings).toOption.map fun a =>
      (a.trace.filterMap entered?, a.trace.filterMap left?, a.model.stats.maxDepth))
        = some ([0, 1, 3, 4], [1, 4, 3, 0], 3) := by decide +kernel
  obtain ⟨hok, hbalanced⟩ := scopes_balanced .siblings
  obtain ⟨a, ha⟩ := hok hbounds
  rw [ha] at htrace
  obtain ⟨hentered, hrest⟩ := Prod.mk.inj (Option.some.inj htrace)
  obtain ⟨hleft, hdepth⟩ := Prod.mk.inj hrest
  exact ⟨hbounds, a, ha, hbalanced a ha, hentered, hleft, hdepth⟩

end LpcSymbols
