/-
Trees and their reports.

To report a tree is to start each node before its children, to name each token, and to finish
each node after its children (`Element.events`).  A sketch takes such a report apart again: it
keeps one flat row of elements and a stack of the lengths that this row had, and it cuts the row
at the latest of them when a node is finished.

What carries the argument is that the report of an element is a closed whole.  On whatever row
and stack it begins, it puts the element on the row and leaves the stack as it was
(`run_events`); so the remembered length, at the end of a node, cuts off its children and
nothing else.  Events name kinds and trees hold tags, so this is true of trees whose tags are
tags of kinds, which is all that phrases can be put together to (`Phrase.Built`).
-/
import LpcSymbols.Proofs.Names
import LpcSymbols.Tree.Phrase

namespace LpcSymbols

/-! ### Phrases and their reports -/

/-- An element put together from words and groups, with or without text and children. -/
inductive Phrase.Built : Element → Prop where
  | word (kind : Kind) (text : String) : Built (word kind text)
  | group (kind : Kind) {children : List Element} (h : ∀ e ∈ children, Built e) :
      Built (group kind children)

namespace Element

mutual

/-- The events that report an element. -/
def events : Element → List TreeEvent
  | .token tag text => [.token (.ofTag tag) text]
  | .node tag children => .start (.ofTag tag) :: (eventsAll children ++ [.finish])

/-- The events that report a row of elements. -/
def eventsAll : List Element → List TreeEvent
  | [] => []
  | e :: es => e.events ++ eventsAll es

end

end Element

/-- The events that report a tree, from its root on. -/
def SourceTree.events (t : SourceTree) : List TreeEvent := t.root.events

/-! ### A report is a closed whole -/

namespace TreeSketch

variable {es : List Element}

theorem run_append (s : TreeSketch) (a b : List TreeEvent) :
    s.run (a ++ b) = s.run a >>= fun next => next.run b := by
  induction a generalizing s with
  | nil => rfl
  | cons event rest ih =>
      show (s.step event >>= fun next => next.run (rest ++ b))
        = (s.step event >>= fun next => next.run rest) >>= fun next => next.run b
      cases s.step event with
      | error fault => rfl
      | ok next => exact ih next

/-- A node is finished by what was put on the row since it was started. -/
theorem step_finish (tag : Nat) (inner loose : List Element) (unfinished : List (Nat × Nat)) :
    step ⟨inner ++ loose, (tag, loose.length) :: unfinished⟩ .finish
      = .ok ⟨.node tag inner.reverse :: loose, unfinished⟩ := by
  have hinner : (inner ++ loose).length - loose.length = inner.length := by
    rw [List.length_append]
    omega
  simp only [step, hinner, List.take_left, List.drop_left]

/-- Elements that are put on the row one by one are put on it as a whole. -/
theorem run_eventsAll
    (h : ∀ e ∈ es, ∀ s : TreeSketch, s.run e.events = .ok ⟨e :: s.loose, s.unfinished⟩)
    (s : TreeSketch) :
    s.run (Element.eventsAll es) = .ok ⟨es.reverse ++ s.loose, s.unfinished⟩ := by
  induction es generalizing s with
  | nil => rfl
  | cons e es ih =>
      have hrest : ∀ x ∈ es, ∀ s : TreeSketch, s.run x.events = .ok ⟨x :: s.loose, s.unfinished⟩ :=
        fun x hx => h x (List.mem_cons_of_mem e hx)
      rw [Element.eventsAll, run_append, h e List.mem_cons_self s]
      show run ⟨e :: s.loose, s.unfinished⟩ (Element.eventsAll es) = _
      rw [ih hrest, List.reverse_cons, List.append_assoc]
      rfl

/-- **The report of an element puts that element on the row and changes nothing else.** -/
theorem run_events {e : Element} (hbuilt : Phrase.Built e) (s : TreeSketch) :
    s.run e.events = .ok ⟨e :: s.loose, s.unfinished⟩ := by
  induction hbuilt generalizing s with
  | word kind text =>
      show s.run [.token (.ofTag kind.tag) text] = _
      rw [Kind.ofTag_tag]
      rfl
  | @group kind children _ ih =>
      -- The children are reported to a sketch that remembers the row as it is now.
      have hchildren := run_eventsAll ih ⟨s.loose, (kind.tag, s.loose.length) :: s.unfinished⟩
      have hfinish := step_finish kind.tag children.reverse s.loose s.unfinished
      rw [List.reverse_reverse] at hfinish
      show s.run (.start (.ofTag kind.tag) :: (Element.eventsAll children ++ [.finish])) = _
      rw [Kind.ofTag_tag]
      show run ⟨s.loose, (kind.tag, s.loose.length) :: s.unfinished⟩
        (Element.eventsAll children ++ [.finish]) = _
      rw [run_append, hchildren]
      show (step ⟨children.reverse ++ s.loose, (kind.tag, s.loose.length) :: s.unfinished⟩ .finish
        >>= fun next => next.run []) = _
      rw [hfinish]
      rfl

end TreeSketch

/-! ### The words of a report -/

/-- The token that an event names. -/
def TreeEvent.word? : TreeEvent → Option (Kind × String)
  | .token kind text => some (kind, text)
  | .start _ | .finish => none

/-- What an event tells of a token: where it stands comes from those before it. -/
def Token.word (tok : Token) : Kind × String := (tok.kind, tok.text)

namespace Element

mutual

theorem words_place (start before : Nat) : ∀ e : Element,
    ((e.place start before).leaves.filterMap Leaf.token?).map Token.word
      = e.events.filterMap TreeEvent.word?
  | .token _ _ => rfl
  | .node _ children => by
    rw [place, Placed.tokens_node, events, List.filterMap_cons_none rfl, List.filterMap_append]
    exact (words_placeAll start before children).trans (List.append_nil _).symm

/-- The tokens of a row are those that its report names, in the same order. -/
theorem words_placeAll (start before : Nat) : ∀ es : List Element,
    (Placed.tokensAll (placeAll start before es)).map Token.word
      = (eventsAll es).filterMap TreeEvent.word?
  | [] => rfl
  | e :: es => by
    rw [placeAll, Placed.tokensAll_cons, List.map_append, eventsAll, List.filterMap_append,
      words_place start before e, words_placeAll _ _ es]

end

end Element

namespace SourceTree

theorem words_tokens (t : SourceTree) :
    t.node.tokens.map Token.word = t.events.filterMap TreeEvent.word? := by
  have hroot := Element.words_place 0 0 t.root
  rw [root, Element.place, Placed.tokens_node, ← tokens_node] at hroot
  exact hroot

/-- The tree keeps what the events tell of its text. -/
structure Keeps (t : SourceTree) (events : List TreeEvent) : Prop where
  /-- Its tokens are those that the events name, in the same order. -/
  words : t.node.tokens.map Token.word = events.filterMap TreeEvent.word?
  /-- Its text is what the events name, put together. -/
  text : t.text = String.join ((events.filterMap TreeEvent.word?).map Prod.snd)
  /-- At the range of a token stands the text of that token. -/
  slices : ∀ tok ∈ t.node.tokens, Text.StandsAt t.text tok.range tok.text

theorem keeps_events (t : SourceTree) : t.Keeps t.events where
  words := t.words_tokens
  text := by
    rw [← words_tokens, List.map_map]
    exact t.textAll_tokens.symm
  slices := fun _ htok => standsAt_token htok

/-- **A tree can be rebuilt from its report.**  The events that report a tree, from whatever
words and groups it was put together, give back that tree; its text is made of the words that
they name, and each token stands in it where its range says. -/
theorem ofEvents_events (t : SourceTree) (hbuilt : Phrase.Built t.root) :
    ofEvents t.file t.dialect t.events = .ok t ∧ t.Keeps t.events := by
  refine ⟨?_, t.keeps_events⟩
  have hrun : TreeSketch.run ⟨[], []⟩ t.events = .ok ⟨[t.root], []⟩ :=
    TreeSketch.run_events hbuilt ⟨[], []⟩
  unfold ofEvents TreeEvent.assemble
  rw [hrun]
  rfl

/-- A tree with a childless node, a token without text and a word of two bytes. -/
def hollow : SourceTree :=
  ⟨⟨3⟩, {}, Kind.sourceFile.tag,
    [Phrase.group .block [], Phrase.group .inheritStatement [Phrase.word .ident "",
      Phrase.group .inheritTarget [Phrase.word .stringLit "é"], Phrase.word .semicolon ";"]]⟩

theorem ofEvents_events_hollow :
    Phrase.Built hollow.root ∧
    ofEvents ⟨3⟩ {} [.start .sourceFile, .start .block, .finish, .start .inheritStatement,
      .token .ident "", .start .inheritTarget, .token .stringLit "é", .finish,
      .token .semicolon ";", .finish, .finish] = .ok hollow ∧
    hollow.text = "é;" ∧ Text.StandsAt hollow.text (.ofLength 2 1) ";" := by
  have hnone : ∀ e ∈ ([] : List Element), Phrase.Built e := List.forall_mem_nil _
  have htarget : Phrase.Built (Phrase.group .inheritTarget [Phrase.word .stringLit "é"]) :=
    .group _ (List.forall_mem_cons.mpr ⟨.word _ _, hnone⟩)
  have hinherit : Phrase.Built (Phrase.group .inheritStatement [Phrase.word .ident "",
      Phrase.group .inheritTarget [Phrase.word .stringLit "é"], Phrase.word .semicolon ";"]) :=
    .group _ (List.forall_mem_cons.mpr ⟨.word _ _, List.forall_mem_cons.mpr ⟨htarget,
      List.forall_mem_cons.mpr ⟨.word _ _, hnone⟩⟩⟩)
  have hbuilt : Phrase.Built hollow.root :=
    .group .sourceFile (List.forall_mem_cons.mpr ⟨.group _ hnone,
      List.forall_mem_cons.mpr ⟨hinherit, hnone⟩⟩)
  obtain ⟨hrebuilt, hkeeps⟩ := ofEvents_events hollow hbuilt
  have hsemicolon : (⟨.semicolon, ";", 2⟩ : Token) ∈ hollow.node.tokens := by decide +kernel
  exact ⟨hbuilt, hrebuilt, by decide +kernel, hkeeps.slices _ hsemicolon⟩

end SourceTree

end LpcSymbols
