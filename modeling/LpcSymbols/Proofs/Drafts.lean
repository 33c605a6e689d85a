/-
What a draft says, construct by construct.

A reading that gives a draft has found every part that its construct asks for, and the
parts have gone into the draft.  `Site.Reads` lists the constructs with their parts and
their drafts, and `reads_of_reading?` says that the list is complete.  What holds of every
draft is a case analysis over it, and no later proof has to open the readings again.
-/
import LpcSymbols.Proofs.Outcome

namespace LpcSymbols

namespace Draft

variable {l : Layout} {n : Node} {d : Draft}

theorem eq_of_span {mk : Span → Draft} (h : (do let s ← spanOf l n; return mk s) = .ok d) :
    ∃ s, l.span? n = some s ∧ d = mk s := by
  cases hs : l.span? n with
  | none => simp [spanOf_none hs, bind, Except.bind] at h
  | some s =>
      rw [spanOf_some hs] at h
      exact ⟨s, rfl, (Except.ok.inj h).symm⟩

theorem eq_of_part {α : Type} {part : String} {o : Option α} {mk : α → Span → Draft}
    (h : (do let a ← require n part o; let s ← spanOf l n; return mk a s) = .ok d) :
    ∃ a s, o = some a ∧ l.span? n = some s ∧ d = mk a s := by
  cases o with
  | none => simp [bind, Except.bind] at h
  | some a =>
      obtain ⟨s, hspan, hd⟩ := eq_of_span h
      exact ⟨a, s, rfl, hspan, hd⟩

end Draft

/-- The draft that is read at a site after `count` clauses, from these parts. -/
inductive Site.Reads (l : Layout) (count : Nat) : Site → Draft → Prop
  | define {n : Node} {around : List Node} {head : String} {span : Span}
      (kind : n.kind = .defineDirective) (part : n.defineHead? = some head)
      (hspan : l.span? n = some span) :
      Reads l count (n, around)
        { name := Draft.label head span, data := .define n.defineBody, node := n.ref, span,
          nameRange := n.defineLine?.bind Node.macroNameRange? }
  | directive {n : Node} {around : List Node} {keyword : Token} {span : Span}
      (kind : n.kind = .selectionDirective) (part : n.directiveKeyword? = some keyword)
      (hspan : l.span? n = some span) :
      Reads l count (n, around)
        { name := Draft.label keyword.text span, data := .preprocessor keyword.text,
          node := n.ref, span }
  | includeFile {n : Node} {around : List Node} {target : Token} {span : Span}
      (kind : n.kind = .includeDirective) (part : n.includeTarget? = some target)
      (hspan : l.span? n = some span) :
      Reads l count (n, around)
        { name := target.text, data := .includeFile target.text, node := n.ref, span,
          nameRange := some target.range }
  | inheritFile {n target : Node} {around : List Node} {text : String} {span : Span}
      (kind : n.kind = .inheritStatement) (part : n.inheritTarget? = some target)
      (htext : target.targetText? = some text) (hspan : l.span? n = some span) :
      Reads l count (n, around)
        { name := text, data := .inheritFile text, node := n.ref, span,
          nameRange := some target.range }
  | function {n : Node} {around : List Node} {ident : Token} {span : Span}
      (kind : n.kind = .functionDecl) (part : n.functionIdent? = some ident)
      (hspan : l.span? n = some span) :
      Reads l count (n, around)
        { name := ident.text, data := .method (.ofSpan span), node := n.ref, span,
          nameRange := some ident.range }
  | parameter {n : Node} {around : List Node} {ident : Token} {span : Span}
      (kind : n.kind = .param) (part : n.nameIdent? = some ident)
      (hspan : l.span? n = some span) :
      Reads l count (n, around)
        { name := ident.text, data := .parameter ((n.type?.map Draft.typeOf).getD .untyped),
          node := n.ref, span, nameRange := some ident.range }
  | declarator {n : Node} {around : List Node} {ident : Token} {type : ValueType} {span : Span}
      (kind : n.kind = .variableDeclarator) (htype : declaredType? around = some type)
      (part : n.nameIdent? = some ident) (hspan : l.span? n = some span) :
      Reads l count (n, around)
        { name := ident.text, data := .variable type, node := n.ref, span,
          nameRange := some ident.range }
  | ifStatement {n : Node} {around : List Node} {span : Span} (kind : n.kind = .ifStatement)
      (hspan : l.span? n = some span) :
      Reads l count (n, around)
        { name := Draft.label "if" span, data := .ifStatement {}, node := n.ref, span }
  | clause {n : Node} {around : List Node} {branch : Branch} {outer span : Span}
      (kind : n.kind.branch? = some branch) (houter : ifSpan? l around = some outer)
      (hspan : l.span? n = some span) :
      Reads l count (n, around)
        { name := branch.label ++ "_" ++ toString outer.start.index ++ "_" ++ toString count,
          data := .selection branch (.ofSpan span), node := n.ref, span }
  | closure {n : Node} {around : List Node} {span : Span} (kind : n.kind = .inlineClosure)
      (hspan : l.span? n = some span) :
      Reads l count (n, around)
        { name := Draft.label "closure" span,
          data := .inlineClosure (Node.closureName? around) n.closureShape? (.ofSpan span),
          node := n.ref, span }
  | primary {n : Node} {around : List Node} {span : Span} (kind : n.kind = .primaryExpr)
      (hspan : l.span? n = some span) :
      Reads l count (n, around)
        { name := Draft.label "expr" span, data := .expression, node := n.ref, span }
  | identifier {n : Node} {around : List Node} {ident : Token} {span : Span}
      (kind : n.kind = .identExpr) (part : n.ident? = some ident)
      (hspan : l.span? n = some span) :
      Reads l count (n, around)
        { name := ident.text, data := .reference (Draft.usage around), node := n.ref, span,
          nameRange := some ident.range }

/-- **Every draft is read from the parts of one of these constructs.** -/
theorem Site.reads_of_reading? {l : Layout} {count : Nat} {s : Site} {d : Draft}
    (h : s.reading? l count = some (.ok d)) : s.Reads l count d := by
  obtain ⟨n, around⟩ := s
  unfold reading? at h
  split at h
  · simp at h
  · split at h
    case h_4 hk =>
      have hd := Option.some.inj h
      unfold Draft.ofInherit at hd
      cases htarget : n.inheritTarget? with
      | none => simp [htarget, bind, Except.bind] at hd
      | some target =>
          rw [htarget, Draft.require_some] at hd
          obtain ⟨text, span, htext, hspan, rfl⟩ := Draft.eq_of_part hd
          exact .inheritFile hk htarget htext hspan
    case h_7 hk =>
      -- A declaration has no symbol of its own, with a type or without.
      split at h
      · simp at h
      · simp at h
    case h_8 hk =>
      obtain ⟨type, htype, hd⟩ := Option.map_eq_some_iff.mp h
      obtain ⟨ident, span, hident, hspan, rfl⟩ := Draft.eq_of_part hd
      exact .declarator hk htype hident hspan
    case h_13 =>
      split at h
      · rename_i branch outer hbranch houter
        obtain ⟨span, hspan, rfl⟩ := Draft.eq_of_span (Option.some.inj h)
        exact .clause hbranch houter hspan
      · simp at h
    all_goals
      rename_i hk
      have hd := Option.some.inj h
    · obtain ⟨head, span, hhead, hspan, rfl⟩ := Draft.eq_of_part hd
      exact .define hk hhead hspan
    · obtain ⟨keyword, span, hkeyword, hspan, rfl⟩ := Draft.eq_of_part hd
      exact .directive hk hkeyword hspan
    · obtain ⟨target, span, htarget, hspan, rfl⟩ := Draft.eq_of_part hd
      exact .includeFile hk htarget hspan
    · obtain ⟨ident, span, hident, hspan, rfl⟩ := Draft.eq_of_part hd
      exact .function hk hident hspan
    · obtain ⟨ident, span, hident, hspan, rfl⟩ := Draft.eq_of_part hd
      exact .parameter hk hident hspan
    · obtain ⟨span, hspan, rfl⟩ := Draft.eq_of_span hd
      exact .ifStatement hk hspan
    · obtain ⟨span, hspan, rfl⟩ := Draft.eq_of_span hd
      exact .closure hk hspan
    · obtain ⟨span, hspan, rfl⟩ := Draft.eq_of_span hd
      exact .primary hk hspan
    · obtain ⟨ident, span, hident, hspan, rfl⟩ := Draft.eq_of_part hd
      exact .identifier hk hident hspan

/-- Adopting symbols does not change what a symbol stands for. -/
theorem Entry.kind_symbol (e : Entry) : e.symbol.kind = e.draft.data.kind :=
  SymbolData.kind_withBranches e.owned e.draft.data

namespace SourceTree

variable {t : SourceTree} {e : Entry}

/-- The draft of an entry is read at its site, after some number of clauses. -/
theorem reading?_of_entry (he : e ∈ t.entries) :
    ∃ count, e.site.reading? t.layout count = some (.ok e.draft) :=
  t.reading?_of_mem (mem_readings_of_entry he)

/-- Every symbol but that of the file is the symbol of an entry. -/
theorem entry_of_kind_ne {id : SymbolId} {s : Symbol} (hs : t.model.table.get? id = some s)
    (hkind : s.kind ≠ .file) : ∃ e ∈ t.entries, e.id = id ∧ e.symbol = s := by
  apply entry_of_get? hs
  intro hid
  have hfile : t.model.table.get? SymbolId.root = some t.fileSymbol := rfl
  rw [hid, hfile] at hs
  obtain rfl := Option.some.inj hs
  exact hkind rfl

theorem reads_of_entry (he : e ∈ t.entries) : ∃ count, e.site.Reads t.layout count e.draft := by
  obtain ⟨count, hread⟩ := reading?_of_entry he
  exact ⟨count, Site.reads_of_reading? hread⟩

end SourceTree

end LpcSymbols
