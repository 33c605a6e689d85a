/-
Reading drafts off nodes.

For each construct that gives a symbol there is one function that reads the draft
of the symbol off the construct's node, or says why it cannot.  A missing part is
reported before a missing span.  Constructs without a name of their own are
labelled with the number of their first token, which tells them apart.
-/
import LpcSymbols.Analysis.Omission
import LpcSymbols.Source.Layout
import LpcSymbols.Symbol.Basic

namespace LpcSymbols.Draft

/-- A part that has to be there. -/
def require {α : Type} (n : Node) (part : String) : Option α → Except Omission α
  | some a => .ok a
  | none => .error (.missingPart n.kind part)

/-- The span of a node, which has to be there. -/
def spanOf (l : Layout) (n : Node) : Except Omission Span :=
  match l.span? n with
  | some s => .ok s
  | none => .error (.noSignificantToken n.kind)

/-- A generated name: what the construct is, and its first token's number. -/
def label (stem : String) (s : Span) : String := stem ++ "_" ++ toString s.start.index

/-- A macro definition. -/
def ofDefine (l : Layout) (n : Node) : Except Omission Draft := do
  let head ← require n "text" n.defineHead?
  let span ← spanOf l n
  return { name := label head span, data := .define n.defineBody, node := n.ref, span,
           nameRange := n.defineLine?.bind Node.macroNameRange? }

/-- A region of conditional compilation. -/
def ofDirective (l : Layout) (n : Node) : Except Omission Draft := do
  let keyword ← require n "keyword" n.directiveKeyword?
  let span ← spanOf l n
  return { name := label keyword.text span, data := .preprocessor keyword.text, node := n.ref, span }

/-- An included file. -/
def ofInclude (l : Layout) (n : Node) : Except Omission Draft := do
  let target ← require n "target" n.includeTarget?
  let span ← spanOf l n
  return { name := target.text, data := .includeFile target.text, node := n.ref, span,
           nameRange := some target.range }

/-- An inherited file.  A target without text is as good as none. -/
def ofInherit (l : Layout) (n : Node) : Except Omission Draft := do
  let target ← require n "target" n.inheritTarget?
  let text ← require n "target" target.targetText?
  let span ← spanOf l n
  return { name := text, data := .inheritFile text, node := n.ref, span,
           nameRange := some target.range }

/-- A function. -/
def ofFunction (l : Layout) (n : Node) : Except Omission Draft := do
  let ident ← require n "name" n.functionIdent?
  let span ← spanOf l n
  return { name := ident.text, data := .method (.ofSpan span), node := n.ref, span,
           nameRange := some ident.range }

/-- The type that a node spells. -/
def typeOf (n : Node) : ValueType := .ofSpelling n.significantText

/-- A parameter, which need not have a type. -/
def ofParameter (l : Layout) (n : Node) : Except Omission Draft := do
  let ident ← require n "name" n.nameIdent?
  let span ← spanOf l n
  return { name := ident.text, data := .parameter ((n.type?.map typeOf).getD .untyped),
           node := n.ref, span, nameRange := some ident.range }

/-- The type that the variables of a declaration share. -/
def declaredType (n : Node) : Except Omission ValueType :=
  (require n "type" n.type?).map typeOf

/-- One variable of a declaration. -/
def ofDeclarator (l : Layout) (type : ValueType) (n : Node) : Except Omission Draft := do
  let ident ← require n "name" n.nameIdent?
  let span ← spanOf l n
  return { name := ident.text, data := .variable type, node := n.ref, span,
           nameRange := some ident.range }

/-- An `if` statement, its branches not yet known. -/
def ofIf (l : Layout) (n : Node) : Except Omission Draft := do
  let span ← spanOf l n
  return { name := label "if" span, data := .ifStatement {}, node := n.ref, span }

/-- A clause of the `if` statement whose first token has number `index`, after `count`
other clauses. -/
def ofClause (l : Layout) (branch : Branch) (index count : Nat) (n : Node) :
    Except Omission Draft := do
  let span ← spanOf l n
  return { name := branch.label ++ "_" ++ toString index ++ "_" ++ toString count,
           data := .selection branch (.ofSpan span), node := n.ref, span }

/-- An inline closure, with the nodes around it. -/
def ofClosure (l : Layout) (around : List Node) (n : Node) : Except Omission Draft := do
  let span ← spanOf l n
  return { name := label "closure" span,
           data := .inlineClosure (Node.closureName? around) n.closureShape? (.ofSpan span),
           node := n.ref, span }

/-- A primary expression. -/
def ofPrimary (l : Layout) (n : Node) : Except Omission Draft := do
  let span ← spanOf l n
  return { name := label "expr" span, data := .expression, node := n.ref, span }

/-- How an identifier is used: as a function if the nearest primary expression around
it calls something. -/
def usage (around : List Node) : Usage :=
  if (Node.nearestPrimary? around).any Node.hasInvocation then .function else .variable

/-- An identifier in an expression, with the nodes around it. -/
def ofIdentifier (l : Layout) (around : List Node) (n : Node) : Except Omission Draft := do
  let ident ← require n "identifier" n.ident?
  let span ← spanOf l n
  return { name := ident.text, data := .reference (usage around), node := n.ref, span,
           nameRange := some ident.range }

end LpcSymbols.Draft
