/-
The outline of a file.

Functions, closures, variables, parameters, macros and imports are entries of the
outline.  Statements, expressions and regions of conditional compilation are not;
what is in them is listed in the entry around them.  References to identifiers are
left out.
-/
import LpcSymbols.Analysis.Model

namespace LpcSymbols

/-- An entry of an outline, with the entries inside it. -/
inductive OutlineEntry where
  | mk (name : String) (kind : SymbolKind) (detail : Option String) (region : Region)
      (inside : List OutlineEntry)
deriving Inhabited

namespace OutlineEntry

/-- Name of the entry. -/
def name : OutlineEntry → String
  | .mk name _ _ _ _ => name

/-- What the entry stands for. -/
def kind : OutlineEntry → SymbolKind
  | .mk _ kind _ _ _ => kind

/-- A type, a macro or another short description. -/
def detail : OutlineEntry → Option String
  | .mk _ _ detail _ _ => detail

/-- Where the entry is. -/
def region : OutlineEntry → Region
  | .mk _ _ _ region _ => region

/-- The entries inside the entry. -/
def inside : OutlineEntry → List OutlineEntry
  | .mk _ _ _ _ inside => inside

mutual

/-- The entry, at a given depth, and all entries inside it, each before those inside
it. -/
def flatten (depth : Nat) : OutlineEntry → List (Nat × OutlineEntry)
  | .mk name kind detail region inside =>
    (depth, .mk name kind detail region inside) :: flattenAll (depth + 1) inside

/-- The entries of a list, and all entries inside them. -/
def flattenAll (depth : Nat) : List OutlineEntry → List (Nat × OutlineEntry)
  | [] => []
  | e :: es => e.flatten depth ++ flattenAll depth es

end

/-- Name and description of a symbol in an outline. -/
def describe (s : Symbol) : String × Option String :=
  match s.data with
  | .define body => (Text.leadingName body, some body)
  | .variable type | .parameter type => (s.name, some type.render)
  | .inlineClosure displayName _ _ => (displayName.getD s.name, some s.name)
  | _ => (s.name, none)

/-- The entry of a symbol. -/
def ofSymbol (lines : LineMap) (s : Symbol) (inside : List OutlineEntry) : OutlineEntry :=
  let (name, detail) := describe s
  .mk name s.kind detail (lines.region s.range) inside

end OutlineEntry

namespace SymbolKind

/-- Symbols of the kind are no entries, what is inside them is listed around them. -/
def isTransparent : SymbolKind → Bool
  | .ifStatement | .selection | .expression | .preprocessor => true
  | _ => false

/-- Symbols of the kind are entries. -/
def isListed : SymbolKind → Bool
  | .define | .includeFile | .inheritFile | .variable | .parameter | .method | .inlineClosure => true
  | _ => false

end SymbolKind

namespace FileModel

/-- The entries for the children of a symbol, down to `depth` levels. -/
def outlineTo (m : FileModel) : Nat → SymbolId → Except Fault (List OutlineEntry)
  | 0, _ => return []
  | depth + 1, scope => do
    let entries ← (m.table.children scope).mapM fun child => do
      let s ← m.table.get child
      if s.kind.isTransparent then m.outlineTo depth child
      else if s.kind.isListed then
        let inside ← m.outlineTo depth child
        return [OutlineEntry.ofSymbol m.lines s inside]
      else return []
    return entries.flatten

/-- The outline of a file. -/
def outline (m : FileModel) : Except Fault (List OutlineEntry) :=
  m.outlineTo m.table.size SymbolId.root

end FileModel

end LpcSymbols
