/-
Imports: the files that a file includes or inherits.

They are listed in the order in which their symbols were created.  A file imported
twice is listed twice.
-/
import LpcSymbols.Symbol.Basic

namespace LpcSymbols

/-- The way in which a file is imported. -/
inductive ImportKind where
  | includeFile
  | inheritFile
deriving DecidableEq, Inhabited

/-- Name of the way. -/
def ImportKind.name : ImportKind → String
  | .includeFile => "Include"
  | .inheritFile => "Inherit"

/-- One imported file, as it is written. -/
structure Import where
  kind : ImportKind
  target : String
  /-- The symbol of the directive or statement. -/
  symbol : SymbolId
deriving DecidableEq, Inhabited

namespace Import

/-- The import that a symbol stands for. -/
def ofData? (data : SymbolData) (symbol : SymbolId) : Option Import :=
  match data with
  | .includeFile target => some ⟨.includeFile, target, symbol⟩
  | .inheritFile target => some ⟨.inheritFile, target, symbol⟩
  | _ => none

/-- The targets of all imports. -/
def targets (imports : List Import) : List String := imports.map (·.target)

/-- The targets of the imports of one kind. -/
def targetsOf (kind : ImportKind) (imports : List Import) : List String :=
  targets (imports.filter (·.kind == kind))

end Import

end LpcSymbols
