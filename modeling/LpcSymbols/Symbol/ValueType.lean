/-
Types of variables and parameters.

Three type words have a meaning of their own.  Every other spelling is kept as it
is written, so that it can still be shown.  A star at the end makes an array; only
the last star is looked at.
-/
import LpcSymbols.Text.Cut

namespace LpcSymbols

/-- The type that a keyword stands for. -/
inductive BaseType where
  | int
  | string
  | float
  /-- A spelling without a meaning of its own. -/
  | unresolved (spelling : String)
deriving DecidableEq, Inhabited

namespace BaseType

/-- The type of a spelling, compared as it stands. -/
def ofSpelling (s : String) : BaseType :=
  if s = "int" then .int
  else if s = "string" then .string
  else if s = "float" then .float
  else .unresolved s

/-- The spelling of a type. -/
def spelling : BaseType → String
  | .int => "int"
  | .string => "string"
  | .float => "float"
  | .unresolved s => s

/-- Name of the type. -/
def name : BaseType → String
  | .int => "Int"
  | .string => "String"
  | .float => "Float"
  | .unresolved _ => "Unresolved"

/-- The spelling has a meaning of its own. -/
def isResolved : BaseType → Bool
  | .unresolved _ => false
  | _ => true

end BaseType

/-- The type of a variable or parameter. -/
inductive ValueType where
  | plain (base : BaseType)
  | array (base : BaseType)
deriving DecidableEq, Inhabited

namespace ValueType

/-- The type of a parameter that is declared without one. -/
def untyped : ValueType := .plain (.unresolved "")

/-- The type of the value, or of the elements of an array. -/
def base : ValueType → BaseType
  | .plain b | .array b => b

/-- The type is one of arrays. -/
def isArray : ValueType → Bool
  | .array _ => true
  | .plain _ => false

/-- The type that a spelling stands for, white space around it and before a final star
aside. -/
def ofSpelling (s : String) : ValueType :=
  let cs := Text.trim s.toList
  match Text.dropFinal? '*' cs with
  | some element => .array (.ofSpelling (String.ofList (Text.trimRight element)))
  | none => .plain (.ofSpelling (String.ofList cs))

/-- How the type is shown. -/
def render : ValueType → String
  | .plain b => b.spelling
  | .array b => b.spelling ++ " *"

end ValueType

end LpcSymbols
