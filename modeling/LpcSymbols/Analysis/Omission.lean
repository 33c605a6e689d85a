/-
Omissions.

A construct gives no symbol if a part is missing without which nothing can be said
of it, or if there is no token in it that could say where it is.
-/
import LpcSymbols.Tree.Kind

namespace LpcSymbols

/-- Why a construct gives no symbol. -/
inductive Omission where
  /-- A part of the construct is missing. -/
  | missingPart (construct : Kind) (part : String)
  /-- The construct is made of white space and comments. -/
  | noSignificantToken (construct : Kind)
deriving DecidableEq, Inhabited

namespace Omission

/-- The construct that gives no symbol. -/
def construct : Omission → Kind
  | .missingPart kind _ => kind
  | .noSignificantToken kind => kind

/-- What is said of an omission. -/
def message : Omission → String
  | .missingPart kind part => kind.render ++ " is missing its " ++ part
  | .noSignificantToken kind => kind.render ++ " has no significant tokens"

end Omission

end LpcSymbols
