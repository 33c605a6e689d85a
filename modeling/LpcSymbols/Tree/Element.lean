/-
Syntax trees.

An element is a token with its text or a node with its children.  Every character
of the source, white space and comments included, is in some token, so the text
of a file is the text of its tree.  Elements know neither their parents nor where
they stand; two trees are the same if they have the same shape, tags and texts.
-/
import LpcSymbols.Text.Cut
import LpcSymbols.Tree.Kind

namespace LpcSymbols

/-- A token or a node of a syntax tree, with the tag of its kind. -/
inductive Element where
  | token (tag : Nat) (text : String)
  | node (tag : Nat) (children : List Element)
deriving Inhabited

namespace Element

mutual

/-- The text of an element. -/
def text : Element → String
  | .token _ text => text
  | .node _ children => textAll children

/-- The text of a row of elements. -/
def textAll : List Element → String
  | [] => ""
  | e :: es => e.text ++ textAll es

end

mutual

/-- Length of the element's text, in bytes. -/
def size : Element → Nat
  | .token _ text => Text.size text
  | .node _ children => sizeAll children

/-- Length of the text of a row of elements, in bytes. -/
def sizeAll : List Element → Nat
  | [] => 0
  | e :: es => e.size + sizeAll es

end

mutual

/-- Number of leaves: tokens, and nodes without children. -/
def leafCount : Element → Nat
  | .token _ _ => 1
  | .node _ [] => 1
  | .node _ (e :: es) => e.leafCount + leafCountAll es

/-- Number of leaves of a row of elements. -/
def leafCountAll : List Element → Nat
  | [] => 0
  | e :: es => e.leafCount + leafCountAll es

end

mutual

/-- Same shape, tags and texts. -/
def same : Element → Element → Bool
  | .token a s, .token b t => a == b && s == t
  | .node a xs, .node b ys => a == b && sameAll xs ys
  | _, _ => false

/-- Rows of the same length with the same elements. -/
def sameAll : List Element → List Element → Bool
  | [], [] => true
  | x :: xs, y :: ys => x.same y && sameAll xs ys
  | _, _ => false

end

mutual

theorem eq_of_same : ∀ (x y : Element), x.same y = true → x = y
  | .token a s, .token b t, h => by simpa [same] using h
  | .node a xs, .node b ys, h => by
    simp only [same, Bool.and_eq_true, beq_iff_eq] at h
    rw [h.1, eq_of_sameAll xs ys h.2]
  | .token _ _, .node _ _, h => by simp [same] at h
  | .node _ _, .token _ _, h => by simp [same] at h

theorem eq_of_sameAll : ∀ (xs ys : List Element), sameAll xs ys = true → xs = ys
  | [], [], _ => rfl
  | x :: xs, y :: ys, h => by
    simp only [sameAll, Bool.and_eq_true] at h
    rw [eq_of_same x y h.1, eq_of_sameAll xs ys h.2]
  | [], _ :: _, h => by simp [sameAll] at h
  | _ :: _, [], h => by simp [sameAll] at h

end

mutual

theorem same_self : ∀ x : Element, x.same x = true
  | .token _ _ => by simp [same]
  | .node _ xs => by simp [same, sameAll_self xs]

theorem sameAll_self : ∀ xs : List Element, sameAll xs xs = true
  | [] => rfl
  | x :: xs => by simp [sameAll, same_self x, sameAll_self xs]

end

instance : DecidableEq Element := fun x y =>
  if h : x.same y = true then isTrue (eq_of_same x y h)
  else isFalse fun e => h (e ▸ same_self x)

end Element

end LpcSymbols
