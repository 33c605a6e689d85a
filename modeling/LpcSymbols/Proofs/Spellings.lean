/-
Spellings of types.

A spelling is trimmed, a final star is taken off, and what is left is trimmed once more, on the right.
Read the other way round, a spelling is put together from a word and white space: the word with white
space on both sides, or the word, a star behind it, and white space on both sides and between.  The
word has no white space at its ends, which is all that is asked of it.  It may be empty and, before a
star, it may end in stars of its own (`Written`).

Every spelling has one of the two forms, and the form says what its type is (`ofSpelling_eq_iff`).
A type is shown in the form that it was read from, without white space that does not matter, so it is
read again as the same type.
-/
import LpcSymbols.Symbol.ValueType
import Mathlib.Data.List.DropRight

namespace LpcSymbols

/-! ### Trimming -/

namespace Text

/-- There is nothing but white space in the text. -/
def AllBlank (cs : List Char) : Prop := ∀ c ∈ cs, isBlank c = true

/-- The text has no white space at its ends. -/
structure Trimmed (cs : List Char) : Prop where
  head : ∀ c ∈ cs.head?, isBlank c = false
  last : ∀ c ∈ cs.getLast?, isBlank c = false

variable {cs u b v : List Char}

theorem trimLeft_eq_self (h : ∀ c ∈ cs.head?, isBlank c = false) : trimLeft cs = cs := by
  cases cs with
  | nil => rfl
  | cons c cs => exact List.dropWhile_cons_of_neg (by simpa using h c rfl)

theorem trimRight_eq_self (h : ∀ c ∈ cs.getLast?, isBlank c = false) : trimRight cs = cs := by
  refine List.rdropWhile_eq_self_iff.mpr ?_
  intro hne
  have hlast := h _ (List.getLast?_eq_some_getLast hne)
  simpa using hlast

theorem trimRight_append (hv : AllBlank v) : trimRight (cs ++ v) = trimRight cs := by
  unfold trimRight
  rw [List.reverse_append, List.dropWhile_append_of_pos]
  intro c hc
  exact hv c (List.mem_reverse.mp hc)

/-- **White space around a trimmed text is what trimming takes away.** -/
theorem trim_append (hu : AllBlank u) (hb : Trimmed b) (hv : AllBlank v) : trim (u ++ b ++ v) = b := by
  have hleft : trimLeft (u ++ b ++ v) = trimLeft (b ++ v) := by
    unfold trimLeft
    rw [List.append_assoc, List.dropWhile_append_of_pos hu]
  unfold trim
  rw [hleft]
  by_cases hnil : b = []
  · subst hnil
    have hnone : trimLeft ([] ++ v) = [] := List.dropWhile_eq_nil_iff.mpr hv
    rw [hnone]
    rfl
  · have hhead : ∀ c ∈ (b ++ v).head?, isBlank c = false := by
      intro c hc
      rw [List.head?_append_of_ne_nil b hnil] at hc
      exact hb.head c hc
    rw [trimLeft_eq_self hhead, trimRight_append hv, trimRight_eq_self hb.last]

theorem exists_trimRight (cs : List Char) : ∃ v, AllBlank v ∧ cs = trimRight cs ++ v := by
  refine ⟨cs.rtakeWhile isBlank, ?_, List.rdropWhile_append_rtakeWhile.symm⟩
  intro c hc
  exact List.mem_rtakeWhile_imp hc

theorem head?_of_trimRight {c : Char} (h : c ∈ (trimRight cs).head?) : c ∈ cs.head? := by
  obtain ⟨v, -, hcut⟩ := exists_trimRight cs
  have hsome : (trimRight cs).head? = some c := h
  rw [hcut, List.head?_append, hsome]
  rfl

theorem trimRight_last (cs : List Char) : ∀ c ∈ (trimRight cs).getLast?, isBlank c = false := by
  intro c hc
  have hne : trimRight cs ≠ [] := by
    intro hnil
    rw [hnil] at hc
    simp at hc
  have hlast : (trimRight cs).getLast hne = c := by
    have hsome := List.getLast?_eq_some_getLast hne
    exact Option.some.inj (hsome.symm.trans hc)
  rw [Bool.eq_false_iff, ← hlast]
  exact List.rdropWhile_last_not isBlank cs hne

/-- Every text is a trimmed one with white space around it. -/
theorem exists_trim (cs : List Char) :
    ∃ u v, AllBlank u ∧ Trimmed (trim cs) ∧ AllBlank v ∧ cs = u ++ trim cs ++ v := by
  obtain ⟨v, hv, hcut⟩ := exists_trimRight (trimLeft cs)
  refine ⟨cs.takeWhile isBlank, v, ?_, ⟨?_, trimRight_last _⟩, hv, ?_⟩
  · intro c hc
    exact List.mem_takeWhile_imp hc
  · intro c hc
    have hhead : (cs.dropWhile isBlank).head? = some c := head?_of_trimRight hc
    have hno := List.head?_dropWhile_not isBlank cs
    rw [hhead] at hno
    exact hno
  · have hsplit : cs.takeWhile isBlank ++ trimLeft cs = cs := List.takeWhile_append_dropWhile
    rw [List.append_assoc, trim, ← hcut, hsplit]

theorem dropFinal?_concat (last : Char) (cs : List Char) :
    dropFinal? last (cs ++ [last]) = some cs := by
  simp [dropFinal?]

theorem dropFinal?_eq_none_iff {last : Char} :
    dropFinal? last cs = none ↔ cs.getLast? ≠ some last := by
  simp [dropFinal?]

theorem eq_concat_of_dropFinal? {last : Char} {rest : List Char}
    (h : dropFinal? last cs = some rest) : cs = rest ++ [last] := by
  unfold dropFinal? at h
  by_cases hlast : cs.getLast? = some last
  · rw [if_pos hlast] at h
    obtain rfl := Option.some.inj h
    obtain ⟨ys, rfl⟩ := List.getLast?_eq_some_iff.mp hlast
    rw [List.dropLast_concat]
  · rw [if_neg hlast] at h
    simp at h

end Text

/-! ### The two forms of a spelling -/

theorem BaseType.spelling_ofSpelling (s : String) : (ofSpelling s).spelling = s := by
  unfold ofSpelling
  by_cases hint : s = "int"
  · rw [if_pos hint, hint]
    rfl
  · rw [if_neg hint]
    by_cases hstring : s = "string"
    · rw [if_pos hstring, hstring]
      rfl
    · rw [if_neg hstring]
      by_cases hfloat : s = "float"
      · rw [if_pos hfloat, hfloat]
        rfl
      · rw [if_neg hfloat]
        rfl

/-- The words with a meaning of their own. -/
def BaseType.words : List String := ["int", "string", "float"]

theorem BaseType.isResolved_ofSpelling (s : String) :
    (ofSpelling s).isResolved = true ↔ s ∈ words := by
  unfold ofSpelling words
  by_cases hint : s = "int"
  · simp [hint, isResolved]
  · by_cases hstring : s = "string"
    · simp [hstring, isResolved]
    · by_cases hfloat : s = "float"
      · simp [hfloat, isResolved]
      · simp [hint, hstring, hfloat, isResolved]

namespace ValueType

open Text

/-- How the spelling of a type is put together, from a word and white space. -/
inductive Written : String → ValueType → Prop
  | plain {u b v : String} (hu : AllBlank u.toList) (hb : Trimmed b.toList) (hv : AllBlank v.toList)
      (hlast : b.toList.getLast? ≠ some '*') : Written (u ++ b ++ v) (.plain (.ofSpelling b))
  | array {u b v w : String} (hu : AllBlank u.toList) (hb : Trimmed b.toList)
      (hv : AllBlank v.toList) (hw : AllBlank w.toList) :
      Written (u ++ b ++ v ++ "*" ++ w) (.array (.ofSpelling b))

/-- A word with a star behind it. -/
theorem trim_starred {u b v w : List Char} (hu : AllBlank u) (hb : Trimmed b) (hv : AllBlank v)
    (hw : AllBlank w) :
    ∃ rest, trim (u ++ b ++ v ++ ['*'] ++ w) = rest ++ ['*'] ∧ trimRight rest = b := by
  have hstar : ∀ c ∈ ['*'].getLast?, isBlank c = false := by simp [isBlank]
  by_cases hnil : b = []
  · -- Without a word the white space before the star is at the front.
    subst hnil
    refine ⟨[], ?_, rfl⟩
    have huv : AllBlank (u ++ v) := by
      intro c hc
      exact (List.mem_append.mp hc).elim (hu c) (hv c)
    rw [List.append_nil]
    exact trim_append huv ⟨by simp [isBlank], hstar⟩ hw
  · refine ⟨b ++ v, ?_, ?_⟩
    · have hb' : Trimmed (b ++ v ++ ['*']) := by
        refine ⟨?_, ?_⟩
        · intro c hc
          rw [List.append_assoc, List.head?_append_of_ne_nil b hnil] at hc
          exact hb.head c hc
        · intro c hc
          rw [List.getLast?_append] at hc
          exact hstar c hc
      have hmid := trim_append hu hb' hw
      simpa only [List.append_assoc] using hmid
    · rw [trimRight_append hv, trimRight_eq_self hb.last]

theorem ofSpelling_of_none {s : String} (h : dropFinal? '*' (trim s.toList) = none) :
    ofSpelling s = .plain (.ofSpelling (String.ofList (trim s.toList))) := by
  simp only [ofSpelling, h]

theorem ofSpelling_of_some {s : String} {rest : List Char}
    (h : dropFinal? '*' (trim s.toList) = some rest) :
    ofSpelling s = .array (.ofSpelling (String.ofList (trimRight rest))) := by
  simp only [ofSpelling, h]

theorem ofSpelling_of_written {s : String} {type : ValueType} (h : Written s type) :
    ofSpelling s = type := by
  cases h with
  | @plain u b v hu hb hv hlast =>
      have htrim : trim (u ++ b ++ v).toList = b.toList := by
        rw [String.toList_append, String.toList_append]
        exact trim_append hu hb hv
      have hnone : dropFinal? '*' (trim (u ++ b ++ v).toList) = none := by
        rw [htrim]
        exact dropFinal?_eq_none_iff.mpr hlast
      rw [ofSpelling_of_none hnone, htrim, String.ofList_toList]
  | @array u b v w hu hb hv hw =>
      obtain ⟨rest, htrim, hrest⟩ := trim_starred hu hb hv hw
      have hsome : dropFinal? '*' (trim (u ++ b ++ v ++ "*" ++ w).toList) = some rest := by
        simp only [String.toList_append]
        exact htrim ▸ dropFinal?_concat '*' rest
      rw [ofSpelling_of_some hsome, hrest, String.ofList_toList]

/-- Every spelling has one of the two forms. -/
theorem written_ofSpelling (s : String) : Written s (ofSpelling s) := by
  obtain ⟨u, w, hu, hb, hw, hcut⟩ := exists_trim s.toList
  cases hdrop : dropFinal? '*' (trim s.toList) with
  | none =>
      have hs : s = String.ofList u ++ String.ofList (trim s.toList) ++ String.ofList w := by
        rw [← String.ofList_append, ← String.ofList_append, ← hcut, String.ofList_toList]
      have hlast := dropFinal?_eq_none_iff.mp hdrop
      rw [ofSpelling_of_none hdrop]
      nth_rewrite 1 [hs]
      exact .plain (by simpa using hu) (by simpa using hb) (by simpa using hw) (by simpa using hlast)
  | some rest =>
      have hrest := eq_concat_of_dropFinal? hdrop
      obtain ⟨v, hv, hback⟩ := exists_trimRight rest
      have hs : s = String.ofList u ++ String.ofList (trimRight rest) ++ String.ofList v ++ "*"
          ++ String.ofList w := by
        have hstar : "*" = String.ofList ['*'] := rfl
        rw [hstar, ← String.ofList_append, ← String.ofList_append, ← String.ofList_append,
          ← String.ofList_append, List.append_assoc u, ← hback, List.append_assoc u, ← hrest, ← hcut,
          String.ofList_toList]
      -- What is left before the star still starts where the trimmed text does.
      have hb' : Trimmed (trimRight rest) := by
        refine ⟨?_, trimRight_last rest⟩
        intro c hc
        have hhead : rest.head? = some c := head?_of_trimRight hc
        refine hb.head c ?_
        rw [hrest, List.head?_append, hhead]
        rfl
      rw [ofSpelling_of_some hdrop]
      nth_rewrite 1 [hs]
      exact .array (by simpa using hu) (by simpa using hb') (by simpa using hv) (by simpa using hw)

/-- **The type of a spelling is the one that its form says.** -/
theorem ofSpelling_eq_iff {s : String} {type : ValueType} : ofSpelling s = type ↔ Written s type := by
  refine ⟨?_, ofSpelling_of_written⟩
  rintro rfl
  exact written_ofSpelling s

/-- What is shown of a type is a spelling of it. -/
theorem Written.render {s : String} {type : ValueType} (h : Written s type) :
    Written type.render type := by
  have hnone : AllBlank "".toList := by simp [AllBlank]
  have hblank : AllBlank " ".toList := by simp [AllBlank, isBlank]
  cases h with
  | @plain u b v hu hb hv hlast =>
      have hform := Written.plain hnone hb hnone hlast
      rw [String.empty_append, String.append_empty] at hform
      rw [ValueType.render, BaseType.spelling_ofSpelling]
      exact hform
  | @array u b v w hu hb hv hw =>
      have hform := Written.array hnone hb hblank hnone
      rw [String.empty_append, String.append_empty, String.append_assoc] at hform
      rw [ValueType.render, BaseType.spelling_ofSpelling]
      exact hform

theorem trimmed_of_mem_words {word : String} (h : word ∈ BaseType.words) :
    Trimmed word.toList ∧ word.toList.getLast? ≠ some '*' := by
  simp only [BaseType.words, List.mem_cons, List.not_mem_nil, or_false] at h
  rcases h with rfl | rfl | rfl <;>
    exact ⟨⟨by simp [isBlank], by simp [isBlank]⟩, by simp⟩

/-- A type has a meaning of its own only if its spelling is made of one of the three words. -/
theorem isResolved_iff {s : String} : (ofSpelling s).base.isResolved = true ↔
    ∃ word ∈ BaseType.words, ∃ u v w : String, AllBlank u.toList ∧ AllBlank v.toList ∧
      AllBlank w.toList ∧ (s = u ++ word ++ v ∨ s = u ++ word ++ v ++ "*" ++ w) := by
  constructor
  · intro hresolved
    have hform := written_ofSpelling s
    generalize ofSpelling s = type at hform hresolved
    cases hform with
    | @plain u b v hu hb hv hlast =>
        have hword := (BaseType.isResolved_ofSpelling b).mp hresolved
        exact ⟨b, hword, u, v, "", hu, hv, by simp [AllBlank], Or.inl rfl⟩
    | @array u b v w hu hb hv hw =>
        have hword := (BaseType.isResolved_ofSpelling b).mp hresolved
        exact ⟨b, hword, u, v, w, hu, hv, hw, Or.inr rfl⟩
  · rintro ⟨word, hword, u, v, w, hu, hv, hw, hs⟩
    obtain ⟨htrimmed, hlast⟩ := trimmed_of_mem_words hword
    rcases hs with rfl | rfl
    · rw [ofSpelling_of_written (.plain hu htrimmed hv hlast)]
      exact (BaseType.isResolved_ofSpelling word).mpr hword
    · rw [ofSpelling_of_written (.array hu htrimmed hv hw)]
      exact (BaseType.isResolved_ofSpelling word).mpr hword

/-- **A type is shown as it can be read again.  A spelling is read as the word in it, with a star
behind it or without, and only three words have a meaning of their own.** -/
theorem spellings_exact :
    (∀ s, ofSpelling (ofSpelling s).render = ofSpelling s) ∧
      (∀ u b v w : String, AllBlank u.toList → Trimmed b.toList → AllBlank v.toList →
        AllBlank w.toList → ofSpelling (u ++ b ++ v ++ "*" ++ w) = .array (.ofSpelling b) ∧
          (b.toList.getLast? ≠ some '*' → ofSpelling (u ++ b ++ v) = .plain (.ofSpelling b))) ∧
      ∀ s, (ofSpelling s).base.isResolved = true ↔ ∃ word ∈ BaseType.words, ∃ u v w : String,
        AllBlank u.toList ∧ AllBlank v.toList ∧ AllBlank w.toList ∧
          (s = u ++ word ++ v ∨ s = u ++ word ++ v ++ "*" ++ w) := by
  refine ⟨?_, ?_, fun s => isResolved_iff⟩
  · intro s
    exact ofSpelling_eq_iff.mpr (written_ofSpelling s).render
  · intro u b v w hu hb hv hw
    exact ⟨ofSpelling_eq_iff.mpr (.array hu hb hv hw),
      fun hlast => ofSpelling_eq_iff.mpr (.plain hu hb hv hlast)⟩

/-- White space that is no blank, and a word that ends in a star itself. -/
theorem spellings_exact_starred :
    AllBlank "\u00a0".toList ∧ Trimmed "int*".toList ∧ AllBlank "\u3000".toList ∧
      ofSpelling ("\u00a0" ++ "int*" ++ "\u3000" ++ "*" ++ "\u00a0")
        = .array (.unresolved "int*") ∧
      "float".toList.getLast? ≠ some '*' ∧
      ofSpelling ("\u3000" ++ "float" ++ "\u00a0") = .plain .float := by
  have hnarrow : AllBlank "\u00a0".toList := by simp [AllBlank, isBlank]
  have hwide : AllBlank "\u3000".toList := by simp [AllBlank, isBlank]
  have hint : Trimmed "int*".toList := ⟨by simp [isBlank], by simp [isBlank]⟩
  have hword : "float" ∈ BaseType.words := by simp [BaseType.words]
  obtain ⟨hfloat, hlast⟩ := trimmed_of_mem_words hword
  obtain ⟨-, hread, -⟩ := spellings_exact
  exact ⟨hnarrow, hint, hwide, (hread _ _ _ _ hnarrow hint hwide hnarrow).1, hlast,
    (hread _ _ _ "" hwide hfloat hnarrow (by simp [AllBlank])).2 hlast⟩

end ValueType

end LpcSymbols
