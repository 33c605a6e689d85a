/-
Places and offsets are two names of the same.

The line map keeps only where lines start.  What it says of an offset is compared here with the bytes
before the offset: the line is the number of newlines among them, and the column is how many come
behind the last one (`LineCol.behind`).  Both grow byte by byte.  One byte further, the place moves
to the next line if the byte was a newline, and by one column if it was not (`lineCol_succ`), and
lines start exactly behind the newlines (`succ_mem_starts`).  No other character has a byte like that
of the newline, so this holds inside of characters too.

With the way back, from a place to its offset, the places of a text are in one-to-one correspondence
with its offsets, and in the same order.  So the region of a range is known from the bytes before its
ends (`region_isOf`).  Offsets are words, and none of the sums and differences on
the way leaves its word unnoticed (`InWords`).
-/
import LpcSymbols.Proofs.Moving

namespace LpcSymbols

/-! ### Bytes of a text -/

namespace Text

/-- The bytes of a text in UTF-8. -/
def bytes (text : String) : List UInt8 := text.toByteArray.data.toList

/-- The one byte of a newline. -/
def newline : UInt8 := 10

theorem bytes_eq_flatMap (text : String) : bytes text = text.toList.flatMap String.utf8EncodeChar := by
  have h : text.toByteArray = text.toList.utf8Encode := by
    rw [← String.toByteArray_ofList, String.ofList_toList]
  rw [bytes, h, List.utf8Encode, List.toList_data_toByteArray]

theorem length_bytes (text : String) : (bytes text).length = size text := by
  rw [bytes, Array.length_toList]
  rfl

/-- A byte with the highest bit is no newline. -/
theorem ofNat_ne_newline {n : Nat} (hlo : 128 ≤ n) (hhi : n < 256) : UInt8.ofNat n ≠ newline := by
  intro h
  have hnat := congrArg UInt8.toNat h
  rw [UInt8.toNat_ofNat', Nat.mod_eq_of_lt hhi] at hnat
  have hten : newline.toNat = 10 := rfl
  omega

/-- **Only the newline has the byte of a newline.** -/
theorem newline_mem_utf8EncodeChar {c : Char} (h : newline ∈ String.utf8EncodeChar c) :
    c = '\n' := by
  unfold String.utf8EncodeChar at h
  by_cases hone : c.val.toNat ≤ 127
  · rw [if_pos hone, List.mem_singleton] at h
    have hnat := congrArg UInt8.toNat h
    rw [UInt8.toNat_ofNat', Nat.mod_eq_of_lt (by omega)] at hnat
    exact Char.ext (UInt32.toNat_inj.mp hnat.symm)
  · -- All bytes of a longer character have the highest bit.
    exfalso
    rw [if_neg hone] at h
    by_cases htwo : c.val.toNat ≤ 2047
    · rw [if_pos htwo] at h
      simp only [List.mem_cons, List.not_mem_nil, or_false] at h
      rcases h with h | h <;> exact ofNat_ne_newline (by omega) (by omega) h.symm
    · rw [if_neg htwo] at h
      by_cases hthree : c.val.toNat ≤ 65535
      · rw [if_pos hthree] at h
        simp only [List.mem_cons, List.not_mem_nil, or_false] at h
        rcases h with h | h | h <;> exact ofNat_ne_newline (by omega) (by omega) h.symm
      · rw [if_neg hthree] at h
        simp only [List.mem_cons, List.not_mem_nil, or_false] at h
        rcases h with h | h | h | h <;> exact ofNat_ne_newline (by omega) (by omega) h.symm

/-- A newline among the bytes is the first character, or it comes behind that character. -/
theorem newlineAt_cons {c : Char} {cs : List Char} {i : Nat} :
    ((c :: cs).flatMap String.utf8EncodeChar)[i]? = some newline ↔
      (c = '\n' ∧ i = 0) ∨
        (c.utf8Size ≤ i ∧ (cs.flatMap String.utf8EncodeChar)[i - c.utf8Size]? = some newline) := by
  have hlen := String.length_utf8EncodeChar c
  rw [List.flatMap_cons]
  by_cases hi : i < c.utf8Size
  · rw [List.getElem?_append_left (by omega)]
    constructor
    · intro hbyte
      have hc := newline_mem_utf8EncodeChar (List.mem_of_getElem? hbyte)
      have hone : '\n'.utf8Size = 1 := rfl
      rw [hc, hone] at hi
      exact Or.inl ⟨hc, by omega⟩
    · rintro (⟨rfl, rfl⟩ | ⟨hle, -⟩)
      · rfl
      · omega
  · rw [List.getElem?_append_right (by omega), hlen]
    constructor
    · intro hbyte
      exact Or.inr ⟨by omega, hbyte⟩
    · rintro (⟨rfl, rfl⟩ | ⟨-, hbyte⟩)
      · exact absurd (by decide) hi
      · exact hbyte

end Text

/-- The place behind bytes: the number of newlines, and how many bytes come behind the last. -/
def LineCol.behind (bytes : List UInt8) : LineCol :=
  ⟨bytes.count Text.newline, (bytes.rtakeWhile (· != Text.newline)).length⟩

theorem LineCol.behind_concat (bytes : List UInt8) (b : UInt8) :
    behind (bytes ++ [b]) = if b = Text.newline then ⟨(behind bytes).line + 1, 0⟩
      else ⟨(behind bytes).line, (behind bytes).col + 1⟩ := by
  unfold behind
  rw [List.rtakeWhile_concat, List.count_append, List.count_singleton]
  by_cases hb : b = Text.newline
  · simp [hb]
  · simp [hb]

/-- The first place comes strictly before the second, by line and then by column. -/
def LineCol.Before (p q : LineCol) : Prop := p.line < q.line ∨ p.line = q.line ∧ p.col < q.col

/-! ### Where lines start -/

namespace LineMap

theorem pairwise_startsAfter (offset : Nat) (cs : List Char) :
    (startsAfter offset cs).Pairwise (· < ·) := by
  induction cs generalizing offset with
  | nil => exact List.Pairwise.nil
  | cons c cs ih =>
      simp only [startsAfter]
      split
      · exact List.pairwise_cons.mpr ⟨fun start hstart => (startsAfter_bounds hstart).1, ih _⟩
      · exact ih _

/-- Lines start one behind the other. -/
theorem pairwise_starts (text : String) : (ofText text).starts.Pairwise (· < ·) :=
  List.pairwise_cons.mpr
    ⟨fun _ hstart => (startsAfter_bounds hstart).1, pairwise_startsAfter 0 text.toList⟩

theorem starts_lt (text : String) {i j a b : Nat} (ha : (ofText text).starts[i]? = some a)
    (hb : (ofText text).starts[j]? = some b) (hij : i < j) : a < b := by
  obtain ⟨hi, rfl⟩ := List.getElem?_eq_some_iff.mp ha
  obtain ⟨hj, rfl⟩ := List.getElem?_eq_some_iff.mp hb
  exact List.pairwise_iff_getElem.mp (pairwise_starts text) i j hi hj hij

/-- A search among ascending starts ends behind the last one that is not behind the offset. -/
theorem length_takeWhile_starts {starts : List Nat} {offset line start : Nat}
    (hsorted : starts.Pairwise (· < ·)) (hstart : starts[line]? = some start) (hle : start ≤ offset)
    (hnext : ∀ next, starts[line + 1]? = some next → offset < next) :
    (starts.takeWhile (· ≤ offset)).length = line + 1 := by
  induction starts generalizing line with
  | nil => simp at hstart
  | cons first starts ih =>
      obtain ⟨hfirst, hrest⟩ := List.pairwise_cons.mp hsorted
      cases line with
      | zero =>
          obtain rfl := Option.some.inj hstart
          have hnone : starts.takeWhile (· ≤ offset) = [] := by
            cases starts with
            | nil => rfl
            | cons second starts =>
                exact List.takeWhile_cons_of_neg (by simpa using hnext second rfl)
          rw [List.takeWhile_cons_of_pos (by simpa using hle), hnone]
          rfl
      | succ line =>
          rw [List.getElem?_cons_succ] at hstart
          have hlt := hfirst start (List.mem_of_getElem? hstart)
          have hpos : first ≤ offset := Nat.le_trans (Nat.le_of_lt hlt) hle
          rw [List.takeWhile_cons_of_pos (by simpa using hpos), List.length_cons,
            ih hrest hstart hnext]

/-- The place of an offset that is not before the start of a line, but before the next line. -/
theorem lineCol_of_start {text : String} {offset line start : Nat}
    (hstart : (ofText text).starts[line]? = some start) (hle : start ≤ offset)
    (hnext : ∀ next, (ofText text).starts[line + 1]? = some next → offset < next) :
    (ofText text).lineCol offset = ⟨line, offset - start⟩ := by
  have hline := length_takeWhile_starts (pairwise_starts text) hstart hle hnext
  simp only [lineCol, hline, Nat.add_sub_cancel, hstart, Option.getD_some]

/-- The line of an offset does not start behind it. -/
theorem start_line_le (text : String) (offset : Nat) :
    (ofText text).starts[((ofText text).lineCol offset).line]?.getD 0 ≤ offset := by
  have hpos : 0 < ((ofText text).starts.takeWhile (· ≤ offset)).length := by simp [ofText]
  have hlast : ((ofText text).starts.takeWhile (· ≤ offset)).length - 1
      < ((ofText text).starts.takeWhile (· ≤ offset)).length := by omega
  have hget := List.prefix_iff_getElem?.mp
    (List.takeWhile_prefix (· ≤ offset) (l := (ofText text).starts)) _ hlast
  have hle := List.mem_takeWhile_imp (List.getElem_mem hlast)
  show (ofText text).starts[((ofText text).starts.takeWhile (· ≤ offset)).length - 1]?.getD 0 ≤ offset
  rw [hget, Option.getD_some]
  simpa using hle

/-- The line behind that of an offset starts behind the offset. -/
theorem lt_start_of_takeWhile {starts : List Nat} {offset next : Nat}
    (h : starts[(starts.takeWhile (· ≤ offset)).length]? = some next) : offset < next := by
  have hsplit : starts = starts.takeWhile (· ≤ offset) ++ starts.dropWhile (· ≤ offset) :=
    List.takeWhile_append_dropWhile.symm
  have hnext : (starts.dropWhile (· ≤ offset)).head? = some next := by
    rw [List.head?_eq_getElem?, ← h]
    nth_rewrite 2 [hsplit]
    rw [List.getElem?_append_right (Nat.le_refl _), Nat.sub_self]
  have hno := List.head?_dropWhile_not (· ≤ offset) starts
  rw [hnext] at hno
  simpa using hno

/-- The line of an offset starts at the offset or before it, and the next line behind it. -/
theorem exists_start (text : String) (offset : Nat) : ∃ start,
    (ofText text).starts[((ofText text).lineCol offset).line]? = some start ∧ start ≤ offset ∧
      ((ofText text).lineCol offset).col = offset - start ∧
      ∀ next, (ofText text).starts[((ofText text).lineCol offset).line + 1]? = some next →
        offset < next := by
  have hpos : 0 < ((ofText text).starts.takeWhile (· ≤ offset)).length := by simp [ofText]
  have hline : ((ofText text).lineCol offset).line + 1
      = ((ofText text).starts.takeWhile (· ≤ offset)).length := by
    show _ - 1 + 1 = _
    omega
  have hlt : ((ofText text).lineCol offset).line < (ofText text).starts.length := by
    have hle := (List.takeWhile_prefix (· ≤ offset) (l := (ofText text).starts)).length_le
    omega
  have hstart := start_line_le text offset
  have hget := List.getElem?_eq_getElem hlt
  have hcol : ((ofText text).lineCol offset).col
      = offset - (ofText text).starts[((ofText text).lineCol offset).line]?.getD 0 := rfl
  rw [hget, Option.getD_some] at hstart hcol
  refine ⟨_, hget, hstart, hcol, ?_⟩
  intro next hnext
  rw [hline] at hnext
  exact lt_start_of_takeWhile hnext

theorem lineCol_zero (text : String) : (ofText text).lineCol 0 = ⟨0, 0⟩ := by
  have htake : (ofText text).starts.takeWhile (· ≤ 0) = [0].takeWhile (· ≤ 0) := by
    refine takeWhile_append_of_none [0] ?_
    intro start hstart
    have hpos := (startsAfter_bounds hstart).1
    simp only [decide_eq_false_iff_not]
    omega
  unfold lineCol
  rw [htake]
  rfl

/-- The place right behind a text, whatever follows. -/
theorem lineCol_size (u v : String) :
    (ofText (u ++ v)).lineCol (Text.size u)
      = ⟨u.toList.count '\n', Text.size (String.ofList (Text.lastLine u.toList))⟩ := by
  have h := lineCol_append_left u v 0
  rw [Nat.zero_add, lineCol_zero] at h
  simpa [LineCol.shift] using h

/-! ### One byte further -/

/-- Lines start behind newlines. -/
theorem mem_startsAfter {offset start : Nat} {cs : List Char} :
    start ∈ startsAfter offset cs ↔ ∃ i, start = offset + i + 1 ∧
      (cs.flatMap String.utf8EncodeChar)[i]? = some Text.newline := by
  induction cs generalizing offset with
  | nil => simp [startsAfter]
  | cons c cs ih =>
      have hstep : start ∈ startsAfter offset (c :: cs) ↔
          (c = '\n' ∧ start = offset + 1) ∨ start ∈ startsAfter (offset + c.utf8Size) cs := by
        simp only [startsAfter]
        by_cases hc : c = '\n'
        · subst hc
          rw [if_pos rfl, List.mem_cons, and_iff_right rfl]
          rfl
        · rw [if_neg hc]
          simp [hc]
      rw [hstep, ih]
      constructor
      · rintro (⟨hc, hstart⟩ | ⟨i, hstart, hbyte⟩)
        · exact ⟨0, hstart, Text.newlineAt_cons.mpr (Or.inl ⟨hc, rfl⟩)⟩
        · refine ⟨c.utf8Size + i, by omega, Text.newlineAt_cons.mpr (Or.inr ⟨by omega, ?_⟩)⟩
          rw [Nat.add_sub_cancel_left]
          exact hbyte
      · rintro ⟨i, hstart, hbyte⟩
        rcases Text.newlineAt_cons.mp hbyte with ⟨hc, rfl⟩ | ⟨hle, hbyte⟩
        · exact Or.inl ⟨hc, hstart⟩
        · exact Or.inr ⟨i - c.utf8Size, by omega, hbyte⟩

theorem succ_mem_starts (text : String) (offset : Nat) :
    offset + 1 ∈ (ofText text).starts ↔ (Text.bytes text)[offset]? = some Text.newline := by
  have h : offset + 1 ∈ (ofText text).starts ↔ offset + 1 ∈ startsAfter 0 text.toList := by
    simp [ofText]
  rw [h, mem_startsAfter, Text.bytes_eq_flatMap]
  constructor
  · rintro ⟨i, hi, hbyte⟩
    obtain rfl : offset = i := by omega
    exact hbyte
  · intro hbyte
    exact ⟨offset, by omega, hbyte⟩

/-- **One byte further is the next column, or the next line behind a newline.** -/
theorem lineCol_succ (text : String) (offset : Nat) :
    (ofText text).lineCol (offset + 1)
      = if offset + 1 ∈ (ofText text).starts then ⟨((ofText text).lineCol offset).line + 1, 0⟩
        else ⟨((ofText text).lineCol offset).line, ((ofText text).lineCol offset).col + 1⟩ := by
  obtain ⟨start, hstart, hle, hcol, hnext⟩ := exists_start text offset
  rw [hcol]
  generalize ((ofText text).lineCol offset).line = line at hstart hnext ⊢
  by_cases hmem : offset + 1 ∈ (ofText text).starts
  · -- The line that starts there can only be the next one.
    obtain ⟨j, hj⟩ := List.getElem?_of_mem hmem
    have hlater : line < j := by
      by_contra hge
      rcases Nat.eq_or_lt_of_le (Nat.le_of_not_lt hge) with rfl | hlt
      · have hsame := Option.some.inj (hstart.symm.trans hj)
        omega
      · have hlt := starts_lt text hj hstart hlt
        omega
    have hnear : j ≤ line + 1 := by
      by_contra hgt
      have hin : line + 1 < (ofText text).starts.length := by
        have hj := (List.getElem?_eq_some_iff.mp hj).1
        omega
      have hget := List.getElem?_eq_getElem hin
      have hbehind := hnext _ hget
      have hbefore := starts_lt text hget hj (by omega)
      omega
    obtain rfl : j = line + 1 := by omega
    rw [if_pos hmem, lineCol_of_start hj (Nat.le_refl _), Nat.sub_self]
    intro next hget
    exact starts_lt text hj hget (Nat.lt_succ_self _)
  · rw [if_neg hmem, lineCol_of_start hstart (Nat.le_succ_of_le hle), Nat.succ_sub hle]
    intro next hget
    have hlt := hnext next hget
    have hne : next ≠ offset + 1 := by
      rintro rfl
      exact hmem (List.mem_of_getElem? hget)
    omega

/-- **The place of an offset is the one behind the bytes before it.** -/
theorem lineCol_eq_behind (text : String) {offset : Nat} (h : offset ≤ Text.size text) :
    (ofText text).lineCol offset = .behind ((Text.bytes text).take offset) := by
  induction offset with
  | zero => exact lineCol_zero text
  | succ offset ih =>
      have hlt : offset < (Text.bytes text).length := by
        rw [Text.length_bytes]
        exact h
      have hbyte : (Text.bytes text)[offset] = Text.newline ↔ offset + 1 ∈ (ofText text).starts := by
        rw [succ_mem_starts, List.getElem?_eq_getElem hlt, Option.some.injEq]
      rw [lineCol_succ, ih (Nat.le_of_succ_le h), List.take_succ_eq_append_getElem hlt,
        LineCol.behind_concat]
      simp only [hbyte]

/-! ### Places and offsets, both ways -/

/-- **Lines and columns come in the order of offsets.** -/
theorem lineCol_lt (text : String) {a b : Nat} (h : a < b) :
    ((ofText text).lineCol a).line < ((ofText text).lineCol b).line ∨
      ((ofText text).lineCol a).line = ((ofText text).lineCol b).line ∧
        ((ofText text).lineCol a).col < ((ofText text).lineCol b).col := by
  have hline : ((ofText text).lineCol a).line ≤ ((ofText text).lineCol b).line := by
    refine Nat.sub_le_sub_right (length_takeWhile_mono ?_ _) 1
    intro n hn
    simp only [decide_eq_true_eq] at hn ⊢
    exact Nat.le_trans hn (Nat.le_of_lt h)
  by_cases heq : ((ofText text).lineCol a).line = ((ofText text).lineCol b).line
  · -- On one line the columns count from the same start.
    refine Or.inr ⟨heq, ?_⟩
    have hstart := start_line_le text a
    show a - (ofText text).starts[((ofText text).lineCol a).line]?.getD 0
      < b - (ofText text).starts[((ofText text).lineCol b).line]?.getD 0
    rw [← heq]
    omega
  · exact Or.inl (Nat.lt_of_le_of_ne hline heq)

/-- **The place of an offset of the text leads back to the offset.** -/
theorem offset?_lineCol (text : String) {offset : Nat} (h : offset ≤ Text.size text) :
    (ofText text).offset? ((ofText text).lineCol offset) = some offset := by
  obtain ⟨start, hget, hstart, hcol, hbehind⟩ := exists_start text offset
  -- The line reaches up to the next one, or to the end of the text.
  have hstop : offset ≤ ((ofText text).starts[((ofText text).lineCol offset).line + 1]?.map
      (· - 1)).getD (ofText text).size := by
    cases hnext : (ofText text).starts[((ofText text).lineCol offset).line + 1]? with
    | none => exact h
    | some next => exact Nat.le_sub_one_of_lt (hbehind next hnext)
  have hsum : start + ((ofText text).lineCol offset).col = offset := by omega
  simp only [offset?, hget, bind, Option.bind, hsum, if_pos hstop]

/-- The bytes of a line come before the next line, and all of them are in the text. -/
theorem stop_bounds (text : String) {offset line : Nat}
    (h : offset ≤ ((ofText text).starts[line + 1]?.map (· - 1)).getD (ofText text).size) :
    offset ≤ Text.size text ∧
      ∀ next, (ofText text).starts[line + 1]? = some next → offset < next := by
  cases hnext : (ofText text).starts[line + 1]? with
  | none =>
      rw [hnext] at h
      exact ⟨h, by simp⟩
  | some next =>
      have hmem : next ∈ startsAfter 0 text.toList := List.mem_of_getElem? (i := line) hnext
      obtain ⟨hpos, hsize⟩ := startsAfter_bounds hmem
      rw [String.ofList_toList] at hsize
      rw [hnext, Option.map_some, Option.getD_some] at h
      refine ⟨by omega, ?_⟩
      intro _ hsame
      obtain rfl := Option.some.inj hsame
      omega

/-- **The offset of a place leads back to the place.** -/
theorem lineCol_offset? (text : String) {place : LineCol} {offset : Nat}
    (h : (ofText text).offset? place = some offset) :
    offset ≤ Text.size text ∧ (ofText text).lineCol offset = place := by
  obtain ⟨start, hstart, h⟩ := Option.bind_eq_some_iff.mp h
  obtain ⟨hle, hsum⟩ := Option.ite_none_right_eq_some.mp h
  obtain rfl := Option.some.inj hsum
  obtain ⟨hsize, hnext⟩ := stop_bounds text hle
  refine ⟨hsize, ?_⟩
  rw [lineCol_of_start hstart (Nat.le_add_right start place.col) hnext, Nat.add_sub_cancel_left]

/-- No offset has a place that the map has no offset for. -/
theorem offset?_eq_none_iff (text : String) (place : LineCol) :
    (ofText text).offset? place = none ↔
      ∀ offset ≤ Text.size text, (ofText text).lineCol offset ≠ place := by
  constructor
  · rintro hnone offset hle rfl
    rw [offset?_lineCol text hle] at hnone
    simp at hnone
  · intro hno
    by_contra hsome
    obtain ⟨offset, hoffset⟩ := Option.ne_none_iff_exists'.mp hsome
    obtain ⟨hle, hplace⟩ := lineCol_offset? text hoffset
    exact hno offset hle hplace

/-- The numbers that are formed on the way from a place to an offset and back are words, and the
one sum that may not be is noticed. -/
structure InWords (m : LineMap) : Prop where
  size : Word.fits m.size = true
  starts : ∀ start ∈ m.starts, Word.fits start = true
  place : ∀ offset ≤ m.size,
    Word.fits (m.lineCol offset).line = true ∧ Word.fits (m.lineCol offset).col = true
  /-- A line does not start behind its offsets, so columns are no negative numbers. -/
  column : ∀ offset, m.starts[(m.lineCol offset).line]?.getD 0 ≤ offset
  /-- There is a newline before every line but the first. -/
  newline : ∀ line next, m.starts[line + 1]? = some next → 0 < next
  /-- Where the sum of a line start and a column is no word, there is no offset. -/
  sum : ∀ place start, m.starts[place.line]? = some start →
    Word.fits (start + place.col) = false → m.offset? place = none

theorem inWords (text : String) (h : Text.size text < 4294967295) : (ofText text).InWords := by
  have hfits : ∀ n, n ≤ Text.size text → Word.fits n = true := by
    intro n hn
    have hlt : n < Word.bound := Nat.lt_of_le_of_lt hn (Nat.lt_trans h (by decide))
    exact decide_eq_true hlt
  refine ⟨hfits _ (Nat.le_refl _), ?_, ?_, start_line_le text, ?_, ?_⟩
  · intro start hstart
    rcases List.mem_cons.mp hstart with rfl | hstart
    · exact hfits 0 (Nat.zero_le _)
    · have hle := (startsAfter_bounds hstart).2
      rw [String.ofList_toList, Nat.zero_add] at hle
      exact hfits start hle
  · intro offset hle
    have hcol : ((ofText text).lineCol offset).col ≤ offset := Nat.sub_le _ _
    exact ⟨hfits _ (lineCol_line_le text offset), hfits _ (Nat.le_trans hcol hle)⟩
  · intro line next hnext
    exact Nat.zero_lt_of_lt (starts_lt text (i := 0) rfl hnext (Nat.succ_pos line))
  · intro place start hstart hsum
    by_contra hsome
    obtain ⟨offset, hoffset⟩ := Option.ne_none_iff_exists'.mp hsome
    have hle := (lineCol_offset? text hoffset).1
    obtain ⟨start', hstart', hcheck⟩ := Option.bind_eq_some_iff.mp hoffset
    obtain rfl := Option.some.inj (hstart.symm.trans hstart')
    obtain ⟨-, hvalue⟩ := Option.ite_none_right_eq_some.mp hcheck
    obtain rfl := Option.some.inj hvalue
    rw [hfits _ hle] at hsum
    simp at hsum

end LineMap

/-! ### Regions -/

/-- The region is that of a range of the text: its ends are the places behind the bytes before the
ends of the range. -/
structure Region.IsOf (region : Region) (text : String) (range : TextRange) : Prop where
  start : region.start = .behind ((Text.bytes text).take range.start)
  stop : region.stop = .behind ((Text.bytes text).take range.stop)

namespace LineMap

theorem region_isOf (text : String) {range : TextRange} (hle : range.start ≤ range.stop)
    (hstop : range.stop ≤ Text.size text) : ((ofText text).region range).IsOf text range where
  start := lineCol_eq_behind text (Nat.le_trans hle hstop)
  stop := lineCol_eq_behind text hstop

/-! ### The places of a text -/

/-- **The offsets of a text and its places are in one-to-one correspondence, in the same order, and
the place of an offset is the one behind the bytes before it.** -/
theorem places_match {text : String} (h : Text.size text < 4294967295) :
    (ofText text).InWords ∧
      (∀ offset ≤ Text.size text,
        (ofText text).lineCol offset = .behind ((Text.bytes text).take offset) ∧
        (ofText text).offset? ((ofText text).lineCol offset) = some offset) ∧
      (∀ place offset, (ofText text).offset? place = some offset →
        offset ≤ Text.size text ∧ (ofText text).lineCol offset = place) ∧
      (∀ place, (ofText text).offset? place = none ↔
        ∀ offset ≤ Text.size text, (ofText text).lineCol offset ≠ place) ∧
      ∀ a b, a < b → b ≤ Text.size text →
        ((ofText text).lineCol a).Before ((ofText text).lineCol b) := by
  refine ⟨inWords text h, ?_, ?_, offset?_eq_none_iff text, ?_⟩
  · intro offset hle
    exact ⟨lineCol_eq_behind text hle, offset?_lineCol text hle⟩
  · intro place offset hoffset
    exact lineCol_offset? text hoffset
  · intro a b hlt _
    exact lineCol_lt text hlt

/-- A letter of two bytes, an empty line, and a newline at the end. -/
def uneven : String := "é\n\nab\n"

theorem places_match_uneven :
    Text.size uneven < 4294967295 ∧ (ofText uneven).InWords ∧
      (ofText uneven).lineCol 1 = LineCol.behind ((Text.bytes uneven).take 1) ∧
      LineCol.behind ((Text.bytes uneven).take 1) = ⟨0, 1⟩ ∧
      (ofText uneven).offset? ⟨3, 0⟩ = some 7 ∧ (ofText uneven).lineCol 7 = ⟨3, 0⟩ ∧
      (ofText uneven).offset? ⟨0, 4294967295⟩ = none ∧
      (∀ offset ≤ Text.size uneven, (ofText uneven).lineCol offset ≠ ⟨0, 4294967295⟩) ∧
      ((ofText uneven).lineCol 2).Before ((ofText uneven).lineCol 3) := by
  have hsize : Text.size uneven < 4294967295 := by decide
  have hend : (ofText uneven).offset? ⟨3, 0⟩ = some 7 := by decide +kernel
  have hnone : (ofText uneven).offset? ⟨0, 4294967295⟩ = none := by decide +kernel
  obtain ⟨hwords, hplaces, hback, houtside, horder⟩ := places_match hsize
  exact ⟨hsize, hwords, (hplaces 1 (by decide)).1, by decide +kernel, hend, (hback _ _ hend).2, hnone,
    (houtside _).mp hnone, horder 2 3 (by decide) (by decide)⟩

end LineMap

end LpcSymbols
