import Markup.Proofs.Expressions
import Markup.Proofs.Readback
import Markup.Proofs.Refusal
import Mathlib.Data.List.DropRight

/-! Lines and columns. Offsets are looked up in a table of line starts, and what is found is what a
walk over the text comes to: the line of an offset is the number of newline bytes before it, also
inside a character. Between characters the column is the number of characters behind the last
newline, so a later offset has a later line, or the same line and a later column. -/
namespace Markup

namespace Text

variable {n : Nat} {cs : List Char}

theorem fit_prefix (n : Nat) (cs : List Char) : fit n cs <+: cs := by
  induction cs generalizing n with
  | nil => simp [fit]
  | cons c cs ih =>
    rw [fit]
    split
    case isTrue => exact (List.prefix_cons_inj c).mpr (ih (n - c.utf8Size))
    case isFalse => exact List.nil_prefix

/-- A newline is a byte of its own, and no other character has this byte in its form. -/
theorem count_utf8EncodeChar (c : Char) :
    (String.utf8EncodeChar c).count 10 = if c = '\n' then 1 else 0 := by
  split
  case isTrue h => rw [h]; rfl
  case isFalse h =>
    exact List.count_eq_zero.mpr fun hmem =>
      h (eq_of_mem_utf8EncodeChar (x := '\n') (by decide) hmem)

theorem notMem_utf8EncodeChar {c : Char} (h : c ≠ '\n') : 10 ∉ String.utf8EncodeChar c :=
  fun hmem => h (eq_of_mem_utf8EncodeChar (x := '\n') (by decide) hmem)

/-- The first `n` bytes are those of the characters that fit, and some of the next character if it
is not cut off whole. A newline has but one byte, so it is never cut in two. -/
theorem exists_take_bytes (n : Nat) (cs : List Char) :
    ∃ rest, (bytes cs).take n = bytes (fit n cs) ++ rest ∧ 10 ∉ rest := by
  induction cs generalizing n with
  | nil => exact ⟨[], by simp [bytes, fit], by simp⟩
  | cons c cs ih =>
    have hlength := String.length_utf8EncodeChar c
    rw [bytes_cons, List.take_append, hlength, fit]
    split
    case isTrue h =>
      obtain ⟨rest, hrest, hnot⟩ := ih (n - c.utf8Size)
      refine ⟨rest, ?_, hnot⟩
      rw [List.take_of_length_le (by omega), hrest, bytes_cons, List.append_assoc]
    case isFalse h =>
      refine ⟨(String.utf8EncodeChar c).take n, ?_, ?_⟩
      · rw [Nat.sub_eq_zero_of_le (by omega), List.take_zero, List.append_nil]
        rfl
      · by_cases hc : c = '\n'
        case pos =>
          have hone : '\n'.utf8Size = 1 := by decide
          rw [hc, hone] at h
          rw [show n = 0 by omega]
          simp
        case neg => exact fun hmem => notMem_utf8EncodeChar hc (List.mem_of_mem_take hmem)

theorem count_bytes (cs : List Char) : (bytes cs).count 10 = cs.count '\n' := by
  induction cs with
  | nil => rfl
  | cons c cs ih =>
    rw [bytes_cons, List.count_append, count_utf8EncodeChar, ih, List.count_cons, Nat.add_comm]
    simp

/-- The newline bytes among the first `n` bytes are the newlines among the characters that fit. -/
theorem count_take_bytes (n : Nat) (cs : List Char) :
    ((bytes cs).take n).count 10 = (fit n cs).count '\n' := by
  obtain ⟨rest, hrest, hnot⟩ := exists_take_bytes n cs
  rw [hrest, List.count_append, count_bytes, List.count_eq_zero.mpr hnot, Nat.add_zero]

theorem fit_min (n : Nat) (cs : List Char) : fit (min n (byteLength cs)) cs = fit n cs := by
  rcases Nat.le_total n (byteLength cs) with h | h
  · rw [Nat.min_eq_left h]
  · rw [Nat.min_eq_right h, fit_of_byteLength_le h, fit_of_byteLength_le (Nat.le_refl _)]

end Text

namespace Source

variable {src : Source} {o : Nat} {before after : List Char}

/-- Walk over `n` bytes of a text from a line and a column, `width` bytes into the line. The result
is what is left of `n` at the end of the text, with the line and the column reached. Inside a
character the column counts bytes. -/
def walk : Nat → List Char → Nat → Nat → Nat → Nat × Nat × Nat
  | n, [], line, col, _ => (n, line, col)
  | n, c :: cs, line, col, width =>
    if c.utf8Size ≤ n then
      if c = '\n' then walk (n - c.utf8Size) cs (line + 1) 0 0
      else walk (n - c.utf8Size) cs line (col + 1) (width + c.utf8Size)
    else (0, line, if n = 0 then col else width + n)

def lastLine : List Char → List Char
  | [] => []
  | c :: cs => if c = '\n' ∨ '\n' ∈ cs then lastLine cs else c :: cs

theorem lastLine_of_notMem {cs : List Char} (h : '\n' ∉ cs) : lastLine cs = cs := by
  cases cs with
  | nil => rfl
  | cons c cs =>
    simp only [List.mem_cons, not_or] at h
    simp [lastLine, Ne.symm h.1, h.2]

theorem walk_eq (n : Nat) (cs : List Char) (line col width : Nat) :
    walk n cs line col width =
      (n - Text.byteLength cs, line + (Text.fit n cs).count '\n',
        if min n (Text.byteLength cs) = Text.byteLength (Text.fit n cs) then
          if '\n' ∈ Text.fit n cs then (lastLine (Text.fit n cs)).length
          else col + (Text.fit n cs).length
        else
          (if '\n' ∈ Text.fit n cs then Text.byteLength (lastLine (Text.fit n cs))
          else width + Text.byteLength (Text.fit n cs)) +
            (min n (Text.byteLength cs) - Text.byteLength (Text.fit n cs))) := by
  induction cs generalizing n line col width with
  | nil => simp [walk, Text.fit]
  | cons c cs ih =>
    by_cases hc : c.utf8Size ≤ n
    case neg =>
      have hpos := c.utf8Size_pos
      have hmin : min n (c.utf8Size + Text.byteLength cs) = n := by omega
      have hsub : n - (c.utf8Size + Text.byteLength cs) = 0 := by omega
      simp [walk, Text.fit, hc, hmin, hsub]
    case pos =>
      have hsub : n - c.utf8Size - Text.byteLength cs = n - (c.utf8Size + Text.byteLength cs) := by
        omega
      have hmin : min n (c.utf8Size + Text.byteLength cs) =
          c.utf8Size + min (n - c.utf8Size) (Text.byteLength cs) := by
        omega
      have hle := Text.byteLength_fit_le (n - c.utf8Size) cs
      have hext (a b : Nat) : c.utf8Size + a - (c.utf8Size + b) = a - b := by omega
      by_cases hn : c = '\n'
      case pos =>
        subst hn
        simp only [walk, hc, ↓reduceIte, ih, Text.fit, Text.byteLength_cons, hsub, hmin, hext,
          List.count_cons_self, List.mem_cons, true_or, lastLine, Nat.add_left_cancel_iff]
        refine Prod.ext rfl (Prod.ext (by simp; omega) ?_)
        by_cases hm : '\n' ∈ Text.fit (n - '\n'.utf8Size) cs
        case pos => simp [hm]
        case neg => simp [hm, lastLine_of_notMem hm]
      case neg =>
        simp only [walk, hc, hn, ↓reduceIte, ih, Text.fit, Text.byteLength_cons, hsub, hmin, hext,
          List.mem_cons, Ne.symm hn, false_or, lastLine, Nat.add_left_cancel_iff,
          List.count_cons_of_ne hn]
        refine Prod.ext rfl (Prod.ext rfl ?_)
        by_cases hm : '\n' ∈ Text.fit (n - c.utf8Size) cs
        case pos => simp [hm]
        case neg => simp only [hm, ↓reduceIte, List.length_cons]; split <;> omega

theorem rtakeWhile_append_of_pos {α : Type} {p : α → Bool} {as bs : List α}
    (h : ∀ b ∈ bs, p b = true) : (as ++ bs).rtakeWhile p = as.rtakeWhile p ++ bs := by
  rw [List.rtakeWhile, List.reverse_append, List.takeWhile_append_of_pos, List.reverse_append,
    List.reverse_reverse, List.rtakeWhile]
  exact fun b hb => h b (List.mem_reverse.mp hb)

theorem ne_of_notMem {cs : List Char} (h : '\n' ∉ cs) : ∀ x ∈ cs, decide (x ≠ '\n') = true := by
  intro x hx
  rw [decide_eq_true_iff]
  exact ne_of_mem_of_not_mem hx h

theorem lastLine_eq_rtakeWhile (cs : List Char) : lastLine cs = cs.rtakeWhile (· ≠ '\n') := by
  induction cs with
  | nil => rfl
  | cons c cs ih =>
    rw [lastLine, ih, List.rtakeWhile, List.rtakeWhile, List.reverse_cons, List.takeWhile_append]
    by_cases hm : '\n' ∈ cs
    case pos =>
      have hlt : (cs.reverse.takeWhile (· ≠ '\n')).length ≠ cs.reverse.length := by
        intro hlength
        have hall := List.takeWhile_eq_self_iff.mp
          ((List.takeWhile_sublist _).eq_of_length hlength)
        simpa using hall '\n' (List.mem_reverse.mpr hm)
      rw [if_pos (.inr hm), if_neg hlt]
    case neg =>
      have hall : ∀ x ∈ cs.reverse, decide (x ≠ '\n') = true :=
        fun x hx => ne_of_notMem hm x (List.mem_reverse.mp hx)
      rw [List.takeWhile_eq_self_iff.mpr hall, if_pos rfl]
      by_cases hc : c = '\n' <;> simp [hc, hm]

theorem length_lastLine_le (cs : List Char) : (lastLine cs).length ≤ cs.length := by
  rw [lastLine_eq_rtakeWhile]
  exact (List.rtakeWhile_suffix _ cs).length_le

/-- The bytes behind the last newline byte are those of the characters behind the last newline. -/
theorem rtakeWhile_bytes (cs : List Char) :
    (Text.bytes cs).rtakeWhile (· ≠ 10) = Text.bytes (cs.rtakeWhile (· ≠ '\n')) := by
  induction cs using List.reverseRecOn with
  | nil => rfl
  | append_singleton cs c ih =>
    have hsingle : Text.bytes [c] = String.utf8EncodeChar c := by
      rw [Text.bytes_cons]
      exact List.append_nil _
    rw [Text.bytes_append, hsingle]
    by_cases hc : c = '\n'
    case pos =>
      rw [List.rtakeWhile_concat_neg _ _ _ (by simp [hc]), hc]
      exact List.rtakeWhile_concat_neg _ _ _ (by simp)
    case neg =>
      rw [List.rtakeWhile_concat_pos _ _ _ (by simp [hc]), Text.bytes_append, hsingle, ← ih]
      refine rtakeWhile_append_of_pos fun b hb => ?_
      rw [decide_eq_true_iff]
      exact ne_of_mem_of_not_mem hb (Text.notMem_utf8EncodeChar hc)

section Table

variable {n offset : Nat} {as bs : List UInt8}

theorem lineStartsFrom_append (n : Nat) (as bs : List UInt8) :
    lineStartsFrom n (as ++ bs) = lineStartsFrom n as ++ lineStartsFrom (n + as.length) bs := by
  induction as generalizing n with
  | nil => rfl
  | cons a as ih =>
    have hlength : n + (a :: as).length = n + 1 + as.length := by
      rw [List.length_cons]
      omega
    rw [List.cons_append, lineStartsFrom, lineStartsFrom, ih, hlength]
    split <;> rfl

theorem length_lineStartsFrom (n : Nat) (bs : List UInt8) :
    (lineStartsFrom n bs).length = bs.count 10 := by
  induction bs generalizing n with
  | nil => rfl
  | cons b bs ih =>
    rw [lineStartsFrom, List.count_cons]
    split
    case isTrue h => simp [h, ih]
    case isFalse h => simp [h, ih]

theorem lt_of_mem_lineStartsFrom {x : Nat} (h : x ∈ lineStartsFrom n bs) :
    n < x ∧ x ≤ n + bs.length := by
  induction bs generalizing n with
  | nil => simp [lineStartsFrom] at h
  | cons b bs ih =>
    have hrest : ∀ {m}, x ∈ lineStartsFrom (m + 1) bs → m < x ∧ x ≤ m + (b :: bs).length := by
      intro m hm
      have := ih hm
      rw [List.length_cons]
      omega
    rw [lineStartsFrom] at h
    split at h
    case isTrue =>
      rcases List.mem_cons.mp h with rfl | h
      · exact ⟨Nat.lt_succ_self n, by rw [List.length_cons]; omega⟩
      · exact hrest h
    case isFalse => exact hrest h

theorem getLast?_lineStartsFrom (n : Nat) (as : List UInt8) :
    (n :: lineStartsFrom n as).getLast? =
      some (n + as.length - (as.rtakeWhile (· ≠ 10)).length) := by
  induction as using List.reverseRecOn with
  | nil => simp [lineStartsFrom]
  | append_singleton as b ih =>
    rw [lineStartsFrom_append]
    by_cases hb : b = 10
    case pos =>
      rw [List.rtakeWhile_concat_neg _ _ _ (by simp [hb])]
      simp [lineStartsFrom, hb, List.getLast?_cons, Nat.add_assoc]
    case neg =>
      have hle := (List.rtakeWhile_suffix (fun x : UInt8 => decide (x ≠ 10)) as).length_le
      rw [List.rtakeWhile_concat_pos _ _ _ (by simp [hb])]
      simp only [lineStartsFrom, hb, ↓reduceIte, List.append_nil, ih, List.length_append,
        List.length_singleton]
      congr 1
      omega

/-- The search finds the lines that start at or before the offset: the first one, and one for each
newline byte before the offset. -/
theorem partitionPoint_lineStarts (src : Source) (hoffset : offset ≤ src.size) :
    partitionPoint (· ≤ offset) src.lineStarts =
      ((Text.bytes src.chars).take offset).count 10 + 1 := by
  have hlength : ((Text.bytes src.chars).take offset).length = offset := by
    rw [List.length_take, Text.length_bytes]
    exact Nat.min_eq_left hoffset
  have htable : src.lineStarts.toList =
      0 :: lineStartsFrom 0 ((Text.bytes src.chars).take offset) ++
      lineStartsFrom offset ((Text.bytes src.chars).drop offset) := by
    have happend := lineStartsFrom_append 0 ((Text.bytes src.chars).take offset)
      ((Text.bytes src.chars).drop offset)
    rw [List.take_append_drop, hlength, Nat.zero_add] at happend
    rw [lineStarts, happend, List.cons_append]
  have hfront : ∀ x ∈ 0 :: lineStartsFrom 0 ((Text.bytes src.chars).take offset), x ≤ offset := by
    rw [List.forall_mem_cons]
    refine ⟨Nat.zero_le _, fun x hx => ?_⟩
    have hx := (lt_of_mem_lineStartsFrom hx).2
    omega
  have hback : ∀ x ∈ lineStartsFrom offset ((Text.bytes src.chars).drop offset), ¬ x ≤ offset :=
    fun x hx => Nat.not_le.mpr (lt_of_mem_lineStartsFrom hx).1
  have hcount := length_lineStartsFrom 0 ((Text.bytes src.chars).take offset)
  obtain ⟨hsize, hbelow, habove⟩ := partitionPoint_spec (· ≤ offset) src.lineStarts
  simp only [← Array.getElem?_toList, htable] at hbelow habove
  rw [← Array.length_toList, htable, List.length_append] at hsize
  generalize partitionPoint (· ≤ offset) src.lineStarts = r at *
  generalize hA : 0 :: lineStartsFrom 0 ((Text.bytes src.chars).take offset) = front at *
  have hfrontLength : front.length = ((Text.bytes src.chars).take offset).count 10 + 1 := by
    rw [← hA, List.length_cons, hcount]
  rw [← hfrontLength]
  rcases Nat.lt_trichotomy r front.length with hlt | heq | hgt
  · have hentry := List.getElem?_eq_getElem hlt
    have hfalse := habove front[r] (by rw [List.getElem?_append_left hlt, hentry])
    exact absurd (hfront _ (List.getElem_mem hlt)) (by simpa using hfalse)
  · exact heq
  · obtain ⟨x, hx, htrue⟩ := hbelow (by omega)
    rw [List.getElem?_append_right (by omega)] at hx
    exact absurd (by simpa using htrue) (hback x (List.mem_of_getElem? hx))

theorem getElem?_lineStarts (src : Source) (hoffset : offset ≤ src.size) :
    src.lineStarts[((Text.bytes src.chars).take offset).count 10]? =
      some (offset - (((Text.bytes src.chars).take offset).rtakeWhile (· ≠ 10)).length) := by
  have hlength : ((Text.bytes src.chars).take offset).length = offset := by
    rw [List.length_take, Text.length_bytes]
    exact Nat.min_eq_left hoffset
  have hlast := getLast?_lineStartsFrom 0 ((Text.bytes src.chars).take offset)
  rw [hlength, Nat.zero_add, List.getLast?_eq_getElem?, List.length_cons, length_lineStartsFrom,
    Nat.add_sub_cancel] at hlast
  have happend := lineStartsFrom_append 0 ((Text.bytes src.chars).take offset)
    ((Text.bytes src.chars).drop offset)
  rw [List.take_append_drop] at happend
  rw [← Array.getElem?_toList, lineStarts, happend, ← List.cons_append,
    List.getElem?_append_left, hlast]
  rw [List.length_cons, length_lineStartsFrom]
  exact Nat.lt_succ_self _

end Table

section Walk

variable {k start : Nat} {f : List Char}

theorem rdropWhile_append_lastLine (f : List Char) :
    f.rdropWhile (· ≠ '\n') ++ lastLine f = f := by
  rw [lastLine_eq_rtakeWhile]
  exact List.rdropWhile_append_rtakeWhile

theorem byteLength_lastLine_le (f : List Char) :
    Text.byteLength (lastLine f) ≤ Text.byteLength f := by
  have hlength := congrArg Text.byteLength (rdropWhile_append_lastLine f)
  rw [Text.byteLength_append] at hlength
  omega

theorem between?_lastLine (hfront : f <+: src.chars) (hk : k = Text.byteLength f)
    (hstart : start = Text.byteLength f - Text.byteLength (lastLine f)) :
    src.between? start k = some (lastLine f) := by
  obtain ⟨after, hafter⟩ := hfront
  have hf := rdropWhile_append_lastLine f
  have hlength := congrArg Text.byteLength hf
  rw [Text.byteLength_append] at hlength
  refine between?_eq_some_iff.mpr ⟨f.rdropWhile (· ≠ '\n'), after, by rw [hf, hafter], ?_, ?_⟩
  · omega
  · rw [hf, hk]

theorem between?_of_ne (hk : k ≠ Text.byteLength (Text.fit k src.chars)) :
    src.between? start k = none := by
  cases hread : src.between? start k with
  | none => rfl
  | some cs =>
    obtain ⟨before, after, hsrc, -, hlength⟩ := between?_eq_some_iff.mp hread
    refine absurd ?_ hk
    rw [← hlength, hsrc, Text.fit_append]

theorem walk_zero_eq (o : Nat) (cs : List Char) :
    walk o cs 0 0 0 = (o - Text.byteLength cs, (Text.fit o cs).count '\n',
      if min o (Text.byteLength cs) = Text.byteLength (Text.fit o cs) then
        (lastLine (Text.fit o cs)).length
      else
        Text.byteLength (lastLine (Text.fit o cs)) +
          (min o (Text.byteLength cs) - Text.byteLength (Text.fit o cs))) := by
  rw [walk_eq]
  by_cases hm : '\n' ∈ Text.fit o cs
  case pos => simp [hm]
  case neg => simp [hm, lastLine_of_notMem hm]

/-- What is looked up in the table of line starts is what a walk over the text comes to. -/
theorem location_eq_walk (src : Source) (o : Nat) :
    src.location o =
      { offset := o - (walk o src.chars 0 0 0).1
        line := (walk o src.chars 0 0 0).2.1.toUInt32
        col := (walk o src.chars 0 0 0).2.2.toUInt32 } := by
  obtain ⟨line, start, col, hlocate, hline, hstart, hcol⟩ := src.exists_locate o
  have hoffset : min o src.size ≤ src.size := Nat.min_le_right _ _
  rw [partitionPoint_lineStarts src hoffset, Nat.add_right_cancel_iff] at hline
  rw [hline, getElem?_lineStarts src hoffset, Option.some.injEq] at hstart
  have hfit : Text.fit (min o src.size) src.chars = Text.fit o src.chars := Text.fit_min o src.chars
  rw [Text.count_take_bytes, hfit] at hline
  have hwidth : (((Text.bytes src.chars).take (min o src.size)).rtakeWhile (· ≠ 10)).length =
      Text.byteLength (lastLine (Text.fit o src.chars)) +
        (min o src.size - Text.byteLength (Text.fit o src.chars)) := by
    obtain ⟨rest, hrest, hnot⟩ := Text.exists_take_bytes (min o src.size) src.chars
    have hlength := congrArg List.length hrest
    rw [hfit] at hrest hlength
    rw [List.length_take, Text.length_bytes, List.length_append, Text.length_bytes] at hlength
    have hrun : ∀ b ∈ rest, decide (b ≠ 10) = true := by
      intro b hb
      rw [decide_eq_true_iff]
      exact ne_of_mem_of_not_mem hb hnot
    rw [hrest, rtakeWhile_append_of_pos hrun, rtakeWhile_bytes, List.length_append,
      Text.length_bytes, lastLine_eq_rtakeWhile]
    have hsize : src.size = Text.byteLength src.chars := rfl
    omega
  have hlast := byteLength_lastLine_le (Text.fit o src.chars)
  have hle := Text.byteLength_fit_le (min o src.size) src.chars
  rw [hfit] at hle
  rw [hwidth] at hstart
  rw [locate_eq_ok, Except.ok.injEq] at hlocate
  rw [hlocate, walk_zero_eq, hline, hcol]
  simp only [← show src.size = Text.byteLength src.chars from rfl]
  refine Location.mk.injEq .. ▸ ⟨by omega, rfl, congrArg Nat.toUInt32 ?_⟩
  split
  case isTrue hk =>
    rw [between?_lastLine (Text.fit_prefix o src.chars) hk (by omega)]
    rfl
  case isFalse hk =>
    rw [between?_of_ne (by rwa [hfit])]
    simp only [Option.map_none, Option.getD_none]
    omega

end Walk

theorem toNat_line_location (hsize : src.size < UInt32.size) :
    (src.location o).line.toNat = (Text.fit o src.chars).count '\n' := by
  have hfit := (Text.fit_prefix o src.chars).length_le
  have hcount := List.count_le_length (a := '\n') (l := Text.fit o src.chars)
  have hchars := Text.length_le_byteLength src.chars
  have hbound : (Text.fit o src.chars).count '\n' < UInt32.size := by
    rw [size] at hsize
    omega
  simp only [location_eq_walk, walk_eq, Nat.zero_add, Nat.toUInt32_eq, UInt32.toNat_ofNat',
    Nat.mod_eq_of_lt hbound]

theorem toNat_col_location (hsize : src.size < UInt32.size) (hsrc : src.chars = before ++ after) :
    (src.location (Text.byteLength before)).col.toNat = (before.rtakeWhile (· ≠ '\n')).length := by
  have hlast := length_lastLine_le before
  have hchars := Text.length_le_byteLength src.chars
  have hmin : min (Text.byteLength before) (Text.byteLength src.chars) =
      Text.byteLength before := by
    rw [hsrc, Text.byteLength_append]
    omega
  have hbound : (lastLine before).length < UInt32.size := by
    rw [size, hsrc, Text.byteLength_append] at hsize
    have := Text.length_le_byteLength before
    omega
  have hcol : (if '\n' ∈ before then (lastLine before).length else before.length) =
      (lastLine before).length := by
    split
    case isTrue => rfl
    case isFalse hm => rw [lastLine_of_notMem hm]
  have hfit : Text.fit (Text.byteLength before) src.chars = before := by
    rw [hsrc, Text.fit_append]
  simp only [location_eq_walk, walk_eq, hfit, hmin, ↓reduceIte, Nat.zero_add, hcol]
  rw [Nat.toUInt32_eq, UInt32.toNat_ofNat', Nat.mod_eq_of_lt hbound, lastLine_eq_rtakeWhile]

/-- Between characters, later offsets have later lines, or later columns in the same line. -/
theorem location_lex (hsize : src.size < UInt32.size) {o₁ o₂ : Nat} (h₁ : src.IsBoundary o₁)
    (h₂ : src.IsBoundary o₂) (hlt : o₁ < o₂) :
    Prod.Lex (· < ·) (· < ·) ((src.location o₁).line, (src.location o₁).col)
      ((src.location o₂).line, (src.location o₂).col) := by
  obtain ⟨mid, before, after, hsrc, rfl, rfl⟩ :=
    (isBoundary_iff_reads.mp h₁).between (isBoundary_iff_reads.mp h₂) (Nat.le_of_lt hlt)
  rw [← Text.byteLength_append]
  have hsrc' : src.chars = before ++ (mid ++ after) := by rw [hsrc, List.append_assoc]
  have hline₁ := toNat_line_location (o := Text.byteLength before) hsize
  have hline₂ := toNat_line_location (o := Text.byteLength (before ++ mid)) hsize
  have hcol₁ := toNat_col_location hsize hsrc'
  have hcol₂ := toNat_col_location hsize hsrc
  rw [hsrc', Text.fit_append] at hline₁
  rw [hsrc, Text.fit_append, List.count_append] at hline₂
  by_cases hm : '\n' ∈ mid
  case pos =>
    have hpos := List.count_pos_iff.mpr hm
    refine .left _ _ (UInt32.lt_iff_toNat_lt.mpr ?_)
    omega
  case neg =>
    have hzero : mid.count '\n' = 0 := List.count_eq_zero.mpr hm
    have hsame : (src.location (Text.byteLength before)).line =
        (src.location (Text.byteLength (before ++ mid))).line := by
      rw [← UInt32.toNat_inj]
      omega
    have hcols : ((before ++ mid).rtakeWhile (· ≠ '\n')).length =
        (before.rtakeWhile (· ≠ '\n')).length + mid.length := by
      rw [rtakeWhile_append_of_pos (ne_of_notMem hm), List.length_append]
    have hmid : 0 < mid.length := by
      rw [List.length_pos_iff]
      rintro rfl
      simp at hlt
    rw [hsame]
    refine .right _ (UInt32.lt_iff_toNat_lt.mpr ?_)
    omega

theorem shift_shift_neg {l : Location} {d : Int} (hl : src.location o = l)
    (hlow : 0 ≤ l.offset + d) (hhigh : l.offset + d ≤ src.size) :
    src.shift (src.shift l d) (-d) = l := by
  have hoffset : (src.shift l d).offset = (l.offset + d).toNat := by
    rw [shift, location_offset]
    omega
  have hback : ((src.shift l d).offset + -d : Int).toNat = l.offset := by
    rw [hoffset]
    omega
  rw [shift, hback, ← hl, location_offset_location]

/-- Where an offset lies: every offset is found in the table of line starts, and past the end it is
the end of the text. The line counts the newline bytes before it, and between characters the column
counts the characters behind the last newline. There lines and columns are ordered as the offsets
are, and a location that is moved within the text and back again is the same, whether it lies
between characters or not. -/
theorem offsets_located (src : Source) (hsize : src.size < UInt32.size) :
    (∀ o, src.locate o = .ok (src.location o) ∧
      (src.location o).offset = min o src.size ∧
      (src.location o).line.toNat =
        ((Text.bytes src.chars).take (src.location o).offset).count 10 ∧
      ∀ before after, src.chars = before ++ after →
        Text.byteLength before = (src.location o).offset →
          (src.location o).col.toNat = (before.rtakeWhile (· ≠ '\n')).length) ∧
      (∀ o₁ o₂, src.IsBoundary o₁ → src.IsBoundary o₂ → o₁ < o₂ →
        Prod.Lex (· < ·) (· < ·) ((src.location o₁).line, (src.location o₁).col)
          ((src.location o₂).line, (src.location o₂).col)) ∧
      ∀ l, (∃ o, src.location o = l) → ∀ d : Int, 0 ≤ l.offset + d → l.offset + d ≤ src.size →
        src.shift (src.shift l d) (-d) = l := by
  refine ⟨?_, fun o₁ o₂ h₁ h₂ hlt => location_lex hsize h₁ h₂ hlt, ?_⟩
  · intro o
    refine ⟨src.locate_eq_ok o, ?_⟩
    rw [← location_offset_location src o]
    generalize hoffset : (src.location o).offset = offset
    have hle : offset ≤ src.size := by
      rw [← hoffset, location_offset]
      exact Nat.min_le_right _ _
    rw [location_offset, Nat.min_eq_left hle, Text.count_take_bytes]
    refine ⟨by rw [← hoffset, location_offset], toNat_line_location hsize, ?_⟩
    rintro before after hsrc rfl
    exact toNat_col_location hsize hsrc
  · rintro l ⟨o, hl⟩ d hlow hhigh
    exact shift_shift_neg hl hlow hhigh

/-- Two lines with characters of one, two and three bytes. -/
def accentedLines : Source := .ofString "aé\n€b"

theorem offsets_located_accentedLines :
    accentedLines.size < UInt32.size ∧ accentedLines.lineStarts = #[0, 4] ∧
      accentedLines.locate 7 = .ok ⟨7, 1, 1⟩ ∧ accentedLines.locate 6 = .ok ⟨6, 1, 2⟩ ∧
      (accentedLines.location 12).offset = min 12 accentedLines.size ∧
      (accentedLines.location 5).line.toNat =
        ((Text.bytes accentedLines.chars).take (accentedLines.location 5).offset).count 10 ∧
      (accentedLines.location 7).col.toNat =
        (['a', 'é', '\n', '€'].rtakeWhile (· ≠ '\n')).length ∧
      accentedLines.IsBoundary 3 ∧ accentedLines.IsBoundary 7 ∧
      Prod.Lex (· < ·) (· < ·) ((accentedLines.location 3).line, (accentedLines.location 3).col)
        ((accentedLines.location 7).line, (accentedLines.location 7).col) ∧
      accentedLines.shift (accentedLines.shift (accentedLines.location 5) 3) (-3) =
        accentedLines.location 5 := by
  have hsize : accentedLines.size < UInt32.size := by decide
  have hthree : accentedLines.IsBoundary 3 := ⟨['a', 'é'], ['\n', '€', 'b'], by decide, by decide⟩
  have hseven : accentedLines.IsBoundary 7 := ⟨['a', 'é', '\n', '€'], ['b'], by decide, by decide⟩
  obtain ⟨hplaces, hordered, hback⟩ := offsets_located accentedLines hsize
  refine ⟨hsize, by decide, by decide, by decide, (hplaces 12).2.1, (hplaces 5).2.2.1, ?_, hthree,
    hseven, ?_, ?_⟩
  · exact (hplaces 7).2.2.2 ['a', 'é', '\n', '€'] ['b'] (by decide) (by decide)
  · exact hordered 3 7 hthree hseven (by decide)
  · exact hback _ ⟨5, rfl⟩ 3 (by decide) (by decide)

end Source

end Markup
