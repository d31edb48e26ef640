import Markup.Proofs.Reading
import Markup.Proofs.Repacking

/-! Expressions in text. What the segments of a text are can be told without searching: texts and
expressions take turns, together they are the whole text, a text before an expression reaches to the
first opening pair, an expression to the first closing pair behind its first character, and no
expression is left in the last text. Only one list of segments is like this. -/
namespace Markup

namespace Text

variable {x : Char} {cs : List Char} {p : Nat}

/-- The text `xs` stands in the text `cs` from byte `p` on. -/
def StandsAt (xs cs : List Char) (p : Nat) : Prop := bytes xs <+: (bytes cs).drop p

theorem standsAt_cons_add {xs : List Char} {c : Char} :
    StandsAt xs (c :: cs) (c.utf8Size + p) ↔ StandsAt xs cs p := by
  rw [StandsAt, StandsAt, bytes_cons, ← List.drop_drop, ← String.length_utf8EncodeChar,
    List.drop_left]

theorem StandsAt.le {xs : List Char} (hxs : xs ≠ []) (h : StandsAt xs (cs ++ xs) p) :
    p ≤ byteLength cs := by
  have hpos : byteLength xs ≠ 0 := fun hzero => hxs (eq_nil_of_byteLength_eq_zero hzero)
  have hlength := h.length_le
  rw [List.length_drop, length_bytes, length_bytes, byteLength_append] at hlength
  omega

theorem utf8EncodeChar_of_lt (hx : x.toNat < 128) :
    String.utf8EncodeChar x = [UInt8.ofNat x.toNat] := by
  have hle : x.val.toNat ≤ 127 := Nat.le_of_lt_succ hx
  simp only [String.utf8EncodeChar, hle, ↓reduceIte]
  rfl

/-- The bytes of a longer form all have their highest bit set. -/
theorem le_of_mem_utf8EncodeChar {b : UInt8} (hx : 128 ≤ x.toNat)
    (hb : b ∈ String.utf8EncodeChar x) : 128 ≤ b.toNat := by
  have hlt : ¬ x.val.toNat ≤ 127 := by
    have hval : x.toNat = x.val.toNat := rfl
    omega
  rw [String.utf8EncodeChar, if_neg hlt] at hb
  split at hb
  · simp only [List.mem_cons, List.not_mem_nil, or_false] at hb
    rcases hb with rfl | rfl <;> rw [UInt8.toNat_ofNat'] <;> omega
  · split at hb
    · simp only [List.mem_cons, List.not_mem_nil, or_false] at hb
      rcases hb with rfl | rfl | rfl <;> rw [UInt8.toNat_ofNat'] <;> omega
    · simp only [List.mem_cons, List.not_mem_nil, or_false] at hb
      rcases hb with rfl | rfl | rfl | rfl <;> rw [UInt8.toNat_ofNat'] <;> omega

theorem eq_of_mem_utf8EncodeChar {c : Char} (hx : x.toNat < 128)
    (h : UInt8.ofNat x.toNat ∈ String.utf8EncodeChar c) : c = x := by
  have hbyte : ∀ {y : Char}, y.toNat < 128 → (UInt8.ofNat y.toNat).toNat = y.toNat := by
    intro y hy
    rw [UInt8.toNat_ofNat', Nat.mod_eq_of_lt (by omega)]
  by_cases hc : c.toNat < 128
  case pos =>
    rw [utf8EncodeChar_of_lt hc, List.mem_singleton] at h
    have hsame := congrArg UInt8.toNat h
    rw [hbyte hx, hbyte hc] at hsame
    exact Char.toNat_inj.mp hsame.symm
  case neg =>
    have hle := le_of_mem_utf8EncodeChar (Nat.le_of_not_lt hc) h
    rw [hbyte hx] at hle
    omega

theorem exists_append_cons_of_getElem? (hx : x.toNat < 128)
    (h : (bytes cs)[p]? = some (UInt8.ofNat x.toNat)) :
    ∃ before after, cs = before ++ x :: after ∧ byteLength before = p := by
  induction cs generalizing p with
  | nil => simp [bytes] at h
  | cons c cs ih =>
    rw [bytes_cons] at h
    by_cases hp : p < c.utf8Size
    case pos =>
      rw [List.getElem?_append_left (by rwa [String.length_utf8EncodeChar])] at h
      obtain rfl := eq_of_mem_utf8EncodeChar hx (List.mem_of_getElem? h)
      have hsize : c.utf8Size = 1 := by
        rw [← String.length_utf8EncodeChar, utf8EncodeChar_of_lt hx]
        rfl
      exact ⟨[], cs, rfl, by rw [byteLength_nil]; omega⟩
    case neg =>
      rw [Nat.not_lt] at hp
      rw [List.getElem?_append_right (by rwa [String.length_utf8EncodeChar]),
        String.length_utf8EncodeChar] at h
      obtain ⟨before, after, rfl, hlength⟩ := ih h
      exact ⟨c :: before, after, rfl, by rw [byteLength_cons, hlength]; omega⟩

/-- A search for the bytes of a pair finds the places where the pair stands, and no others. -/
theorem standsAt_pair_iff (hx : x.toNat < 128) : StandsAt [x, x] cs p ↔
    ∃ before after, cs = before ++ x :: x :: after ∧ byteLength before = p := by
  have hpair : bytes [x, x] = [UInt8.ofNat x.toNat, UInt8.ofNat x.toNat] := by
    simp [bytes, utf8EncodeChar_of_lt hx]
  rw [StandsAt, hpair]
  constructor
  · rintro ⟨rest, hrest⟩
    have hfirst : (bytes cs)[p]? = some (UInt8.ofNat x.toNat) := by
      rw [← Nat.add_zero p, ← List.getElem?_drop, ← hrest]
      rfl
    have hsecond : (bytes cs)[p + 1]? = some (UInt8.ofNat x.toNat) := by
      rw [← List.getElem?_drop, ← hrest]
      rfl
    obtain ⟨before, after, rfl, hp⟩ := exists_append_cons_of_getElem? hx hfirst
    have hnext : (bytes after)[0]? = some (UInt8.ofNat x.toNat) := by
      rw [bytes_append, bytes_cons, utf8EncodeChar_of_lt hx, List.getElem?_append_right (by
        rw [length_bytes]; omega), length_bytes, hp, Nat.add_sub_cancel_left] at hsecond
      exact hsecond
    obtain ⟨front, after, rfl, hfront⟩ := exists_append_cons_of_getElem? hx hnext
    obtain rfl := eq_nil_of_byteLength_eq_zero hfront
    exact ⟨before, after, rfl, hp⟩
  · rintro ⟨before, after, rfl, rfl⟩
    rw [bytes_append, ← length_bytes, List.drop_left, bytes_cons, bytes_cons,
      utf8EncodeChar_of_lt hx]
    exact ⟨bytes after, rfl⟩

end Text

namespace Reshape

open Text

variable {x : Char} {cs t rest : List Char}

section Pairs

/-- The pair behind `t` is the first one in what it ends. -/
def FirstPair (x : Char) (t : List Char) : Prop :=
  ∀ before, before ++ [x, x] <+: t ++ [x, x] → before = t

theorem firstPair_nil (x : Char) : FirstPair x [] := by
  intro before hfront
  have hlength := hfront.length_le
  simp only [List.length_append, List.nil_append, List.length_cons, List.length_nil] at hlength
  exact List.length_eq_zero_iff.mp (by omega)

theorem FirstPair.length_le (h : FirstPair x t) (ht : t ++ [x, x] <+: cs) {before : List Char}
    (hbefore : before ++ [x, x] <+: cs) : t.length ≤ before.length := by
  rcases Nat.le_total t.length before.length with hle | hle
  · exact hle
  · have hfront := List.prefix_of_prefix_length_le hbefore ht (by simpa using hle)
    exact Nat.le_of_eq (congrArg List.length (h before hfront)).symm

theorem FirstPair.of_cons {a : Char} (h : FirstPair x (a :: t)) : FirstPair x t := by
  intro before hfront
  exact (List.cons.inj (h (a :: before) (List.cons_prefix_cons.mpr ⟨rfl, hfront⟩))).2

theorem FirstPair.cons {a : Char} (h : FirstPair x t) (ha : ¬ [x, x] <+: a :: t ++ [x, x]) :
    FirstPair x (a :: t) := by
  intro before hfront
  cases before with
  | nil => exact absurd hfront ha
  | cons c before =>
    obtain ⟨rfl, htail⟩ := List.cons_prefix_cons.mp hfront
    rw [h before htail]

theorem prefix_pair (t rest : List Char) : t ++ [x, x] <+: t ++ x :: x :: rest :=
  ⟨rest, by simp⟩

theorem not_prefix_pair {a b : Char} (h : ¬ (a = x ∧ b = x)) : ¬ [x, x] <+: a :: b :: cs := by
  rw [List.cons_prefix_cons, List.cons_prefix_cons]
  exact fun hpair => h ⟨hpair.1.symm, hpair.2.1.symm⟩

/-- What stands behind any pair of the text stands behind the first one, too. -/
theorem FirstPair.suffix (h : FirstPair x t) {before after : List Char}
    (hsplit : before ++ x :: x :: after = t ++ x :: x :: rest) : after <:+ rest := by
  have hle : t.length ≤ before.length :=
    h.length_le (prefix_pair t rest) (hsplit ▸ prefix_pair before after)
  have hafter : after <:+ t ++ x :: x :: rest := ⟨before ++ [x, x], by simp [← hsplit]⟩
  have hrest : rest <:+ t ++ x :: x :: rest := ⟨t ++ [x, x], by simp⟩
  have hlength := congrArg List.length hsplit
  simp only [List.length_append, List.length_cons] at hlength
  exact List.suffix_of_suffix_length_le hafter hrest (by omega)

theorem breakPair_eq_some_iff :
    breakPair x cs = some (t, rest) ↔ cs = t ++ x :: x :: rest ∧ FirstPair x t := by
  fun_induction breakPair x cs generalizing t with
  | case1 => simp
  | case2 c => simp [List.cons_eq_append_iff]
  | case3 a b cs hab =>
    obtain ⟨rfl, rfl⟩ := hab
    constructor
    · rintro ⟨⟩
      exact ⟨rfl, firstPair_nil _⟩
    · rintro ⟨hcs, hfirst⟩
      have hlength := hfirst.length_le (hcs ▸ prefix_pair t rest) (prefix_pair [] cs)
      obtain rfl : t = [] := List.length_eq_zero_iff.mp (Nat.le_zero.mp hlength)
      simpa using hcs
  | case4 a b cs hab ih =>
    rw [Option.map_eq_some_iff]
    constructor
    · rintro ⟨⟨front, behind⟩, hbreak, hparts⟩
      obtain ⟨rfl, rfl⟩ := Prod.mk.inj hparts
      obtain ⟨hcs, hfirst⟩ := ih.mp hbreak
      refine ⟨by rw [hcs, List.cons_append], hfirst.cons fun hpair => ?_⟩
      have hstart : [x, x] <+: a :: b :: cs := by
        rw [hcs]
        exact hpair.trans (prefix_pair (a :: front) behind)
      exact not_prefix_pair hab hstart
    · rintro ⟨hcs, hfirst⟩
      cases t with
      | nil =>
        obtain ⟨rfl, rfl, -⟩ : a = x ∧ b = x ∧ cs = rest := by simpa using hcs
        exact absurd ⟨rfl, rfl⟩ hab
      | cons c front =>
        obtain ⟨rfl, hrest⟩ := List.cons.inj hcs
        exact ⟨(front, rest), ih.mpr ⟨hrest, hfirst.of_cons⟩, rfl⟩

theorem breakPair_eq_none_iff : breakPair x cs = none ↔ ¬ [x, x] <:+: cs := by
  fun_induction breakPair x cs with
  | case1 => simp
  | case2 c =>
    refine iff_of_true rfl fun hinfix => ?_
    simpa using hinfix.length_le
  | case3 a b cs hab =>
    obtain ⟨rfl, rfl⟩ := hab
    refine iff_of_false (by simp) (not_not.mpr ?_)
    exact (prefix_pair [] cs).isInfix
  | case4 a b cs hab ih =>
    rw [Option.map_eq_none_iff, ih, not_iff_not]
    exact ⟨fun hinfix => hinfix.trans (List.suffix_cons a _).isInfix,
      fun hinfix => (List.infix_cons_iff.mp hinfix).resolve_left (not_prefix_pair hab)⟩

/-- In bytes: the pair behind the text stands nowhere else in what it ends. -/
theorem firstPair_iff (hx : x.toNat < 128) :
    FirstPair x t ↔ ∀ p, StandsAt [x, x] (t ++ [x, x]) p → p = byteLength t := by
  simp only [standsAt_pair_iff hx]
  constructor
  · rintro hfirst p ⟨before, after, hsplit, rfl⟩
    rw [hfirst before (hsplit ▸ prefix_pair before after)]
  · rintro h before ⟨after, hsplit⟩
    have hlength := h _ ⟨before, after, by rw [← hsplit]; simp, rfl⟩
    rw [List.append_assoc] at hsplit
    exact (append_inj_of_byteLength hsplit hlength).1

/-- In bytes, behind a first character: the pair does not stand before the end of the text. -/
theorem firstPair_behind_iff (hx : x.toNat < 128) (c : Char) : FirstPair x t ↔
    ∀ p, byteLength [c] ≤ p → p < byteLength (c :: t) → ¬ StandsAt [x, x] (c :: t ++ [x, x]) p := by
  rw [firstPair_iff hx]
  simp only [byteLength_cons, byteLength_nil, Nat.add_zero, List.cons_append]
  constructor
  · intro h p hle hlt hstands
    obtain ⟨q, rfl⟩ := Nat.exists_eq_add_of_le hle
    have hend := h q (standsAt_cons_add.mp hstands)
    omega
  · intro h q hstands
    have hle := hstands.le (by simp)
    by_contra hne
    exact h (c.utf8Size + q) (by omega) (by omega) (standsAt_cons_add.mpr hstands)

end Pairs

section Matches

def opening : List Char := ['\x7b', '\x7b']

def closing : List Char := ['\x7d', '\x7d']

/-- Some part of the text, of one character or more, stands between double braces. -/
def HasExpression (cs : List Char) : Prop := ∃ xs, xs ≠ [] ∧ opening ++ xs ++ closing <:+: cs

theorem match?_eq_some_iff {m : Match} : match? cs = some m ↔
    cs = m.text ++ opening ++ m.expression ++ closing ++ m.rest ∧ FirstPair '\x7b' m.text ∧
      ∃ c e, m.expression = c :: e ∧ FirstPair '\x7d' e := by
  rw [match?]
  constructor
  · intro h
    split at h
    case h_1 => simp at h
    case h_2 => simp at h
    case h_3 text c body hopen =>
      obtain ⟨⟨e, r⟩, hclose, rfl⟩ := Option.map_eq_some_iff.mp h
      obtain ⟨hcs, hfirst⟩ := breakPair_eq_some_iff.mp hopen
      obtain ⟨hbody, hlast⟩ := breakPair_eq_some_iff.mp hclose
      exact ⟨by simp [hcs, hbody, opening, closing], hfirst, c, e, rfl, hlast⟩
  · rintro ⟨hcs, hfirst, c, e, he, hlast⟩
    have hopen : breakPair '\x7b' cs = some (m.text, c :: (e ++ '\x7d' :: '\x7d' :: m.rest)) :=
      breakPair_eq_some_iff.mpr ⟨by simp [hcs, he, opening, closing], hfirst⟩
    have hclose : breakPair '\x7d' (e ++ '\x7d' :: '\x7d' :: m.rest) = some (e, m.rest) :=
      breakPair_eq_some_iff.mpr ⟨rfl, hlast⟩
    simp [hopen, hclose, ← he]

theorem match?_eq_none_iff : match? cs = none ↔ ¬ HasExpression cs := by
  constructor
  · rintro hnone ⟨xs, hxs, before, after, hsplit⟩
    obtain ⟨d, ds, rfl⟩ := List.exists_cons_of_ne_nil hxs
    have hopens : before ++ '\x7b' :: '\x7b' :: (d :: ds ++ closing ++ after) = cs := by
      simp [← hsplit, opening]
    rw [match?] at hnone
    split at hnone
    case h_1 hopen =>
      exact breakPair_eq_none_iff.mp hopen ⟨before, d :: ds ++ closing ++ after, by simp [← hopens]⟩
    case h_2 t hopen =>
      obtain ⟨hcs, hfirst⟩ := breakPair_eq_some_iff.mp hopen
      have hsuffix := hfirst.suffix (hopens.trans hcs)
      simp at hsuffix
    case h_3 t c body hopen =>
      obtain ⟨hcs, hfirst⟩ := breakPair_eq_some_iff.mp hopen
      have hcloses : ds ++ closing ++ after <:+ body := by
        obtain heq | hsuffix := List.suffix_cons_iff.mp (hfirst.suffix (hopens.trans hcs))
        · exact (List.cons.inj heq).2 ▸ List.suffix_rfl
        · exact (List.suffix_cons d _).trans hsuffix
      refine breakPair_eq_none_iff.mp (Option.map_eq_none_iff.mp hnone) ?_
      exact (show closing <:+: ds ++ closing ++ after from ⟨ds, after, rfl⟩).trans hcloses.isInfix
  · intro hnone
    cases hmatch : match? cs with
    | none => rfl
    | some m =>
      obtain ⟨hcs, -, c, e, he, -⟩ := match?_eq_some_iff.mp hmatch
      refine absurd ⟨m.expression, by simp [he], m.text, m.rest, ?_⟩ hnone
      simp [hcs]

end Matches

section Segments

variable {segs : List Segment}

/-- A text is left in one piece just if there is no expression in it. -/
theorem segments_eq_singleton_iff : (∃ seg, segments cs = [seg]) ↔ ¬ HasExpression cs := by
  rw [← match?_eq_none_iff]
  fun_cases segments cs with
  | case1 hnone => simp [hnone]
  | case2 m hsome => simp [hsome]

def Segment.isText : Segment → Bool
  | .text _ => true
  | .expression _ => false

/-- A text cut at its expressions. Positions count bytes. -/
structure Splits (cs : List Char) (segs : List Segment) : Prop where
  whole : segs.flatMap Segment.chars = cs
  odd : segs.length % 2 = 1
  /-- Texts and expressions take turns, beginning with a text. -/
  alternates : ∀ i seg, segs[i]? = some seg → (seg.isText = true ↔ i % 2 = 0)
  /-- An expression has a first character, behind which it reaches to the first closing pair. -/
  expression : ∀ e, .expression e ∈ segs → ∃ c e', e = c :: e' ∧
    ∀ p, byteLength [c] ≤ p → p < byteLength e → ¬ StandsAt closing (e ++ closing) p
  /-- A text before an expression reaches to the first opening pair. -/
  text : ∀ t e, [.text t, .expression e] <:+: segs →
    ∀ p, StandsAt opening (t ++ opening) p → p = byteLength t
  last : ∀ t, segs.getLast? = some (.text t) → ¬ HasExpression t

theorem Splits.shape (h : Splits cs segs) : (∃ t, segs = [.text t]) ∨
    ∃ t e rest, segs = .text t :: .expression e :: rest := by
  match segs, h with
  | [], h => exact absurd h.odd (by simp)
  | [.text t], h => exact .inl ⟨t, rfl⟩
  | [.expression e], h => simpa [Segment.isText] using h.alternates 0 _ rfl
  | .expression e :: _ :: _, h => simpa [Segment.isText] using h.alternates 0 _ rfl
  | .text t :: .text t' :: _, h => simpa [Segment.isText] using h.alternates 1 _ rfl
  | .text t :: .expression e :: rest, h => exact .inr ⟨t, e, rest, rfl⟩

theorem splits_singleton : Splits cs [.text t] ↔ t = cs ∧ match? cs = none := by
  rw [match?_eq_none_iff]
  constructor
  · intro h
    obtain rfl : t = cs := by simpa [Segment.chars] using h.whole
    exact ⟨rfl, h.last t rfl⟩
  · rintro ⟨rfl, hnone⟩
    refine ⟨by simp [Segment.chars], rfl, ?_, by simp, ?_, ?_⟩
    · intro i seg hseg
      obtain ⟨rfl, rfl⟩ : i = 0 ∧ .text t = seg := by simpa using List.getElem?_eq_some_iff.mp hseg
      simp [Segment.isText]
    · intro u e hinfix
      simpa using hinfix.length_le
    · rintro u ⟨⟩
      exact hnone

theorem Splits.behind {e : List Char} (h : Splits cs (.text t :: .expression e :: segs)) :
    Splits (segs.flatMap Segment.chars) segs where
  whole := rfl
  odd := by
    have hodd := h.odd
    simp only [List.length_cons] at hodd
    omega
  alternates i seg hseg := by simpa using h.alternates (i + 2) seg hseg
  expression e' he' := h.expression e' (by simp [he'])
  text t' e' hpair := h.text t' e' (hpair.trans (List.suffix_append [_, _] segs).isInfix)
  last t' hlast := h.last t' (by simp [List.getLast?_cons, hlast])

theorem Splits.before {c : Char} {e : List Char} (h : Splits rest segs)
    (hopen : FirstPair '\x7b' t) (hclose : FirstPair '\x7d' e) :
    Splits (t ++ opening ++ c :: e ++ closing ++ rest)
      (.text t :: .expression (c :: e) :: segs) where
  whole := by simp [h.whole, Segment.chars, opening, closing]
  odd := by
    have hodd := h.odd
    simp only [List.length_cons]
    omega
  alternates i seg hseg := by
    rcases i with _ | _ | i
    · obtain rfl : .text t = seg := by simpa using hseg
      simp [Segment.isText]
    · obtain rfl : .expression (c :: e) = seg := by simpa using hseg
      simp [Segment.isText]
    · rw [h.alternates i seg hseg]
      omega
  expression e' he' := by
    obtain rfl | he' : e' = c :: e ∨ .expression e' ∈ segs := by simpa using he'
    · exact ⟨c, e, rfl, (firstPair_behind_iff (by decide) c).mp hclose⟩
    · exact h.expression e' he'
  text t' e' hinfix := by
    rw [List.infix_cons_iff, List.infix_cons_iff] at hinfix
    obtain hfront | hfront | hinfix := hinfix
    · obtain ⟨hsame, -⟩ := List.cons_prefix_cons.mp hfront
      obtain rfl := Segment.text.inj hsame
      exact (firstPair_iff (by decide)).mp hopen
    · simpa using (List.cons_prefix_cons.mp hfront).1
    · exact h.text t' e' hinfix
  last t' hlast := by
    have hne : segs ≠ [] := by
      rintro rfl
      exact absurd h.odd (by simp)
    refine h.last t' ?_
    rw [List.getLast?_eq_some_getLast hne]
    simpa [List.getLast?_cons, List.getLast?_eq_some_getLast hne] using hlast

theorem splits_cons_cons {e : List Char} : Splits cs (.text t :: .expression e :: segs) ↔
    ∃ rest, match? cs = some ⟨t, e, rest⟩ ∧ Splits rest segs := by
  simp only [match?_eq_some_iff]
  constructor
  · intro h
    obtain ⟨c, e', rfl, hclose⟩ := h.expression e (by simp)
    refine ⟨_, ⟨?_, ?_, c, e', rfl, ?_⟩, h.behind⟩
    · simp [← h.whole, Segment.chars, opening, closing]
    · exact (firstPair_iff (by decide)).mpr (h.text t (c :: e') ⟨[], segs, rfl⟩)
    · exact (firstPair_behind_iff (by decide) c).mpr hclose
  · rintro ⟨rest, ⟨rfl, hopen, c, e', rfl, hclose⟩, hrest⟩
    exact hrest.before hopen hclose

theorem splits_segments (cs : List Char) : Splits cs (segments cs) := by
  fun_induction segments cs with
  | case1 cs hnone => exact splits_singleton.mpr ⟨rfl, hnone⟩
  | case2 cs m hsome ih => exact splits_cons_cons.mpr ⟨m.rest, hsome, ih⟩

-- A third brace belongs to the expression at its front, and to the text behind it at its end.
example : segments "a\x7b\x7b\x7bb\x7d\x7d\x7d\x7b\x7b\x7d\x7d\x7d".toList =
    [.text "a".toList, .expression "\x7bb".toList, .text "\x7d".toList, .expression "\x7d".toList,
      .text []] := by
  cbv

end Segments

end Reshape

end Markup
