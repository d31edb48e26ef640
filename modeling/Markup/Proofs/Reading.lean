import Markup.Source

/-! Reading a source text: which characters stand between two offsets. Stretches that touch can be
joined and a stretch can be divided, and the offsets move by the bytes of what is read. -/
namespace Markup

namespace Text

theorem append_inj_of_byteLength {a b c d : List Char} (h : a ++ b = c ++ d)
    (hlen : byteLength a = byteLength c) : a = c ∧ b = d := by
  have hab := cut?_append a b
  rw [h, hlen, cut?_append c d] at hab
  exact ⟨(Prod.mk.inj (Option.some.inj hab)).1.symm, (Prod.mk.inj (Option.some.inj hab)).2.symm⟩

theorem eq_nil_of_byteLength_eq_zero {cs : List Char} (h : byteLength cs = 0) : cs = [] := by
  cases cs with
  | nil => rfl
  | cons c cs =>
    have hc := c.utf8Size_pos
    rw [byteLength_cons] at h
    omega

end Text

namespace Source

/-- The characters `cs` stand between the offsets `start` and `stop`. -/
def Reads (src : Source) (start : Nat) (cs : List Char) (stop : Nat) : Prop :=
  ∃ before after, src.chars = before ++ cs ++ after ∧ Text.byteLength before = start ∧
    start + Text.byteLength cs = stop

variable {src : Source} {a b c : Nat} {xs ys : List Char}

theorem slice?_eq_some_iff_reads {text : String} :
    src.slice? a b = some text ↔ src.Reads a text.toList b := by
  rw [slice?_some_iff, Reads]
  constructor
  · rintro ⟨before, after, h, rfl, rfl⟩
    exact ⟨before, after, h, rfl, by rw [Text.byteLength_append]⟩
  · rintro ⟨before, after, h, rfl, rfl⟩
    exact ⟨before, after, h, rfl, by rw [Text.byteLength_append]⟩

theorem slice_eq_ok_iff {span : Span} {text : String} :
    src.slice span = .ok text ↔ src.Reads span.start.offset text.toList span.stop.offset := by
  rw [← slice?_eq_some_iff_reads, slice]
  cases src.slice? span.start.offset span.stop.offset <;> simp

theorem exists_slice_eq_ok {span : Span} (h : src.Reads span.start.offset xs span.stop.offset) :
    ∃ text, src.slice span = .ok text :=
  ⟨String.ofList xs, by rw [slice_eq_ok_iff, String.toList_ofList]; exact h⟩

theorem Reads.stop_eq (h : src.Reads a xs b) : b = a + Text.byteLength xs := by
  obtain ⟨before, after, -, -, hb⟩ := h
  exact hb.symm

theorem Reads.le (h : src.Reads a xs b) : a ≤ b := by
  have := h.stop_eq
  omega

theorem Reads.le_size (h : src.Reads a xs b) : b ≤ src.size := by
  obtain ⟨before, after, hsrc, rfl, rfl⟩ := h
  rw [size, hsrc, Text.byteLength_append, Text.byteLength_append]
  omega

theorem Reads.append (h : src.Reads a xs b) (h' : src.Reads b ys c) :
    src.Reads a (xs ++ ys) c := by
  obtain ⟨before, after, hsrc, rfl, rfl⟩ := h
  obtain ⟨before', after', hsrc', hlen, rfl⟩ := h'
  have hcut : before ++ xs ++ after = before' ++ (ys ++ after') := by
    rw [← hsrc, hsrc', List.append_assoc]
  have hparts := Text.append_inj_of_byteLength hcut (by rw [Text.byteLength_append, hlen])
  refine ⟨before, after', ?_, rfl, ?_⟩
  · rw [hsrc, hparts.2]
    simp only [List.append_assoc]
  · rw [Text.byteLength_append]
    omega

theorem Reads.divide (h : src.Reads a (xs ++ ys) c) :
    src.Reads a xs (a + Text.byteLength xs) ∧ src.Reads (a + Text.byteLength xs) ys c := by
  obtain ⟨before, after, hsrc, rfl, rfl⟩ := h
  constructor
  · exact ⟨before, ys ++ after, by simp [hsrc], rfl, rfl⟩
  · refine ⟨before ++ xs, after, by simp [hsrc], Text.byteLength_append _ _, ?_⟩
    rw [Text.byteLength_append]
    omega

theorem Reads.unique (h : src.Reads a xs b) (h' : src.Reads a ys b) : xs = ys := by
  obtain ⟨before, after, hsrc, rfl, rfl⟩ := h
  obtain ⟨before', after', hsrc', hlen, hlen'⟩ := h'
  have hcut : before ++ (xs ++ after) = before' ++ (ys ++ after') := by
    rw [← List.append_assoc, ← List.append_assoc, ← hsrc, hsrc']
  obtain ⟨-, hrest⟩ := Text.append_inj_of_byteLength hcut hlen.symm
  exact (Text.append_inj_of_byteLength hrest (by omega)).1

theorem Reads.start (h : src.Reads a xs b) : src.Reads a [] a := by
  have hdivide : src.Reads a ([] ++ xs) b := h
  exact hdivide.divide.1

theorem Reads.stop (h : src.Reads a xs b) : src.Reads b [] b := by
  have hdivide : src.Reads a (xs ++ []) b := by rwa [List.append_nil]
  have hstop := hdivide.divide.2
  rwa [← h.stop_eq] at hstop

theorem Reads.eq_nil (h : src.Reads a xs a) : xs = [] := by
  have := h.stop_eq
  exact Text.eq_nil_of_byteLength_eq_zero (by omega)

theorem Reads.between (ha : src.Reads a [] a) (hb : src.Reads b [] b) (hab : a ≤ b) :
    ∃ cs, src.Reads a cs b := by
  obtain ⟨before, after, hsrc, rfl, -⟩ := ha
  obtain ⟨before', after', hsrc', rfl, -⟩ := hb
  rw [List.append_nil] at hsrc hsrc'
  obtain hfront | hfront := List.append_eq_append_iff.mp (hsrc.symm.trans hsrc')
  · obtain ⟨cs, rfl, rfl⟩ := hfront
    exact ⟨cs, before, after', by rw [hsrc', List.append_assoc],
      rfl, (Text.byteLength_append _ _).symm⟩
  · obtain ⟨cs, rfl, rfl⟩ := hfront
    rw [Text.byteLength_append] at hab
    obtain rfl : cs = [] := Text.eq_nil_of_byteLength_eq_zero (by omega)
    exact ⟨[], before', after, by simp [hsrc], by simp, by simp⟩

theorem reads_all (src : Source) : src.Reads 0 src.chars src.size :=
  ⟨[], [], by simp, rfl, by simp [size]⟩

theorem offset_shift {l : Location} {delta : Int} (h : l.offset + delta = b) (hb : b ≤ src.size) :
    (src.shift l delta).offset = b := by
  rw [shift, location_offset, h, Int.toNat_natCast, Nat.min_eq_left hb]

theorem Reads.offset_shift {l : Location} (h : src.Reads a xs b) (hl : l.offset = a) :
    (src.shift l (Text.byteLength xs)).offset = b := by
  apply Source.offset_shift _ h.le_size
  rw [hl, h.stop_eq]
  omega

theorem Reads.offset_shift_neg {l : Location} (h : src.Reads a xs b) (hl : l.offset = b) :
    (src.shift l (-(Text.byteLength xs : Int))).offset = a := by
  apply Source.offset_shift _ (Nat.le_trans h.le h.le_size)
  rw [hl, h.stop_eq]
  omega

end Source

end Markup
