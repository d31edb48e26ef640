import Markup.Text.Space
import Mathlib.Data.List.Infix

/-! A word about comments in markup. The markup of a plain element never reads like the markup of an
element between the comments of a condition, whatever the name of the element. -/
namespace Markup.Text

/-- The blanks of a text that close a condition which has lost its angle bracket to a slash. What
has been `seen` before the text stands in reverse. -/
def marks (seen : List Char) : List Char → Nat
  | [] => 0
  | c :: cs =>
    (if c = ' ' ∧ seen.take 7 = ['f', 'i', '[', '-', '-', '!', '/'] then 1 else 0) +
      marks (c :: seen) cs

theorem marks_append (seen xs ys : List Char) :
    marks seen (xs ++ ys) = marks seen xs + marks (xs.reverse ++ seen) ys := by
  induction xs generalizing seen with
  | nil => simp [marks]
  | cons x xs ih => simp [marks, ih, Nat.add_assoc]

theorem marks_eq_zero {seen xs : List Char} (h : ' ' ∉ xs) : marks seen xs = 0 := by
  induction xs generalizing seen with
  | nil => rfl
  | cons x xs ih =>
    simp only [List.mem_cons, not_or] at h
    simp [marks, Ne.symm h.1, ih h.2]

/-- Only the last seven characters seen count. -/
theorem marks_congr {seen seen' : List Char} (h : seen.take 7 = seen'.take 7) (xs : List Char) :
    marks seen xs = marks seen' xs := by
  induction xs generalizing seen seen' with
  | nil => rfl
  | cons x xs ih =>
    have htail : (x :: seen).take 7 = (x :: seen').take 7 := by
      have hsix := congrArg (List.take 6) h
      simpa [List.take_take] using hsix
    rw [marks, marks, h, ih htail]

def condition : List Char := ['<', '!', '-', '-', '[', 'i', 'f', ' ']

theorem marks_condition (seen : List Char) : marks seen condition = 0 := by
  simp [marks, condition]

/-- A text that begins like a condition has the same marks behind whatever has been seen. -/
theorem marks_of_prefix {seen xs rest : List Char} (h : xs <+: condition ++ rest) :
    marks seen xs = marks [] xs := by
  by_cases hlength : xs.length ≤ 7
  · have hshort : xs <+: condition.take 7 := by
      have hfront : condition.take 7 <+: condition ++ rest :=
        (List.take_prefix _ _).trans (List.prefix_append _ _)
      exact List.prefix_of_prefix_length_le h hfront (by simpa [condition] using hlength)
    have hblank : ' ' ∉ xs := fun hmem => by
      have := hshort.subset hmem
      simp [condition] at this
    rw [marks_eq_zero hblank, marks_eq_zero hblank]
  · obtain ⟨ys, rfl⟩ : condition <+: xs := by
      apply List.prefix_of_prefix_length_le (List.prefix_append _ _) h
      simp [condition]
      omega
    rw [marks_append, marks_append, marks_condition, marks_condition]
    refine congrArg (0 + ·) (marks_congr ?_ ys)
    simp [condition]

section

variable {name value word rest : List Char}

/-- Two words that are equal up to their ends, cut where the shorter one ends. -/
theorem exists_append_of_length_le {xs ys zs ws : List Char} (h : xs ++ ys = zs ++ ws)
    (hle : xs.length ≤ zs.length) : ∃ mid, zs = xs ++ mid ∧ ys = mid ++ ws := by
  obtain ⟨mid, rfl⟩ := List.prefix_of_prefix_length_le ⟨ys, h⟩ (List.prefix_append zs ws) hle
  exact ⟨mid, rfl, by simpa using h⟩

/-- The markup of an element, and the same behind a comment that opens a condition. If both were
one word, the opening tag would begin with that comment and end with a turned copy of it. One blank
in the copy follows a slash, and no blank of the comment does. -/
theorem conditional_ne_plain (hword : ' ' ∉ word) (hlength : word.length < rest.length) :
    (condition ++ value) ++ (('<' :: name) ++ rest) ≠
      ('<' :: name) ++ (word ++ '<' :: '/' :: name) := by
  intro heq
  have hlengths := congrArg List.length heq
  simp only [List.length_append, List.length_cons, List.length_nil, condition] at hlengths
  obtain ⟨left, htag, hleft⟩ := exists_append_of_length_le heq (by simp [condition]; omega)
  obtain ⟨turned, htag', hturned⟩ := exists_append_of_length_le hleft.symm (by simp [htag]; omega)
  have hname : name = ['!', '-', '-', '[', 'i', 'f', ' '] ++ value ++ left := by
    simpa [condition] using htag
  have hstart : turned ++ rest =
      (word ++ ['<', '/', '!', '-', '-', '[', 'i', 'f']) ++ ' ' :: (value ++ left) := by
    rw [← hturned, hname]
    simp
  have hcount : turned.count ' ' = value.count ' ' + 1 := by
    have := congrArg (List.count ' ') (htag.symm.trans htag')
    simp [condition] at this
    omega
  have hturnedlength : turned.length = value.length + 8 := by
    have := congrArg List.length (htag.symm.trans htag')
    simp [condition] at this
    omega
  have hnoblank : ' ' ∉ word ++ ['<', '/', '!', '-', '-', '[', 'i', 'f'] := by simpa using hword
  have hlong : (word ++ ['<', '/', '!', '-', '-', '[', 'i', 'f']).length < turned.length := by
    by_contra hshort
    obtain ⟨mid, hmid, -⟩ := exists_append_of_length_le hstart (Nat.le_of_not_lt hshort)
    rw [hmid, List.mem_append, not_or, ← List.count_eq_zero] at hnoblank
    omega
  obtain ⟨back, hback, hbehind⟩ := exists_append_of_length_le hstart.symm (Nat.le_of_lt hlong)
  cases back with
  | nil => simp [hback] at hlong
  | cons b shared =>
    obtain ⟨rfl, hcut⟩ := List.cons.inj hbehind
    have hsharedlength : shared.length ≤ value.length := by
      simp [hback] at hturnedlength
      omega
    obtain ⟨closing, hvalue, -⟩ := exists_append_of_length_le hcut.symm hsharedlength
    have hclosing : ' ' ∉ closing := by
      have hzero := List.count_eq_zero.mpr hnoblank
      rw [hback, hvalue, List.count_append, hzero] at hcount
      rw [← List.count_eq_zero]
      simp at hcount
      omega
    have hfront : '<' :: name = condition ++ (shared ++ (closing ++ left)) := by
      rw [htag, hvalue, List.append_assoc, List.append_assoc]
    have hleft : left <+: condition ++ (shared ++ (closing ++ left)) := by
      rw [← hfront, htag']
      exact List.prefix_append _ _
    have hmarks : marks [] ('<' :: name) = marks condition.reverse shared + marks [] left := by
      rw [hfront, marks_append, marks_append, marks_append, marks_condition,
        marks_eq_zero hclosing, marks_of_prefix hleft]
      simp
    have hmarks' : marks [] ('<' :: name) = marks [] left +
        (1 + marks condition.reverse shared) := by
      rw [htag', hback, marks_append, marks_append, marks_eq_zero hnoblank, Nat.zero_add, marks]
      congr 2
      · simp
      · exact marks_congr (by simp [condition]) shared
    omega

theorem blank_append_eq_iff {gap close closing : List Char}
    (hgap : ∀ c ∈ gap, isSpace c = true) (hword : ∀ c ∈ word, isSpace c = false) :
    gap ++ (word ++ close) = word ++ '<' :: closing ↔ gap = [] ∧ close = '<' :: closing := by
  constructor
  · intro heq
    cases gap with
    | nil => exact ⟨rfl, by simpa using heq⟩
    | cons g gap =>
      have hg := hgap g List.mem_cons_self
      cases word with
      | nil =>
        obtain rfl := (List.cons.inj heq).1
        simp [isSpace] at hg
      | cons w word =>
        obtain rfl := (List.cons.inj heq).1
        rw [hword g List.mem_cons_self] at hg
        simp at hg
  · rintro ⟨rfl, rfl⟩
    rfl

end

end Markup.Text
