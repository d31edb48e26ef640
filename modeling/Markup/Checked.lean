import Markup.Error
import Markup.Text.Bytes

/-! Operations that are not defined everywhere. Each has a range, and outside of it there is an
error and no result. -/
namespace Markup.Checked

variable {α : Type}

def sub (a b : Nat) : Except Error Nat :=
  if b ≤ a then .ok (a - b) else .error (.underflow a b)

def get (xs : List α) (i : Nat) : Except Error α :=
  match xs[i]? with
  | some x => .ok x
  | none => .error (.outOfRange i xs.length)

def entry (xs : Array α) (i : Nat) : Except Error α :=
  match xs[i]? with
  | some x => .ok x
  | none => .error (.outOfRange i xs.size)

def from_ (xs : List α) (i : Nat) : Except Error (List α) :=
  if i ≤ xs.length then .ok (xs.drop i) else .error (.outOfRange i xs.length)

/-- The two parts of a text cut at an offset. -/
def cut (cs : List Char) (n : Nat) : Except Error (List Char × List Char) :=
  match Text.cut? n cs with
  | some parts => .ok parts
  | none => .error (.noBoundary n (Text.byteLength cs))

theorem bind_eq_ok {β : Type} {x : Except Error α} {f : α → Except Error β} {b : β} :
    (x >>= f) = .ok b ↔ ∃ a, x = .ok a ∧ f a = .ok b := by
  cases x <;> simp [bind, Except.bind]

theorem sub_eq_ok {a b : Nat} (h : b ≤ a) : sub a b = .ok (a - b) := if_pos h

theorem get_eq_ok {xs : List α} {i : Nat} {x : α} (h : xs[i]? = some x) : get xs i = .ok x := by
  simp [get, h]

theorem getElem?_of_drop {xs ys : List α} {i : Nat} {x : α} (h : xs.drop i = x :: ys) :
    xs[i]? = some x := by
  rw [← List.head?_drop, h, List.head?_cons]

theorem drop_succ_of_drop {xs ys : List α} {i : Nat} {x : α} (h : xs.drop i = x :: ys) :
    xs.drop (i + 1) = ys := by
  rw [← List.tail_drop, h, List.tail_cons]

theorem entry_eq_ok {xs : Array α} {i : Nat} {x : α} (h : xs[i]? = some x) :
    entry xs i = .ok x := by
  simp [entry, h]

theorem from_eq_ok {xs : List α} {i : Nat} (h : i ≤ xs.length) : from_ xs i = .ok (xs.drop i) :=
  if_pos h

theorem from_one_cons (x : α) (xs : List α) : from_ (x :: xs) 1 = .ok xs := from_eq_ok (by simp)

theorem cut_eq_ok_iff {cs a b : List Char} {n : Nat} :
    cut cs n = .ok (a, b) ↔ cs = a ++ b ∧ Text.byteLength a = n := by
  rw [← Text.cut?_eq_some_iff, cut]
  cases Text.cut? n cs <;> simp

theorem cut_append (a b : List Char) : cut (a ++ b) (Text.byteLength a) = .ok (a, b) := by
  simp [cut, Text.cut?_append]

end Markup.Checked
