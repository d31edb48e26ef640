import Markup.Css.Token
import Markup.Text.Space

/-! The declarations of a style text. Each ends at the next semicolon outside brackets, so what is
wrong with one of them does not reach the next. -/
namespace Markup.Css

/-- The brackets that are open after a token, innermost first. Only the closing bracket of the
innermost one counts; any other is an ordinary token. -/
def nest (pending : List Bracket) (t : Token) : List Bracket :=
  match t.opens? with
  | some b => b :: pending
  | none =>
    match pending with
    | [] => []
    | b :: outer => if t.closes? = some b then outer else b :: outer

/-- The tokens up to the next semicolon outside the pending brackets, and those behind it. -/
def untilSemicolon : List Bracket → List Token → List Token × List Token
  | _, [] => ([], [])
  | pending, t :: ts =>
    if pending = [] ∧ t = .semicolon then ([], ts)
    else
      let r := untilSemicolon (nest pending t) ts
      (t :: r.1, r.2)

/-- The tokens behind the pending brackets. -/
def dropBlock : List Bracket → List Token → List Token
  | [], ts => ts
  | _ :: _, [] => []
  | b :: outer, t :: ts => dropBlock (nest (b :: outer) t) ts

/-- The tokens behind an at-rule: it ends with a semicolon or with a block. -/
def dropAtRule : List Bracket → List Token → List Token
  | _, [] => []
  | pending, t :: ts =>
    if pending = [] ∧ t = .semicolon then ts
    else if pending = [] ∧ t = .opening .curly then dropBlock [.curly] ts
    else dropAtRule (nest pending t) ts

theorem length_untilSemicolon_le (pending : List Bracket) (ts : List Token) :
    (untilSemicolon pending ts).2.length ≤ ts.length := by
  fun_induction untilSemicolon pending ts with
  | case1 => exact Nat.le_refl _
  | case2 => exact Nat.le_succ _
  | case3 pending t ts _ _ ih => exact Nat.le_succ_of_le ih

theorem length_dropBlock_le (pending : List Bracket) (ts : List Token) :
    (dropBlock pending ts).length ≤ ts.length := by
  fun_induction dropBlock pending ts with
  | case1 => exact Nat.le_refl _
  | case2 => exact Nat.le_refl _
  | case3 b outer t ts ih => exact Nat.le_succ_of_le ih

theorem length_dropAtRule_le (pending : List Bracket) (ts : List Token) :
    (dropAtRule pending ts).length ≤ ts.length := by
  fun_induction dropAtRule pending ts with
  | case1 => exact Nat.le_refl _
  | case2 => exact Nat.le_succ _
  | case3 pending t ts => exact Nat.le_succ_of_le (length_dropBlock_le _ ts)
  | case4 pending t ts _ _ ih => exact Nat.le_succ_of_le ih

/-- A property name and all that stands between it and the end of its declaration. -/
structure Declaration where
  name : String
  body : List Token
deriving DecidableEq, Repr

namespace Declaration

/-- The value of a well-formed declaration whose value is a single name, in lower case. -/
def keyword? (d : Declaration) : Option String :=
  match d.body.filter fun t => !t.isFiller with
  | [.colon, .ident value] => some (Text.lower value)
  | [.colon, .ident value, .delim '!', .ident flag] =>
    if Text.sameLetters flag "important" then some (Text.lower value) else none
  | _ => none

end Declaration

def isSeparator (t : Token) : Bool := t.isFiller || t = .semicolon || t = .closing .curly

/-- The declarations of a token list. At-rules are passed over, and what begins with anything but a
name is passed over up to the next semicolon. -/
def declarations : List Token → List Declaration
  | [] => []
  | t :: ts =>
    if isSeparator t then declarations ts
    else
      match t with
      | .ident name =>
        let r := untilSemicolon [] ts
        ⟨name, r.1⟩ :: declarations r.2
      | .atKeyword _ => declarations (dropAtRule [] ts)
      | other => declarations (untilSemicolon (nest [] other) ts).2
termination_by ts => ts.length
decreasing_by
  · simp
  · have := length_untilSemicolon_le [] ts
    simp only [List.length_cons]
    omega
  · have := length_dropAtRule_le [] ts
    simp only [List.length_cons]
    omega
  · have := length_untilSemicolon_le (nest [] other) ts
    simp only [List.length_cons]
    omega

end Markup.Css
