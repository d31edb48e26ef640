import Markup.Css.InlineStyle

/-! Declarations beside each other. Whatever a style text is made of, a semicolon behind it ends the
declaration, the at-rule or the junk that it breaks off in, as long as no bracket is left open. So
what stands behind the semicolon is read as if it stood alone. -/
namespace Markup.Css

/-- If each step puts something new in the place of what was there, or leaves it, then what is there
in the end was put there last. -/
theorem foldl_eq_findSome? {α β σ : Type} {f : σ → α → σ} {view : σ → Option β}
    {set? : α → Option β} (hstep : ∀ s a, view (f s a) = (set? a).or (view s)) (as : List α)
    (s : σ) :
    view (as.foldl f s) = (as.reverse.findSome? set?).or (view s) := by
  induction as generalizing s with
  | nil => rfl
  | cons a as ih =>
    rw [List.foldl_cons, ih, hstep, List.reverse_cons, List.findSome?_append, Option.or_assoc]
    cases h : set? a <;> simp [h]

namespace Declaration

def display? (d : Declaration) : Option Display :=
  if Text.sameLetters d.name "display" then d.keyword?.bind Display.ofKeyword? else none

def whiteSpace? (d : Declaration) : Option WhiteSpace :=
  if Text.sameLetters d.name "white-space" then d.keyword?.bind WhiteSpace.ofKeyword? else none

end Declaration

namespace InlineStyle

theorem display_declare (s : InlineStyle) (d : Declaration) :
    (s.declare d).display = d.display?.or s.display := by
  rw [declare, Declaration.display?]
  cases d.keyword? with
  | none => simp
  | some keyword =>
    by_cases hname : Text.sameLetters d.name "display" = true
    · simp [hname]
    · simp only [hname, Bool.false_eq_true, ↓reduceIte, Option.none_or]
      split <;> rfl

theorem whiteSpace_declare (s : InlineStyle) (d : Declaration) :
    (s.declare d).whiteSpace = d.whiteSpace?.or s.whiteSpace := by
  rw [declare, Declaration.whiteSpace?]
  cases d.keyword? with
  | none => simp
  | some keyword =>
    by_cases hname : Text.sameLetters d.name "display" = true
    · have hother : Text.sameLetters d.name "white-space" = false := by
        rw [Text.sameLetters, beq_iff_eq] at hname
        rw [Text.sameLetters, hname]
        decide
      simp [hname, hother]
    · simp only [hname, Bool.false_eq_true, ↓reduceIte]
      split <;> simp

theorem display_ofTokens (ts : List Token) :
    (ofTokens ts).display = (declarations ts).reverse.findSome? Declaration.display? := by
  rw [ofTokens, foldl_eq_findSome? display_declare, Option.or_none]

theorem whiteSpace_ofTokens (ts : List Token) :
    (ofTokens ts).whiteSpace = (declarations ts).reverse.findSome? Declaration.whiteSpace? := by
  rw [ofTokens, foldl_eq_findSome? whiteSpace_declare, Option.or_none]

end InlineStyle

section Brackets

/-- The tokens close every bracket that they open. Inside a bracket `outer`, its own closing bracket
stands only at its end; a closing bracket of another kind is a token like any other. -/
inductive Closed : Option Bracket → List Token → Prop where
  | nil {outer : Option Bracket} : Closed outer []
  | token {outer : Option Bracket} {t : Token} {ts : List Token} (hopens : t.opens? = none)
      (hcloses : ∀ b ∈ outer, t.closes? ≠ some b) (h : Closed outer ts) : Closed outer (t :: ts)
  | block {outer : Option Bracket} {t : Token} {b : Bracket} {inner ts : List Token}
      (hopens : t.opens? = some b) (hinner : Closed (some b) inner) (h : Closed outer ts) :
      Closed outer (t :: (inner ++ .closing b :: ts))

theorem nest_of_opens? {pending : List Bracket} {t : Token} {b : Bracket} (h : t.opens? = some b) :
    nest pending t = b :: pending := by
  simp only [nest, h]

theorem nest_of_not_closes? {pending : List Bracket} {t : Token} (hopens : t.opens? = none)
    (hcloses : ∀ b ∈ pending.head?, t.closes? ≠ some b) : nest pending t = pending := by
  cases pending with
  | nil => simp only [nest, hopens]
  | cons b outer => simp only [nest, hopens, hcloses b rfl, ↓reduceIte]

@[simp] theorem nest_closing (b : Bracket) (outer : List Bracket) :
    nest (b :: outer) (.closing b) = outer := by
  simp [nest, Token.opens?, Token.closes?]

@[simp] theorem nest_semicolon (pending : List Bracket) : nest pending .semicolon = pending :=
  nest_of_not_closes? rfl (by simp [Token.closes?])

theorem Closed.foldl_nest {pending : List Bracket} {ts : List Token}
    (h : Closed pending.head? ts) : ts.foldl nest pending = pending := by
  generalize houter : pending.head? = outer at h
  induction h generalizing pending with
  | nil => rfl
  | token hopens hcloses _ ih =>
    subst houter
    rw [List.foldl_cons, nest_of_not_closes? hopens hcloses, ih rfl]
  | block hopens _ _ ihinner ih =>
    rw [List.foldl_cons, nest_of_opens? hopens, List.foldl_append, ihinner rfl, List.foldl_cons,
      nest_closing, ih houter]

/-- What stands behind the part that closes its own brackets: the end, or the closing bracket of the
innermost bracket that was open before, and behind it the same for the others. -/
def Ends : List Bracket → List Token → Prop
  | [], rest => rest = []
  | b :: outer, rest => ∃ behind, rest = .closing b :: behind ∧ behind.foldl nest outer = []

theorem exists_closed_of_foldl_nest {pending : List Bracket} {ts : List Token}
    (h : ts.foldl nest pending = []) :
    ∃ inner rest, ts = inner ++ rest ∧ Closed pending.head? inner ∧ Ends pending rest := by
  induction hlength : ts.length using Nat.strongRecOn generalizing pending ts with
  | ind n ih =>
    subst hlength
    cases ts with
    | nil =>
      obtain rfl : pending = [] := h
      exact ⟨[], [], rfl, .nil, rfl⟩
    | cons t ts =>
      rw [List.foldl_cons] at h
      cases hopens : t.opens? with
      | some b =>
        -- The bracket that the token opens is closed first; what is behind it is shorter.
        rw [nest_of_opens? hopens] at h
        obtain ⟨inner, _, rfl, hinner, behind, rfl, hbehind⟩ := ih _ (by simp) h rfl
        obtain ⟨inner', rest, rfl, hinner', hrest⟩ := ih _ (by simp; omega) hbehind rfl
        exact ⟨t :: (inner ++ .closing b :: inner'), rest, by simp, .block hopens hinner hinner',
          hrest⟩
      | none =>
        by_cases hcloses : ∀ b ∈ pending.head?, t.closes? ≠ some b
        case pos =>
          rw [nest_of_not_closes? hopens hcloses] at h
          obtain ⟨inner, rest, rfl, hinner, hrest⟩ := ih _ (by simp) h rfl
          exact ⟨t :: inner, rest, rfl, .token hopens hcloses hinner, hrest⟩
        case neg =>
          cases pending with
          | nil => simp at hcloses
          | cons b outer =>
            obtain rfl : t = .closing b := by cases t <;> simp_all [Token.closes?]
            rw [nest_closing] at h
            exact ⟨[], _, rfl, .nil, ts, rfl, h⟩

theorem foldl_nest_eq_nil_iff {ts : List Token} : ts.foldl nest [] = [] ↔ Closed none ts := by
  constructor
  · intro h
    obtain ⟨inner, rest, rfl, hinner, rfl⟩ := exists_closed_of_foldl_nest h
    rwa [List.append_nil]
  · intro h
    have hnone : Closed ([] : List Bracket).head? ts := h
    exact hnone.foldl_nest

end Brackets

section Skipping

variable {pending : List Bracket} {as : List Token}

/-- A reader that passes over the front of a text with no open bracket goes on inside the text, or
right behind the semicolon that follows it. -/
inductive Resumes (skip : List Token → List Token) (as : List Token) : Prop where
  | inside (hrest : (skip as).foldl nest [] = [])
      (happend : ∀ bs, skip (as ++ .semicolon :: bs) = skip as ++ .semicolon :: bs)
  | behind (hrest : skip as = []) (happend : ∀ bs, skip (as ++ .semicolon :: bs) = bs)

/-- The tokens of a declaration are the same, with or without a semicolon behind them. -/
theorem fst_untilSemicolon_append (h : as.foldl nest pending = []) (bs : List Token) :
    (untilSemicolon pending (as ++ .semicolon :: bs)).1 = (untilSemicolon pending as).1 := by
  induction as generalizing pending with
  | nil =>
    obtain rfl : pending = [] := h
    simp [untilSemicolon]
  | cons t as ih =>
    rw [List.cons_append, untilSemicolon, untilSemicolon]
    split
    case isTrue => rfl
    case isFalse => exact congrArg (t :: ·) (ih h)

theorem Resumes.cons {skip skip' : List Token → List Token} {t : Token}
    (hskip : ∀ ts, skip (t :: ts) = skip' ts) (h : Resumes skip' as) : Resumes skip (t :: as) := by
  cases h with
  | inside hrest happend =>
    refine .inside (by rwa [hskip]) fun bs => ?_
    rw [List.cons_append, hskip, hskip, happend]
  | behind hrest happend =>
    refine .behind (by rwa [hskip]) fun bs => ?_
    rw [List.cons_append, hskip, happend]

theorem resumes_id (h : as.foldl nest [] = []) : Resumes id as := .inside h fun _ => rfl

theorem resumes_untilSemicolon (h : as.foldl nest pending = []) :
    Resumes (fun ts => (untilSemicolon pending ts).2) as := by
  induction as generalizing pending with
  | nil =>
    obtain rfl : pending = [] := h
    exact .behind rfl fun bs => by simp [untilSemicolon]
  | cons t as ih =>
    rw [List.foldl_cons] at h
    by_cases hends : pending = [] ∧ t = .semicolon
    case pos =>
      obtain ⟨rfl, rfl⟩ := hends
      rw [nest_semicolon] at h
      exact (resumes_id h).cons fun ts => by simp [untilSemicolon]
    case neg => exact (ih h).cons fun ts => by rw [untilSemicolon, if_neg hends]

theorem resumes_dropBlock (h : as.foldl nest pending = []) : Resumes (dropBlock pending) as := by
  induction as generalizing pending with
  | nil =>
    obtain rfl : pending = [] := h
    exact .inside rfl fun _ => rfl
  | cons t as ih =>
    cases pending with
    | nil => exact .inside h fun _ => rfl
    | cons b outer => exact (ih h).cons fun _ => rfl

theorem resumes_dropAtRule (h : as.foldl nest pending = []) : Resumes (dropAtRule pending) as := by
  induction as generalizing pending with
  | nil =>
    obtain rfl : pending = [] := h
    exact .behind rfl fun bs => by simp [dropAtRule]
  | cons t as ih =>
    rw [List.foldl_cons] at h
    by_cases hends : pending = [] ∧ t = .semicolon
    case pos =>
      obtain ⟨rfl, rfl⟩ := hends
      rw [nest_semicolon] at h
      exact (resumes_id h).cons fun ts => by simp [dropAtRule]
    case neg =>
      by_cases hblock : pending = [] ∧ t = .opening .curly
      case pos =>
        obtain ⟨rfl, rfl⟩ := hblock
        rw [nest_of_opens? rfl] at h
        exact (resumes_dropBlock h).cons fun ts => by simp [dropAtRule]
      case neg => exact (ih h).cons fun ts => by rw [dropAtRule, if_neg hends, if_neg hblock]

theorem declarations_of_isSeparator {t : Token} (h : isSeparator t = true) (ts : List Token) :
    declarations (t :: ts) = declarations ts := by
  cases t <;> rw [declarations, if_pos h] <;> simp

@[simp] theorem declarations_semicolon (ts : List Token) :
    declarations (.semicolon :: ts) = declarations ts := declarations_of_isSeparator rfl ts

/-- Where reading resumes, the declarations behind the semicolon follow those before it. -/
theorem Resumes.declarations_append {skip : List Token → List Token} (h : Resumes skip as)
    (bs : List Token) (ih : (skip as).foldl nest [] = [] →
      declarations (skip as ++ .semicolon :: bs) = declarations (skip as) ++ declarations bs) :
    declarations (skip (as ++ .semicolon :: bs)) = declarations (skip as) ++ declarations bs := by
  cases h with
  | inside hrest happend => rw [happend, ih hrest]
  | behind hrest happend => rw [happend, hrest, declarations, List.nil_append]

/-- Behind tokens with no open bracket, a semicolon starts anew. -/
theorem declarations_append (h : as.foldl nest [] = []) (bs : List Token) :
    declarations (as ++ .semicolon :: bs) = declarations as ++ declarations bs := by
  fun_induction declarations as with
  | case1 => simp
  | case2 t ts hseparator ih =>
    have hopens : t.opens? = none := by
      cases t <;> simp_all [isSeparator, Token.isFiller, Token.opens?]
    rw [List.foldl_cons, nest_of_not_closes? hopens (by simp)] at h
    rw [List.cons_append, declarations_of_isSeparator hseparator, ih h]
  | case3 ts name r hseparator ih =>
    have hbody : ts.foldl nest [] = [] := h
    have hrest := (resumes_untilSemicolon hbody).declarations_append bs ih
    have hfst := fst_untilSemicolon_append hbody bs
    rw [List.cons_append, declarations, if_neg hseparator]
    simp only [hfst, hrest, List.cons_append, r]
  | case4 ts name hseparator ih =>
    have hrule : ts.foldl nest [] = [] := h
    have hrest := (resumes_dropAtRule hrule).declarations_append bs ih
    rw [List.cons_append, declarations, if_neg hseparator, hrest]
  | case5 ts t hident hatKeyword hseparator ih =>
    have hjunk : ts.foldl nest (nest [] t) = [] := h
    have hrest := (resumes_untilSemicolon hjunk).declarations_append bs ih
    rw [List.cons_append, declarations, if_neg hseparator, hrest]
    all_goals assumption

end Skipping

/-- A declaration does not disturb its neighbours. Where a semicolon divides the tokens of a text in
two, and every bracket opened before it is closed before it, each property has the value that the
second part gives to it, or else the one that the first part gives. -/
theorem neighbours_undisturbed (a b : String)
    (htokens : tokens (a ++ ";" ++ b).toList = tokens a.toList ++ .semicolon :: tokens b.toList)
    (hclosed : Closed none (tokens a.toList)) :
    InlineStyle.parse (a ++ ";" ++ b) =
      { display := (InlineStyle.parse b).display.or (InlineStyle.parse a).display
        whiteSpace := (InlineStyle.parse b).whiteSpace.or (InlineStyle.parse a).whiteSpace } := by
  have happend := declarations_append (foldl_nest_eq_nil_iff.mpr hclosed) (tokens b.toList)
  have hdisplay : (InlineStyle.parse (a ++ ";" ++ b)).display =
      (InlineStyle.parse b).display.or (InlineStyle.parse a).display := by
    simp only [InlineStyle.parse, InlineStyle.display_ofTokens, htokens, happend,
      List.reverse_append, List.findSome?_append]
  have hwhiteSpace : (InlineStyle.parse (a ++ ";" ++ b)).whiteSpace =
      (InlineStyle.parse b).whiteSpace.or (InlineStyle.parse a).whiteSpace := by
    simp only [InlineStyle.parse, InlineStyle.whiteSpace_ofTokens, htokens, happend,
      List.reverse_append, List.findSome?_append]
  rw [← hdisplay, ← hwhiteSpace]

/-- Two settings, an at-rule with a block, a stray bracket, and a declaration without a colon that
holds semicolons in a function, in a string and in an address. -/
def clutteredStyle : String := "display:flex;white-space:pre;@x{;};]display f(;)';'url(;)"

def correctedStyle : String := "white-space:bogus;display:grid"

theorem neighbours_undisturbed_clutteredStyle :
    tokens (clutteredStyle ++ ";" ++ correctedStyle).toList =
        tokens clutteredStyle.toList ++ .semicolon :: tokens correctedStyle.toList ∧
      Closed none (tokens clutteredStyle.toList) ∧
      InlineStyle.parse clutteredStyle = { display := some .flex, whiteSpace := some .pre } ∧
      InlineStyle.parse correctedStyle = { display := some .grid } ∧
      InlineStyle.parse (clutteredStyle ++ ";" ++ correctedStyle) =
        { display := some .grid, whiteSpace := some .pre } := by
  have htokens : tokens (clutteredStyle ++ ";" ++ correctedStyle).toList =
      tokens clutteredStyle.toList ++ .semicolon :: tokens correctedStyle.toList := by
    rw [String.toList_append, String.toList_append]
    decide +kernel
  have hclosed : Closed none (tokens clutteredStyle.toList) :=
    foldl_nest_eq_nil_iff.mp (by decide +kernel)
  have hfirst : InlineStyle.parse clutteredStyle =
      { display := some .flex, whiteSpace := some .pre } := by decide +kernel
  have hsecond : InlineStyle.parse correctedStyle = { display := some .grid } := by decide +kernel
  have hboth := neighbours_undisturbed clutteredStyle correctedStyle htokens hclosed
  rw [hfirst, hsecond] at hboth
  exact ⟨htokens, hclosed, hfirst, hsecond, hboth⟩

end Markup.Css
