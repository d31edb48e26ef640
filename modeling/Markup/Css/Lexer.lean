import Markup.Css.Token
import Markup.Text.Space

/-! Reading style text as tokens. Each reader returns what it has read and the rest of the text;
no reader returns a longer rest than it was given, so the token list is found by recursion on the
length of the text. -/
namespace Markup.Css

namespace Lexer

def isNewline (c : Char) : Bool := c = '\n' || c = '\r' || c = '\x0c'

def startsNewline : List Char → Bool
  | [] => false
  | c :: _ => isNewline c

def isNameStart (c : Char) : Bool := c.isAlpha || c = '_' || c = '\x00' || 0x80 ≤ c.toNat

def isNameChar (c : Char) : Bool := isNameStart c || c.isDigit || c = '-'

/-- The character that stands for one that cannot be represented. -/
def replacement : Char := '�'

def clean (c : Char) : Char := if c = '\x00' then replacement else c

def startsName : List Char → Bool
  | [] => false
  | c :: cs =>
    if c = '-' then
      match cs with
      | [] => false
      | d :: _ => isNameStart d || d = '-' || d = '\\'
    else if c = '\\' then !startsNewline cs
    else isNameStart c

def startsDecimal : List Char → Bool
  | [] => false
  | c :: cs =>
    c.isDigit ||
      match cs with
      | [] => false
      | d :: _ => c = '.' && d.isDigit

def dropSign : List Char → List Char
  | [] => []
  | c :: cs => if c = '+' || c = '-' then cs else c :: cs

def startsNumber (cs : List Char) : Bool := startsDecimal (dropSign cs)

/-! ### Escapes -/

def hexDigit? (c : Char) : Option Nat :=
  if c.isDigit then some (c.toNat - '0'.toNat)
  else if 'a' ≤ c ∧ c ≤ 'f' then some (c.toNat - 'a'.toNat + 10)
  else if 'A' ≤ c ∧ c ≤ 'F' then some (c.toNat - 'A'.toNat + 10)
  else none

/-- Read at most `n` more hexadecimal digits after the value `v`. -/
def hexDigits : Nat → Nat → List Char → Nat × List Char
  | 0, v, cs => (v, cs)
  | _ + 1, v, [] => (v, [])
  | n + 1, v, c :: cs =>
    match hexDigit? c with
    | some d => hexDigits n (16 * v + d) cs
    | none => (v, c :: cs)

/-- Drop one character of whitespace; a carriage return and its line feed count as one. -/
def dropSpace : List Char → List Char
  | [] => []
  | c :: cs =>
    if c = '\r' then
      match cs with
      | [] => []
      | d :: ds => if d = '\n' then ds else d :: ds
    else if Text.isSpace c then cs
    else c :: cs

/-- The character with this code, if there is one other than NUL. -/
def scalar (n : Nat) : Char :=
  if n ≠ 0 ∧ n.isValidChar then Char.ofNat n else replacement

def escape : List Char → Char × List Char
  | [] => (replacement, [])
  | c :: cs =>
    match hexDigit? c with
    | some d =>
      let r := hexDigits 5 d cs
      (scalar r.1, dropSpace r.2)
    | none => (clean c, cs)

theorem length_hexDigits_le (n v : Nat) (cs : List Char) :
    (hexDigits n v cs).2.length ≤ cs.length := by
  fun_induction hexDigits n v cs with
  | case1 => exact Nat.le_refl _
  | case2 => exact Nat.le_refl _
  | case3 n v c cs d h ih => exact Nat.le_succ_of_le ih
  | case4 => exact Nat.le_refl _

theorem length_dropSpace_le (cs : List Char) : (dropSpace cs).length ≤ cs.length := by
  unfold dropSpace
  repeat' split
  all_goals simp only [List.length_cons, List.length_nil]
  all_goals omega

theorem length_escape_le (cs : List Char) : (escape cs).2.length ≤ cs.length := by
  unfold escape
  split
  case h_1 => simp
  case h_2 c cs =>
    split
    case h_1 d h =>
      have h1 := length_dropSpace_le (hexDigits 5 d cs).2
      have h2 := length_hexDigits_le 5 d cs
      simp only [List.length_cons]
      omega
    case h_2 => simp

/-! ### Names, strings and addresses -/

def name : List Char → List Char × List Char
  | [] => ([], [])
  | c :: cs =>
    if c = '\\' then
      if startsNewline cs then ([], c :: cs)
      else
        let r := name (escape cs).2
        ((escape cs).1 :: r.1, r.2)
    else if isNameChar c then
      let r := name cs
      (clean c :: r.1, r.2)
    else ([], c :: cs)
termination_by cs => cs.length
decreasing_by
  · have := length_escape_le cs
    simp only [List.length_cons]
    omega
  · simp

theorem length_name_le (cs : List Char) : (name cs).2.length ≤ cs.length := by
  fun_induction name cs with
  | case1 => exact Nat.le_refl _
  | case2 => exact Nat.le_refl _
  | case3 cs _ _ ih => exact Nat.le_succ_of_le (Nat.le_trans ih (length_escape_le cs))
  | case4 c cs _ _ _ ih => exact Nat.le_succ_of_le ih
  | case5 => exact Nat.le_refl _

theorem length_name_lt {cs : List Char} (h : startsName cs = true) :
    (name cs).2.length < cs.length := by
  cases cs with
  | nil => simp [startsName] at h
  | cons c cs =>
    rw [name]
    split
    case isTrue hc =>
      have hn : startsNewline cs = false := by
        subst hc
        simpa [startsName] using h
      have h1 := length_name_le (escape cs).2
      have h2 := length_escape_le cs
      simp only [hn, Bool.false_eq_true, ↓reduceIte, List.length_cons]
      omega
    case isFalse hc =>
      have hn : isNameChar c = true := by
        by_cases hd : c = '-'
        case pos => simp [isNameChar, hd]
        case neg =>
          have hs : isNameStart c = true := by simpa [startsName, hc, hd] using h
          simp [isNameChar, hs]
      have h1 := length_name_le cs
      simp only [hn, ↓reduceIte, List.length_cons]
      omega

/-- Read a string after its opening quote `q`. A newline breaks it off and is left in the rest; the
end of the text closes it. -/
def quoted (q : Char) : List Char → Option (List Char) × List Char
  | [] => (some [], [])
  | c :: cs =>
    if c = q then (some [], cs)
    else if isNewline c then (none, c :: cs)
    else if c = '\\' then
      if cs = [] then (some [], [])
      else if startsNewline cs then quoted q (dropSpace cs)
      else
        let r := quoted q (escape cs).2
        (r.1.map ((escape cs).1 :: ·), r.2)
    else
      let r := quoted q cs
      (r.1.map (clean c :: ·), r.2)
termination_by cs => cs.length
decreasing_by
  · have := length_dropSpace_le cs
    simp only [List.length_cons]
    omega
  · have := length_escape_le cs
    simp only [List.length_cons]
    omega
  · simp

theorem length_quoted_le (q : Char) (cs : List Char) : (quoted q cs).2.length ≤ cs.length := by
  fun_induction quoted q cs with
  | case1 => exact Nat.le_refl _
  | case2 => exact Nat.le_succ _
  | case3 => exact Nat.le_refl _
  | case4 => exact Nat.zero_le _
  | case5 cs _ _ _ _ ih => exact Nat.le_succ_of_le (Nat.le_trans ih (length_dropSpace_le cs))
  | case6 cs _ _ _ _ _ ih => exact Nat.le_succ_of_le (Nat.le_trans ih (length_escape_le cs))
  | case7 c cs _ _ _ _ ih => exact Nat.le_succ_of_le ih

def breaksUrl (c : Char) : Bool :=
  let n := c.toNat
  (0x01 ≤ n && n ≤ 0x08) || n = 0x0b || (0x0e ≤ n && n ≤ 0x1f) || n = 0x7f ||
    c = '"' || c = '\'' || c = '('

/-- Drop the rest of a broken address, with its closing bracket. A backslash guards a bracket or
another backslash. -/
def dropBadUrl : List Char → List Char
  | [] => []
  | c :: cs =>
    if c = ')' then cs
    else if c = '\\' then
      match cs with
      | [] => []
      | d :: ds => if d = ')' || d = '\\' then dropBadUrl ds else dropBadUrl (d :: ds)
    else dropBadUrl cs

theorem length_dropBadUrl_le (cs : List Char) : (dropBadUrl cs).length ≤ cs.length := by
  fun_induction dropBadUrl cs <;> simp_all only [List.length_cons, List.length_nil] <;> omega

/-- What follows the whitespace behind an address: its closing bracket or the end of the text. -/
def urlEnd (cs : List Char) : Option (List Char) × List Char :=
  match cs.dropWhile Text.isSpace with
  | [] => (some [], [])
  | c :: rest => if c = ')' then (some [], rest) else (none, dropBadUrl rest)

theorem length_urlEnd_le (cs : List Char) : (urlEnd cs).2.length ≤ cs.length := by
  have h := (List.dropWhile_sublist Text.isSpace (l := cs)).length_le
  unfold urlEnd
  split
  case h_1 => simp
  case h_2 c rest hr =>
    rw [hr, List.length_cons] at h
    have := length_dropBadUrl_le rest
    split <;> simp only <;> omega

def url : List Char → Option (List Char) × List Char
  | [] => (some [], [])
  | c :: cs =>
    if c = ')' then (some [], cs)
    else if Text.isSpace c then urlEnd cs
    else if breaksUrl c then (none, dropBadUrl cs)
    else if c = '\\' then
      if startsNewline cs then (none, dropBadUrl cs)
      else
        let r := url (escape cs).2
        (r.1.map ((escape cs).1 :: ·), r.2)
    else
      let r := url cs
      (r.1.map (clean c :: ·), r.2)
termination_by cs => cs.length
decreasing_by
  · have := length_escape_le cs
    simp only [List.length_cons]
    omega
  · simp

theorem length_url_le (cs : List Char) : (url cs).2.length ≤ cs.length := by
  fun_induction url cs with
  | case1 => exact Nat.le_refl _
  | case2 => exact Nat.le_succ _
  | case3 c cs => exact Nat.le_succ_of_le (length_urlEnd_le cs)
  | case4 c cs => exact Nat.le_succ_of_le (length_dropBadUrl_le cs)
  | case5 cs => exact Nat.le_succ_of_le (length_dropBadUrl_le cs)
  | case6 cs _ _ _ _ _ ih => exact Nat.le_succ_of_le (Nat.le_trans ih (length_escape_le cs))
  | case7 c cs _ _ _ _ _ ih => exact Nat.le_succ_of_le ih

/-! ### Tokens -/

/-- Drop a comment after its opening. A comment that is not closed runs to the end. -/
def dropComment : List Char → List Char
  | [] => []
  | c :: cs =>
    match cs with
    | [] => []
    | d :: ds => if c = '*' ∧ d = '/' then ds else dropComment (d :: ds)

theorem length_dropComment_le (cs : List Char) : (dropComment cs).length ≤ cs.length := by
  fun_induction dropComment cs <;> simp_all only [List.length_cons, List.length_nil] <;> omega

def startsDigit : List Char → Bool
  | [] => false
  | c :: _ => c.isDigit

def dropDigits (cs : List Char) : List Char := cs.dropWhile Char.isDigit

def dropFraction : List Char → List Char
  | [] => []
  | c :: cs => if c = '.' ∧ startsDigit cs then dropDigits cs else c :: cs

def dropExponent : List Char → List Char
  | [] => []
  | c :: cs =>
    if (c = 'e' ∨ c = 'E') ∧ startsDigit (dropSign cs) then dropDigits (dropSign cs) else c :: cs

def dropNumber (cs : List Char) : List Char :=
  dropExponent (dropFraction (dropDigits (dropSign cs)))

theorem length_dropDigits_le (cs : List Char) : (dropDigits cs).length ≤ cs.length :=
  (List.dropWhile_sublist Char.isDigit).length_le

theorem length_dropSign_le (cs : List Char) : (dropSign cs).length ≤ cs.length := by
  unfold dropSign
  repeat' split
  all_goals simp

theorem length_dropFraction_le (cs : List Char) : (dropFraction cs).length ≤ cs.length := by
  unfold dropFraction
  split
  case h_1 => simp
  case h_2 c cs =>
    split
    case isTrue => exact Nat.le_succ_of_le (length_dropDigits_le cs)
    case isFalse => exact Nat.le_refl _

theorem length_dropExponent_le (cs : List Char) : (dropExponent cs).length ≤ cs.length := by
  unfold dropExponent
  split
  case h_1 => simp
  case h_2 c cs =>
    split
    case isTrue =>
      exact Nat.le_succ_of_le (Nat.le_trans (length_dropDigits_le _) (length_dropSign_le cs))
    case isFalse => exact Nat.le_refl _

theorem length_dropNumber_lt {cs : List Char} (h : startsNumber cs = true) :
    (dropNumber cs).length < cs.length := by
  have hsign := length_dropSign_le cs
  have hexp := length_dropExponent_le (dropFraction (dropDigits (dropSign cs)))
  suffices hdec : (dropFraction (dropDigits (dropSign cs))).length < (dropSign cs).length by
    unfold dropNumber
    omega
  unfold startsNumber at h
  generalize dropSign cs = ds at h ⊢
  cases ds with
  | nil => simp [startsDecimal] at h
  | cons c ds =>
    have hfrac := length_dropFraction_le (dropDigits (c :: ds))
    by_cases hc : c.isDigit = true
    case pos =>
      have hd : (dropDigits (c :: ds)).length ≤ ds.length := by
        have hdrop : dropDigits (c :: ds) = dropDigits ds := by simp [dropDigits, hc]
        rw [hdrop]
        exact length_dropDigits_le ds
      simp only [List.length_cons]
      omega
    case neg =>
      have hdrop : dropDigits (c :: ds) = c :: ds := by simp [dropDigits, hc]
      cases ds with
      | nil => simp [startsDecimal, hc] at h
      | cons d ds =>
        have hcd : c = '.' ∧ d.isDigit = true := by simpa [startsDecimal, hc] using h
        have hd := length_dropDigits_le (d :: ds)
        rw [hdrop]
        simp only [dropFraction, hcd.1, startsDigit, hcd.2, and_self, ↓reduceIte, List.length_cons]
        simp only [List.length_cons] at hd
        omega

/-- A number with what is written right behind it: a percent sign, a unit or nothing. -/
def number (cs : List Char) : Token × List Char :=
  match dropNumber cs with
  | [] => (.number, [])
  | c :: rest =>
    if c = '%' then (.percentage, rest)
    else if startsName (c :: rest) then
      let r := name (c :: rest)
      (.dimension (String.ofList r.1), r.2)
    else (.number, c :: rest)

theorem length_number_lt {cs : List Char} (h : startsNumber cs = true) :
    (number cs).2.length < cs.length := by
  have hlt := length_dropNumber_lt h
  unfold number
  split
  case h_1 heq => rw [heq] at hlt; exact hlt
  case h_2 c rest heq =>
    rw [heq] at hlt
    have hn := length_name_le (c :: rest)
    simp only [List.length_cons] at hlt hn
    repeat' split
    all_goals simp only [List.length_cons]
    all_goals omega

/-- What stands behind the opening of an address: a quoted string makes it a function, anything else
belongs to the address. -/
def urlOrFunction (fn : List Char) (cs : List Char) : Token × List Char :=
  let inner := cs.dropWhile Text.isSpace
  if inner.head? = some '"' ∨ inner.head? = some '\'' then (.function (String.ofList fn), cs)
  else
    match url inner with
    | (some value, rest) => (.url (String.ofList value), rest)
    | (none, rest) => (.badUrl, rest)

theorem length_urlOrFunction_le (fn cs : List Char) :
    (urlOrFunction fn cs).2.length ≤ cs.length := by
  have h1 := (List.dropWhile_sublist Text.isSpace (l := cs)).length_le
  have h2 := length_url_le (cs.dropWhile Text.isSpace)
  unfold urlOrFunction
  simp only
  split
  case isTrue => exact Nat.le_refl _
  case isFalse =>
    split
    all_goals
      rename_i heq
      rw [heq] at h2
      exact Nat.le_trans h2 h1

def nameLike (cs : List Char) : Token × List Char :=
  let r := name cs
  match r.2 with
  | [] => (.ident (String.ofList r.1), [])
  | c :: rest =>
    if c = '(' then
      if Text.sameLetters (String.ofList r.1) "url" then urlOrFunction r.1 rest
      else (.function (String.ofList r.1), rest)
    else (.ident (String.ofList r.1), c :: rest)

theorem length_nameLike_lt {cs : List Char} (h : startsName cs = true) :
    (nameLike cs).2.length < cs.length := by
  have hlt := length_name_lt h
  unfold nameLike
  simp only
  split
  case h_1 heq => rw [heq] at hlt; exact hlt
  case h_2 c rest heq =>
    rw [heq] at hlt
    have hu := length_urlOrFunction_le (name cs).1 rest
    rw [List.length_cons] at hlt
    split
    case isTrue =>
      split
      case isTrue => omega
      case isFalse => exact Nat.lt_of_succ_lt hlt
    case isFalse => exact hlt

def punctuation (c : Char) : Token :=
  if c = ':' then .colon
  else if c = ';' then .semicolon
  else if c = ',' then .comma
  else if c = '(' then .opening .round
  else if c = ')' then .closing .round
  else if c = '[' then .opening .square
  else if c = ']' then .closing .square
  else if c = '\x7b' then .opening .curly
  else if c = '\x7d' then .closing .curly
  else .delim c

def isComparison (c : Char) : Bool := c = '~' || c = '|' || c = '^' || c = '$' || c = '*'

def sign (c : Char) (cs : List Char) : Token × List Char :=
  if Text.isSpace c then (.space, cs.dropWhile Text.isSpace)
  else if c = '"' ∨ c = '\'' then
    match quoted c cs with
    | (some value, rest) => (.string (String.ofList value), rest)
    | (none, rest) => (.badString, rest)
  else if c = '#' ∧ (startsName cs ∨ startsDigit cs ∨ cs.head? = some '-') then
    let r := name cs
    (.hash (String.ofList r.1), r.2)
  else if c = '@' ∧ startsName cs then
    let r := name cs
    (.atKeyword (String.ofList r.1), r.2)
  else if c = '/' ∧ cs.head? = some '*' then (.comment, dropComment cs.tail)
  else if c = '<' ∧ cs.take 3 = ['!', '-', '-'] then (.commentOpen, cs.drop 3)
  else if isComparison c ∧ cs.head? = some '=' then (.comparison c, cs.tail)
  else (punctuation c, cs)

theorem length_sign_le (c : Char) (cs : List Char) : (sign c cs).2.length ≤ cs.length := by
  have hs := (List.dropWhile_sublist Text.isSpace (l := cs)).length_le
  have hq := length_quoted_le c cs
  have hn := length_name_le cs
  have hc := length_dropComment_le cs.tail
  have ht : cs.tail.length ≤ cs.length := by simp
  have hd : (cs.drop 3).length ≤ cs.length := by simp
  unfold sign
  repeat' split
  all_goals first
    | exact Nat.le_refl _
    | exact hs
    | exact hn
    | exact hd
    | exact ht
    | exact Nat.le_trans hc ht
    | (rename_i heq; rw [heq] at hq; exact hq)

def scan (c : Char) (cs : List Char) : Token × List Char :=
  if startsNumber (c :: cs) then number (c :: cs)
  else if c = '-' ∧ cs.take 2 = ['-', '>'] then (.commentClose, cs.drop 2)
  else if startsName (c :: cs) then nameLike (c :: cs)
  else sign c cs

theorem length_scan_le (c : Char) (cs : List Char) : (scan c cs).2.length ≤ cs.length := by
  unfold scan
  split
  case isTrue h => exact Nat.le_of_lt_succ (length_number_lt h)
  case isFalse =>
    split
    case isTrue => simp
    case isFalse =>
      split
      case isTrue h => exact Nat.le_of_lt_succ (length_nameLike_lt h)
      case isFalse => exact length_sign_le c cs

end Lexer

def tokens : List Char → List Token
  | [] => []
  | c :: cs => (Lexer.scan c cs).1 :: tokens (Lexer.scan c cs).2
termination_by cs => cs.length
decreasing_by
  have := Lexer.length_scan_le c cs
  simp only [List.length_cons]
  omega

@[simp] theorem tokens_nil : tokens [] = [] := by rw [tokens]

theorem tokens_cons (c : Char) (cs : List Char) :
    tokens (c :: cs) = (Lexer.scan c cs).1 :: tokens (Lexer.scan c cs).2 := by
  rw [tokens]

end Markup.Css
