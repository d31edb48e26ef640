/-! Whitespace of markup and of Unicode, trimming, and letter case. -/
namespace Markup.Text

/-- The whitespace of markup: space, tab, line feed, carriage return and form feed. -/
def isSpace (c : Char) : Bool :=
  c = ' ' || c = '\t' || c = '\n' || c = '\r' || c = '\x0c'

/-- A text cut into the whitespace in front, the content and the whitespace behind. -/
structure Trimmed where
  leading : List Char
  text : List Char
  trailing : List Char
deriving DecidableEq, Repr

/-- The longest end of `cs` whose characters all satisfy `p`, and what stands before it. -/
def splitEnd (p : Char → Bool) : List Char → List Char × List Char
  | [] => ([], [])
  | c :: cs =>
    match splitEnd p cs with
    | ([], tail) => if p c then ([], c :: tail) else ([c], tail)
    | (d :: front, tail) => (c :: d :: front, tail)

theorem splitEnd_append (p : Char → Bool) (cs : List Char) :
    (splitEnd p cs).1 ++ (splitEnd p cs).2 = cs := by
  induction cs with
  | nil => rfl
  | cons c cs ih =>
    rw [splitEnd]
    split
    case h_1 tail h => rw [h] at ih; split <;> simp_all
    case h_2 d front tail h => rw [h] at ih; simp_all

/-- Cut off the whitespace at both ends. A text of whitespace alone is all in front. -/
def splitSpace (cs : List Char) : Trimmed :=
  let rest := cs.dropWhile isSpace
  let parts := splitEnd isSpace rest
  { leading := cs.takeWhile isSpace, text := parts.1, trailing := parts.2 }

def trimBy (p : Char → Bool) (cs : List Char) : List Char :=
  ((cs.dropWhile p).reverse.dropWhile p).reverse

/-- Trim the whitespace of markup, and no other. -/
def trim (s : String) : String := String.ofList (trimBy isSpace s.toList)

def hasSpace (s : String) : Bool := s.toList.any isSpace

/-- The characters with the Unicode property White_Space. -/
def isBlank (c : Char) : Bool :=
  let n := c.toNat
  (0x09 ≤ n && n ≤ 0x0d) || n = 0x20 || n = 0x85 || n = 0xa0 || n = 0x1680 ||
    (0x2000 ≤ n && n ≤ 0x200a) || n = 0x2028 || n = 0x2029 || n = 0x202f || n = 0x205f ||
    n = 0x3000

/-- The text in lower case, for the letters A to Z only. -/
def lower (s : String) : String := String.ofList (s.toList.map Char.toLower)

@[simp] theorem toList_lower (s : String) : (lower s).toList = s.toList.map Char.toLower := by
  simp [lower]

/-- Equality up to the case of the letters A to Z. -/
def sameLetters (s t : String) : Bool := lower s == lower t

end Markup.Text
