/-! The keywords of the `white-space` property. -/
namespace Markup.Css

inductive WhiteSpace where
  | normal
  | nowrap
  | pre
  | preWrap
  | preLine
deriving DecidableEq, Repr

namespace WhiteSpace

instance : Inhabited WhiteSpace := ⟨normal⟩

def keyword : WhiteSpace → String
  | normal => "normal"
  | nowrap => "nowrap"
  | pre => "pre"
  | preWrap => "pre-wrap"
  | preLine => "pre-line"

def all : List WhiteSpace := [normal, nowrap, pre, preWrap, preLine]

theorem mem_all (w : WhiteSpace) : w ∈ all := by cases w <;> simp [all]

def ofKeyword? (s : String) : Option WhiteSpace := all.find? fun w => w.keyword == s

@[simp] theorem ofKeyword?_keyword (w : WhiteSpace) : ofKeyword? w.keyword = some w := by
  cases w <;> decide

theorem keyword_of_ofKeyword? {s : String} {w : WhiteSpace} (h : ofKeyword? s = some w) :
    w.keyword = s := by
  simpa using List.find?_some h

/-- The settings that keep the line structure of the text. -/
def isPre : WhiteSpace → Bool
  | pre | preWrap | preLine => true
  | normal | nowrap => false

end WhiteSpace

end Markup.Css
