import Markup.Css.Declaration
import Markup.Css.Display
import Markup.Css.Lexer
import Markup.Css.WhiteSpace

/-! Style attributes: the two properties that decide which whitespace counts. -/
namespace Markup.Css

structure InlineStyle where
  display : Option Display := none
  whiteSpace : Option WhiteSpace := none
deriving DecidableEq, Repr

namespace InlineStyle

/-- Take over a declaration. One that is malformed, sets another property or names no known keyword
changes nothing. -/
def declare (s : InlineStyle) (d : Declaration) : InlineStyle :=
  match d.keyword? with
  | none => s
  | some keyword =>
    if Text.sameLetters d.name "display" then
      { s with display := Display.ofKeyword? keyword <|> s.display }
    else if Text.sameLetters d.name "white-space" then
      { s with whiteSpace := WhiteSpace.ofKeyword? keyword <|> s.whiteSpace }
    else s

/-- The last declaration of a property counts. -/
def ofTokens (ts : List Token) : InlineStyle := (declarations ts).foldl declare {}

def parse (s : String) : InlineStyle := ofTokens (tokens s.toList)

end InlineStyle

end Markup.Css
