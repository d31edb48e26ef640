/-! Tokens of style text. -/
namespace Markup.Css

inductive Bracket where
  | round
  | square
  | curly
deriving DecidableEq, Repr

/-- A token. Escapes in names, strings and addresses are resolved; the values of numbers are not
kept, since no keyword property takes one. -/
inductive Token where
  | space
  | comment
  | ident (name : String)
  | function (name : String)
  | atKeyword (name : String)
  | hash (name : String)
  | string (value : String)
  /-- A string that is broken off by the end of its line. -/
  | badString
  /-- An address without quotes, up to its closing bracket. -/
  | url (value : String)
  | badUrl
  | number
  | percentage
  | dimension (unit : String)
  | colon
  | semicolon
  | comma
  | opening (b : Bracket)
  | closing (b : Bracket)
  /-- The sign `c` followed by an equals sign, as in attribute tests. -/
  | comparison (c : Char)
  | commentOpen
  | commentClose
  | delim (c : Char)
deriving DecidableEq, Repr

namespace Token

/-- Tokens that stand between others without a meaning of their own. -/
def isFiller : Token → Bool
  | space | comment => true
  | _ => false

def opens? : Token → Option Bracket
  | function _ => some .round
  | opening b => some b
  | _ => none

def closes? : Token → Option Bracket
  | closing b => some b
  | _ => none

end Token

end Markup.Css
