import Markup.Source
import Markup.Text.Space

/-! What a document is prepared for. -/
namespace Markup

inductive Dialect where
  | html
  | vue
  | angular
deriving DecidableEq, Repr

namespace Dialect

def hasInterpolation : Dialect → Bool
  | html => false
  | vue | angular => true

/-- The dialect of this name, in any letter case. -/
def parse (s : String) : Except Error Dialect :=
  let name := Text.lower s
  if name = "html" then .ok html
  else if name = "vue" then .ok vue
  else if name = "angular" then .ok angular
  else .error (.unknownOption "dialect" s)

end Dialect

/-- How nodes get their display. -/
inductive Sensitivity where
  /-- By style and tag name. -/
  | css
  /-- Every node is inline, so all whitespace counts. -/
  | strict
  /-- Every node is a block, so whitespace between nodes does not count. -/
  | ignore
deriving DecidableEq, Repr

namespace Sensitivity

def parse (s : String) : Except Error Sensitivity :=
  let name := Text.lower s
  if name = "css" then .ok css
  else if name = "strict" then .ok strict
  else if name = "ignore" then .ok ignore
  else .error (.unknownOption "whitespace sensitivity" s)

end Sensitivity

structure Options where
  dialect : Dialect := .html
  sensitivity : Sensitivity := .css
  /-- The text that the spans of the document point into. -/
  source : Source
deriving DecidableEq, Repr

end Markup
