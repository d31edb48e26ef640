import Markup.Css.Display
import Markup.Element

/-! What a node holds apart from its place among other nodes. -/
namespace Markup

inductive Kind where
  | root
  | element (e : Element)
  | text (value : String)
  | comment (value : String)
  | cdata (value : String)
  /-- An expression between double braces, with its text as the only child. -/
  | interpolation
  | doctype (value : String)
  | conditionalStart (condition : String)
  | conditionalEnd
deriving DecidableEq, Repr

namespace Kind

def name : Kind → String
  | root => "root"
  | element _ => "element"
  | text _ => "text"
  | comment _ => "comment"
  | cdata _ => "cdata"
  | interpolation => "interpolation"
  | doctype _ => "doctype"
  | conditionalStart _ => "ie-conditional-start-comment"
  | conditionalEnd => "ie-conditional-end-comment"

def isContainer : Kind → Bool
  | root | element _ | interpolation => true
  | _ => false

def isText : Kind → Bool
  | text _ => true
  | _ => false

/-- Kinds that flow together as running text. -/
def isTextLike : Kind → Bool
  | text _ | interpolation => true
  | _ => false

def isElement : Kind → Bool
  | element _ => true
  | _ => false

def text? : Kind → Option String
  | text value => some value
  | _ => none

def element? : Kind → Option Element
  | element e => some e
  | _ => none

@[simp] theorem text?_eq_some_iff {k : Kind} {v : String} : k.text? = some v ↔ k = text v := by
  cases k <;> simp [text?]

@[simp] theorem element?_eq_some_iff {k : Kind} {e : Element} :
    k.element? = some e ↔ k = element e := by
  cases k <;> simp [element?]

theorem isText_iff {k : Kind} : k.isText = true ↔ ∃ v, k = text v := by
  cases k <;> simp [isText]

end Kind

/-- What is found out about a node. Each entry is absent until it has been computed. -/
structure Annotations where
  display : Option Css.Display := none
  hasLeadingSpaces : Option Bool := none
  hasTrailingSpaces : Option Bool := none
  /-- Whitespace was the only content. -/
  hasDanglingSpaces : Option Bool := none
  isLeadingSensitive : Option Bool := none
  isTrailingSensitive : Option Bool := none
  /-- Whitespace in the empty node would show. -/
  isDanglingSensitive : Option Bool := none
  /-- No whitespace inside the node may be changed. -/
  isWhitespaceSensitive : Option Bool := none
  /-- The lines inside the node may not be indented anew. -/
  isIndentationSensitive : Option Bool := none
  isSelfClosing : Option Bool := none
deriving DecidableEq, Repr

/-- What a node holds apart from its links. -/
structure Content where
  kind : Kind
  span : Span := {}
  notes : Annotations := {}
deriving DecidableEq, Repr

namespace Content

/-- The display found for the node; inline if there is none yet. -/
def display (c : Content) : Css.Display := c.notes.display.getD .inline

def hasLeadingSpaces (c : Content) : Bool := c.notes.hasLeadingSpaces.getD false

def hasTrailingSpaces (c : Content) : Bool := c.notes.hasTrailingSpaces.getD false

def hasDanglingSpaces (c : Content) : Bool := c.notes.hasDanglingSpaces.getD false

def isLeadingSensitive (c : Content) : Bool := c.notes.isLeadingSensitive.getD false

def isTrailingSensitive (c : Content) : Bool := c.notes.isTrailingSensitive.getD false

def isSelfClosing (c : Content) : Bool := c.notes.isSelfClosing.getD false

def setText (value : String) (span : Span) (c : Content) : Content :=
  { c with kind := .text value, span }

/-- Append to the value of a text, which then ends at `stop`. -/
def extendText (more : String) (stop : Location) (c : Content) : Content :=
  { c with
    kind := match c.kind with
      | .text value => .text (value ++ more)
      | kind => kind
    span := { c.span with stop } }

def setSpaces (leading trailing : Bool) (c : Content) : Content :=
  { c with notes := { c.notes with
    hasLeadingSpaces := some leading, hasTrailingSpaces := some trailing } }

/-- The spans that point into the source text, in the order in which they are checked. -/
def spans (c : Content) : List Span :=
  match c.kind with
  | .element e => c.span :: e.openTag :: e.closeTag.toList
  | _ => [c.span]

end Content

end Markup
