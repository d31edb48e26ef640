import Markup.Source
import Markup.Text.Space

/-! Elements: names, attributes and the spans of their tags. -/
namespace Markup

/-- What a tag name says about the content of its elements. -/
structure TagTraits where
  isVoid : Bool := false
  /-- A line feed right behind the opening tag is not content. -/
  ignoresFirstLinefeed : Bool := false
deriving DecidableEq, Repr

namespace TagTraits

def voidNames : List String :=
  ["area", "base", "basefont", "bgsound", "br", "col", "embed", "frame", "hr", "img", "input",
   "keygen", "link", "meta", "param", "source", "track", "wbr"]

def linefeedNames : List String := ["pre", "textarea", "listing"]

/-- The traits of a standard tag, in any letter case. -/
def ofName (name : String) : TagTraits :=
  { isVoid := voidNames.contains (Text.lower name)
    ignoresFirstLinefeed := linefeedNames.contains (Text.lower name) }

end TagTraits

structure Attribute where
  name : String
  value : String
deriving DecidableEq, Repr

structure Element where
  name : String
  /-- What stands before the colon of the tag name. -/
  ns : Option String := none
  attrs : List Attribute := []
  tag : TagTraits := TagTraits.ofName name
  openTag : Span
  /-- Absent if the element is not closed; the same as `openTag` if one tag is both. -/
  closeTag : Option Span := none
  /-- The condition of the comments around the opening tag. -/
  condition : Option String := none
  /-- The closing tag is of the component kind, without a name. -/
  hasComponentClosing : Option Bool := none
deriving DecidableEq, Repr

namespace Element

def fullName (e : Element) : String :=
  match e.ns with
  | some space => space ++ ":" ++ e.name
  | none => e.name

/-- The value of the first attribute of this name, in any letter case. -/
def attr? (e : Element) (name : String) : Option String :=
  (e.attrs.find? fun a => Text.sameLetters a.name name).map (·.value)

end Element

end Markup
