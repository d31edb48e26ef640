import Markup.Css.Defaults
import Markup.Css.InlineStyle
import Markup.Store.Basic

/-! Which whitespace shows inside a node, as far as its content can tell. -/
namespace Markup

namespace Content

/-- Elements whose content is raw text. -/
def isScriptLike (c : Content) : Bool :=
  match c.kind with
  | .element e => ["script", "style", "svg:style"].contains (Text.lower e.fullName)
  | _ => false

def inlineStyle (c : Content) : Css.InlineStyle :=
  match c.kind with
  | .element e => ((e.attr? "style").map Css.InlineStyle.parse).getD {}
  | _ => {}

/-- The white-space setting in force: that of the style attribute, else that of the tag. Elements in
a namespace have no setting by tag, and nodes that are no elements have the normal one. -/
def whiteSpace (c : Content) : Css.WhiteSpace :=
  match c.kind with
  | .element e =>
    match c.inlineStyle.whiteSpace with
    | some w => w
    | none => if e.ns.isSome then .normal else Css.WhiteSpace.ofTag e.name
  | _ => .normal

/-- The line structure of the content shows. -/
def isPreLike (c : Content) : Bool := c.whiteSpace.isPre

def keepsIndentation (c : Content) : Bool := c.isPreLike

/-- Any change to whitespace would change the content. -/
def keepsWhitespace (c : Content) : Bool := c.isScriptLike || c.keepsIndentation

def keepsDangling (c : Content) : Bool := c.display.keepsDangling && !c.isScriptLike

end Content

namespace Store

def linked (s : Store) : Option NodeId → Except Error (Option Content)
  | none => .ok none
  | some id => (s.node id).map fun n => some n.toContent

end Store

end Markup
