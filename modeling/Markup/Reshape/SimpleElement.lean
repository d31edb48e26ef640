import Markup.Store.Unfold
import Markup.Text.Space

/-! Simple elements as text. An element that cannot be told from its markup by any whitespace is
written out and joined with the texts on both sides of it. -/
namespace Markup.Reshape

/-- A single word without whitespace around it. -/
def isWord (t : Doc) : Bool :=
  t.label.kind.text?.any (fun value => !Text.hasSpace value) &&
    !t.label.hasLeadingSpaces && !t.label.hasTrailingSpaces

/-- An element without attributes that holds a single word and touches what stands before and
behind it, so that no whitespace may be put there. -/
def isSimple (t : Doc) : Bool :=
  match t.label.kind, t.children with
  | .element e, [inner] =>
    e.attrs.isEmpty && isWord inner &&
      t.label.isLeadingSensitive && !t.label.hasLeadingSpaces &&
      t.label.isTrailingSensitive && !t.label.hasTrailingSpaces
  | _, _ => false

def isSimpleBetween (before t after : Doc) : Bool :=
  before.label.kind.isText && isSimple t && after.label.kind.isText

def textOf (t : Doc) : String := t.label.kind.text?.getD ""

def markup (t : Doc) : String :=
  let name := (t.label.kind.element?.map Element.fullName).getD ""
  let content := (t.children.head?.map textOf).getD ""
  "<" ++ name ++ ">" ++ content ++ "</" ++ name ++ ">"

/-- One text from two texts and the element between them. At its end it is what the second text
was. -/
def joinAcross (before t after : Doc) : Doc :=
  before.setLabel
    { kind := .text (textOf before ++ markup t ++ textOf after)
      span := { before.label.span with stop := after.label.span.stop }
      notes := { before.label.notes with
        isTrailingSensitive := after.label.notes.isTrailingSensitive
        hasTrailingSpaces := after.label.notes.hasTrailingSpaces } }

def foldBehind : Doc → List Doc → List Doc
  | t, [] => [t]
  | t, [u] => [t, u]
  | t, u :: v :: ts =>
    if isSimpleBetween t u v then foldBehind (joinAcross t u v) ts
    else t :: foldBehind u (v :: ts)

def foldSimple : List Doc → List Doc
  | [] => []
  | t :: ts => foldBehind t ts

def foldedBehind : Doc → List Doc → List String
  | _, [] => []
  | _, [_] => []
  | t, u :: v :: ts =>
    if isSimpleBetween t u v then markup u :: foldedBehind (joinAcross t u v) ts
    else foldedBehind u (v :: ts)

def folded : List Doc → List String
  | [] => []
  | t :: ts => foldedBehind t ts

def simpleElementStep (c : Content) (ts : List Doc) : Content × List Doc := (c, foldSimple ts)

def simpleElement (d : Doc) : Doc := d.reshape simpleElementStep

def foldedElements (d : Doc) : List String := d.collect simpleElementStep fun _ ts => folded ts

end Markup.Reshape
