import Markup.Options
import Markup.Store.Map
import Markup.Text.Space

/-! Closing tags: nodes that are written without one, and elements whose closing tag has no name. -/
namespace Markup.Annotate

/-- Leaves, void elements and elements whose one tag both opens and closes them. -/
def isSelfClosing (n : Node) : Bool :=
  n.children.isNone ||
    match n.kind with
    | .element e => e.tag.isVoid || e.closeTag = some e.openTag
    | _ => false

/-- Two slashes between angle brackets, with any whitespace around the slashes. -/
def isComponentClosing : List Char → Bool
  | [] => false
  | c :: cs =>
    c = '<' && cs.getLast? = some '>' &&
      cs.dropLast.filter (fun d => !Text.isBlank d) = ['/', '/']

def hasComponentClosing (src : Source) (e : Element) : Bool :=
  match e.closeTag with
  | none => false
  | some span =>
    match src.slice span with
    | .ok tag => isComponentClosing tag.toList
    | .error _ => false

def selfClosing (s : Store) : Except Error Store :=
  s.annotate fun _ n =>
    .ok { n.toContent with notes := { n.notes with isSelfClosing := some (isSelfClosing n) } }

def componentClosing (src : Source) (s : Store) : Except Error Store :=
  s.annotate fun _ n =>
    .ok <| match n.kind with
      | .element e =>
        { n.toContent with
          kind := .element { e with hasComponentClosing := some (hasComponentClosing src e) } }
      | _ => n.toContent

end Markup.Annotate
