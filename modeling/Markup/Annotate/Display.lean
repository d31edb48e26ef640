import Markup.Options
import Markup.Spacing
import Markup.Store.Map

/-! The display of each node. -/
namespace Markup.Annotate

/-- The display that a comment asks for: the word `display:` and a keyword. -/
def directive? (comment : String) : Option Css.Display :=
  let cs := Text.trimBy Text.isBlank comment.toList
  if "display:".toList.isPrefixOf cs then
    let keyword := Text.trimBy Text.isBlank (cs.drop "display:".toList.length)
    Css.Display.ofKeyword? (String.ofList keyword)
  else none

def requested? (c : Content) : Option Css.Display :=
  match c.kind with
  | .comment value => directive? value
  | _ => none

def ownDisplay (c : Content) : Css.Display :=
  match c.kind with
  | .element e =>
    match c.inlineStyle.display with
    | some d => d
    | none => if e.ns.isSome then .inline else (Css.Display.ofTag? e.name).getD .inline
  | _ => .inline

/-- The display of a node. A comment right before it comes first, then the mode; top-level nodes of
a component file are blocks. -/
def displayOf (o : Options) (c : Content) (isTopLevel : Bool) (prev : Option Content) :
    Css.Display :=
  match prev.bind requested? with
  | some d => d
  | none =>
    match o.sensitivity with
    | .strict => .inline
    | .ignore => .block
    | .css => if o.dialect = .vue ∧ isTopLevel then .block else ownDisplay c

def display (o : Options) (s : Store) : Except Error Store :=
  s.annotate fun _ n => do
    let d := displayOf o n.toContent (n.parent = some 0) (← s.linked n.prev)
    return { n.toContent with notes := { n.notes with display := some d } }

end Markup.Annotate
