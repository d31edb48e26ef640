import Markup.Store.Rewrite
import Markup.Text.Space

/-! Folding simple elements into the text around them, in place. The simple elements of a child list
are found before any of them is folded. -/
namespace Markup.Rewrite

def isTextAt (out : Store) : Option NodeId → Except Error Bool
  | none => .ok false
  | some id => (out.node id).map fun n => n.kind.isText

/-- An element without attributes that holds a single word and stands between two texts, which it
touches, so that no whitespace may be put there. -/
def isSimple (out : Store) (id : NodeId) : Except Error Bool := do
  let n ← out.node id
  match n.kind, ← out.children id with
  | .element e, [only] =>
    let inner ← out.node only
    if e.attrs.isEmpty && inner.kind.text?.any (fun value => !Text.hasSpace value) &&
        !inner.toContent.hasLeadingSpaces && !inner.toContent.hasTrailingSpaces &&
        n.toContent.isLeadingSensitive && !n.toContent.hasLeadingSpaces &&
        n.toContent.isTrailingSensitive && !n.toContent.hasTrailingSpaces then
      return (← isTextAt out n.prev) && (← isTextAt out n.next)
    else return false
  | _, _ => return false

def literal (out : Store) (id : NodeId) : Except Error String := do
  let n ← out.node id
  let name := (n.kind.element?.map Element.fullName).getD ""
  let content ← match ← out.firstChild? id with
    | none => pure ""
    | some first => (out.node first).map fun inner => inner.kind.text?.getD ""
  return "<" ++ name ++ ">" ++ content ++ "</" ++ name ++ ">"

/-- The content of a text that goes on with some markup and another text, whose end it takes. -/
def goOn (markup : String) (next c : Content) : Content :=
  let joined := c.extendText (markup ++ next.kind.text?.getD "") next.span.stop
  { joined with notes := { c.notes with
    isTrailingSensitive := next.notes.isTrailingSensitive
    hasTrailingSpaces := next.notes.hasTrailingSpaces } }

def extend (out : Store) (last next : NodeId) (markup : String) : Except Error Store := do
  let n ← out.node next
  out.edit last (goOn markup n.toContent)

/-- Go through a child list from index `i` on. Behind a simple element the text that follows it is
done as well. -/
def foldElements (ids : List NodeId) (marks : List Bool) (i : Nat) (done : List NodeId)
    (out : Store) : Except Error (Store × List Event × List NodeId) :=
  if i < ids.length then do
    let id ← Checked.get ids i
    match ← Checked.get marks i, done.getLast?, ids[i + 1]? with
    | true, some last, some next =>
      let markup ← literal out id
      let out ← extend out last next markup
      let (out, events, done) ← foldElements ids marks (i + 2) done out
      return (out, .foldedElement markup :: events, done)
    | _, _, _ => foldElements ids marks (i + 1) (done ++ [id]) out
  else .ok (out, [], done)
termination_by ids.length - i

def simpleElement : Store.Editor := fun out id => do
  let ids ← out.children id
  let marks ← ids.mapM (isSimple out)
  if !marks.contains true then return (out, [], none)
  let (out, events, merged) ← foldElements ids marks 0 [] out
  return (out, events, some merged)

end Markup.Rewrite
