import Markup.Store.Rewrite

/-! Turning character data sections into text, in place. -/
namespace Markup.Rewrite

def sectionText? : Kind → Option String
  | .cdata value => some ("<![CDATA[" ++ value ++ "]]>")
  | _ => none

/-- Append the value of one text node to another, which then ends where the first one does. -/
def appendText (out : Store) (target source : NodeId) : Except Error Store := do
  let n ← out.node source
  out.edit target (.extendText (n.kind.text?.getD "") n.span.stop)

/-- Put a text node behind the nodes that are done, or into the last of them if that is a text. -/
def placeText (out : Store) (done : List NodeId) (id : NodeId) :
    Except Error (Store × List NodeId) := do
  match done.getLast? with
  | none => return (out, done ++ [id])
  | some last =>
    if (← out.node last).kind.isText then return (← appendText out last id, done)
    else return (out, done ++ [id])

def toText (out : Store) (id : NodeId) (value : String) : Except Error Store := do
  let out ← out.edit id fun c => { c with kind := .text value }
  return out.adjust id fun n => { n with children := none }

/-- Go through a child list, each node with the mark of whether it is a section. -/
def mergeFrom : List (NodeId × Bool) → List NodeId → Store → Except Error (Store × List NodeId)
  | [], done, out => .ok (out, done)
  | (id, true) :: rest, done, out => do
    let n ← out.node id
    let out ← toText out id ((sectionText? n.kind).getD "")
    let (out, done) ← placeText out done id
    mergeFrom rest done out
  | (id, false) :: rest, done, out => do
    if (← out.node id).kind.isText then
      let (out, done) ← placeText out done id
      mergeFrom rest done out
    else mergeFrom rest (done ++ [id]) out

def cdata : Store.Editor := fun out id => do
  let ids ← out.children id
  let marks ← ids.mapM fun id => (out.node id).map fun n => (sectionText? n.kind).isSome
  if !marks.contains true then return (out, [], none)
  let (out, merged) ← mergeFrom (ids.zip marks) [] out
  return (out, [], some merged)

end Markup.Rewrite
