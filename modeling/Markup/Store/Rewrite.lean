import Markup.Event
import Markup.Store.Map

/-! Rewriting child lists. A store is rebuilt, and each container is offered with its children
already rebuilt and linked. -/
namespace Markup.Store

/-- What is done to a container: from the store so far and its number to the store with the changes,
what there is to report, and the new child list, absent if the old one stays. -/
abbrev Editor := Store → NodeId → Except Error (Store × List Event × Option (List NodeId))

/-- Call an editor at each copy that has a child list. -/
def Editor.visitor (w : Editor) : Visitor (List Event) := fun log out id => do
  let n ← out.node id
  if n.children.isNone then return (log, out, id)
  let (out, events, children?) ← w out id
  match children? with
  | none => return (log ++ events, out, id)
  | some ids => return (log ++ events, ← out.setChildren id ids, id)

/-- Rewrite all child lists below the root, innermost first. -/
def rewriteChildren (s : Store) (w : Editor) : Except Error (List Event × Store) :=
  s.map w.visitor []

end Markup.Store
