import Markup.Checked
import Markup.Spacing
import Markup.Store.Map

/-! The whitespace at the boundary between two neighbours shows only if it shows for both. -/
namespace Markup.Annotate

/-- One side of a node: the link to the sibling there, and what the display of that sibling says
about whitespace between the two, or that of the parent if there is none. -/
structure Side where
  sibling : Node → Option NodeId
  ofSibling : Css.Display → Bool
  ofParent : Css.Display → Bool

def Side.leading : Side where
  sibling n := n.prev
  ofSibling d := d.keepsNextLeading
  ofParent d := d.keepsFirstChildLeading

def Side.trailing : Side where
  sibling n := n.next
  ofSibling d := d.keepsPrevTrailing
  ofParent d := d.keepsLastChildTrailing

/-- Whether whitespace on a side of a node shows, as far as the node, its parent and the sibling
there can tell. `preLike` looks up which nodes show the line structure of their content. -/
def keepsBy (preLike : NodeId → Except Error Bool) (side : Side) (s : Store) (id : NodeId) :
    Except Error Bool := do
  let n ← s.node id
  let sibling ← s.linked (side.sibling n)
  if n.kind.isTextLike && sibling.any (fun c => c.kind.isTextLike) then return true
  match n.parent with
  | none => return true
  | some parentId =>
    let parent ← s.node parentId
    if parent.toContent.display = .none then return true
    if ← preLike parentId then return true
    match sibling with
    | some c => return side.ofSibling c.display
    | none =>
      if parent.kind = .root then return false
      if ← preLike id then return false
      return !parent.toContent.isScriptLike && side.ofParent parent.toContent.display

def isPreLikeAt (s : Store) (id : NodeId) : Except Error Bool :=
  (s.node id).map fun n => n.toContent.isPreLike

def keepsLeading (s : Store) (id : NodeId) : Except Error Bool :=
  keepsBy (isPreLikeAt s) .leading s id

def keepsTrailing (s : Store) (id : NodeId) : Except Error Bool :=
  keepsBy (isPreLikeAt s) .trailing s id

/-- A property of a linked node; true if there is none. -/
def forLinked (f : NodeId → Except Error Bool) : Option NodeId → Except Error Bool
  | none => .ok true
  | some id => f id

/-- The second question is asked only if the answer to the first one is yes. -/
def both (a b : Except Error Bool) : Except Error Bool := do
  if ← a then b else return false

def noteDangling (n : Node) : Annotations :=
  if n.children = some [] then
    { n.notes with isDanglingSensitive := some n.toContent.keepsDangling }
  else n.notes

/-- Which nodes show the line structure of their content, by number. -/
def preLikeTable (s : Store) : Array Bool := s.nodes.map fun n => n.toContent.isPreLike

def boundary (s : Store) : Except Error Store :=
  let keeps := keepsBy (Checked.entry (preLikeTable s))
  s.annotate fun id n => do
    let notes := noteDangling n
    if n.parent.isNone then return { n.toContent with notes }
    else
      let leading ← both (keeps .leading s id) (forLinked (keeps .trailing s) n.prev)
      let trailing ← both (keeps .trailing s id) (forLinked (keeps .leading s) n.next)
      return { n.toContent with notes := { notes with
        isLeadingSensitive := some leading, isTrailingSensitive := some trailing } }

end Markup.Annotate
