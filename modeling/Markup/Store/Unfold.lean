import Markup.Store.Basic
import Markup.Tree

/-! The tree below the root of a store. A node that several child lists name occurs several times in
it; a store whose child lists run in a circle has none. -/
namespace Markup

/-- A document: a tree of node contents. -/
abbrev Doc := Tree Content

namespace Store

/-- The tree below `id`, for trees of a height up to the first argument. -/
def unfoldFrom (s : Store) : Nat → NodeId → Except Error (Tree (NodeId × Node))
  | 0, _ => .error .cyclic
  | height + 1, id => do
    let n ← s.node id
    match n.children with
    | none => return .leaf (id, n)
    | some ids => return .node (id, n) (← ids.mapM (s.unfoldFrom height))

/-- The tree below the root. No path without repetition is longer than the store. -/
def unfold (s : Store) : Except Error (Tree (NodeId × Node)) := s.unfoldFrom s.size 0

def toDoc (s : Store) : Except Error Doc := s.unfold.map (Tree.map fun p => p.2.toContent)

/-- Visit nodes from a stack, at most as many as the first argument says: take the top one and put
its children in its place. -/
def visit (s : Store) : Nat → List NodeId → Except Error (List NodeId)
  | _, [] => .ok []
  | 0, _ :: _ => .error .cyclic
  | budget + 1, id :: stack => do
    let n ← s.node id
    return id :: (← s.visit budget (n.children.getD [] ++ stack))

/-- The numbers of the nodes below the root, parents before children. -/
def dfs (s : Store) : Except Error (List NodeId) := do
  let t ← s.unfold
  s.visit t.size [0]

/-- Run a visitor at each node below the root in turn, parents before children. -/
def walk {σ : Type} (s : Store) (visitor : σ → NodeId → Except Error σ) (state : σ) :
    Except Error σ := do
  let ids ← s.dfs
  ids.foldlM visitor state

/-- Check that all spans of the nodes below the root lie in the source, between characters. -/
def checkSpans (s : Store) (src : Source) : Except Error Unit := do
  let ids ← s.dfs
  ids.forM fun id => do
    let n ← s.node id
    n.spans.forM fun span => (src.slice span).map fun _ => ()

end Store

end Markup
