import Markup.Store.Unfold

/-! Rebuilding a store node by node. Every node below the root is copied into a fresh store,
children before parents, and what then hangs below the copy of the root is moved to its
final place. -/
namespace Markup.Store

/-- What is done at each node of a rebuilt store: from the state, the store so far and the number of
the fresh copy to the number that takes its place. -/
abbrev Visitor (σ : Type) := σ → Store → NodeId → Except Error (σ × Store × NodeId)

variable {σ : Type}

/-- Run `g` on each number of a list in turn and list the numbers that it returns. -/
def inTurn (g : NodeId → σ → Store → Except Error (σ × Store × NodeId)) :
    List NodeId → σ → Store → Except Error (σ × Store × List NodeId)
  | [], state, out => .ok (state, out, [])
  | id :: ids, state, out => do
    let (state, out, new) ← g id state out
    let (state, out, news) ← inTurn g ids state out
    return (state, out, new :: news)

/-- Copy what stands at and below `id` into the store `out`, for trees of a height up to the given
one. The visitor sees each copy with the nodes that it returned for the children as its child
list. -/
def rebuildFrom (s : Store) (f : Visitor σ) :
    Nat → NodeId → σ → Store → Except Error (σ × Store × NodeId)
  | 0, _, _, _ => .error .cyclic
  | height + 1, id, state, out => do
    let n ← s.node id
    match n.children with
    | none =>
      let (out, copy) := out.alloc { n.toContent with }
      f state out copy
    | some ids =>
      let (state, out, copies) ← inTurn (s.rebuildFrom f height) ids state out
      let (out, copy) := out.alloc { n.toContent with children := some [] }
      f state (← out.setChildren copy copies) copy

def rebuild (s : Store) (f : Visitor σ) (state : σ) : Except Error (σ × Store × NodeId) :=
  s.rebuildFrom f s.size 0 state ⟨#[]⟩

/-- Move what stands at and below `id` to the end of the store `out`, parents before children. Of a
node that was moved before only a bare root without a child list is left. -/
def moveFrom : Nat → Option NodeId → NodeId → Store → Store →
    Except Error (Store × Store × NodeId)
  | 0, _, _, _, _ => .error .cyclic
  | height + 1, parent, id, s, out => do
    let n ← s.node id
    let s := s.adjust id fun n => { n with kind := .root, children := none }
    let (out, new) :=
      out.alloc { n.toContent with parent, children := n.children.map fun _ => [] }
    match n.children with
    | none => return (s, out, new)
    | some ids =>
      let (s, out, news) ← inTurn (moveFrom height (some new)) ids s out
      return (s, ← out.setChildren new news, new)

/-- A store of nothing but what stands at and below `root`, numbered in document order. A path ends
at the first node that it meets again. -/
def compact (s : Store) (root : NodeId) : Except Error Store :=
  (moveFrom (s.size + 1) none root s ⟨#[]⟩).map (·.2.1)

/-- Rebuild the tree below the root with a visitor, and number the result in document order. -/
def map (s : Store) (f : Visitor σ) (state : σ) : Except Error (σ × Store) := do
  let (state, out, root) ← s.rebuild f state
  return (state, ← out.compact root)

/-- Set the content of every node below the root anew. `f` is called once for each occurrence of a
node, with the node as it then is. -/
def annotate (s : Store) (f : NodeId → Node → Except Error Content) : Except Error Store := do
  let ids ← s.dfs
  ids.foldlM (fun out id => do
    let c ← f id (← out.node id)
    return out.adjust id fun n => { n with toContent := c }) s

end Markup.Store
