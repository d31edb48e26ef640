import Markup.Reshape.Conditional
import Markup.Store.Rewrite

/-! Folding conditional comments, in place. The guards of a child list are found before any of them
is folded. -/
namespace Markup.Rewrite

open Reshape (Guard)

/-- The guard of a node: a start comment before it and an end comment at the front of its child
list, both touching its opening tag. -/
def guardOf (out : Store) (id : NodeId) : Except Error (Option Guard) := do
  let n ← out.node id
  match n.kind, n.prev with
  | .element e, some prev =>
    let before ← out.node prev
    match before.kind with
    | .conditionalStart condition =>
      if before.span.stop.offset ≠ e.openTag.start.offset then return none
      match ← out.firstChild? id with
      | none => return none
      | some first =>
        let inner ← out.node first
        if inner.kind = .conditionalEnd ∧ inner.span.start.offset = e.openTag.stop.offset then
          return some ⟨condition, before.span.start, inner.span.stop⟩
        else return none
    | _ => return none
  | _, _ => return none

/-- Take a guard into the node `id` and drop the end comment from its child list. -/
def foldGuard (out : Store) (id : NodeId) (g : Guard) : Except Error Store := do
  let content ← Checked.from_ (← out.children id) 1
  let out ← out.edit id g.take
  out.setChildren id content

/-- Fold the guards of a child list from index `i` on. A node before a guarded one is its start
comment and is dropped. -/
def foldFrom (guards : List (Option Guard)) :
    Nat → List NodeId → Store → Except Error (Store × List Event × List NodeId)
  | _, [], out => .ok (out, [], [])
  | i, id :: ids, out => do
    if (guards[i + 1]?).any Option.isSome then foldFrom guards (i + 1) ids out
    else
      match ← Checked.get guards i with
      | none =>
        let (out, events, kept) ← foldFrom guards (i + 1) ids out
        return (out, events, id :: kept)
      | some g =>
        let (out, events, kept) ← foldFrom guards (i + 1) ids (← foldGuard out id g)
        return (out, .foldedConditional g.condition g.start.offset :: events, id :: kept)

def conditional : Store.Editor := fun out id => do
  let ids ← out.children id
  let guards ← ids.mapM (guardOf out)
  if guards.all Option.isNone then return (out, [], none)
  let (out, events, kept) ← foldFrom guards 0 ids out
  return (out, events, some kept)

end Markup.Rewrite
