import Markup.Describe
import Markup.Store.Unfold

/-! Comparing documents: the first node, in document order, at which two of them differ. -/
namespace Markup

/-- What a comparison sees of a node. -/
structure Head where
  content : Content
  /-- Number of children; absent for a leaf. -/
  arity : Option Nat
deriving DecidableEq, Repr

def Tree.head (d : Doc) : Head := ⟨d.label, d.children?.map List.length⟩

namespace Head

def describe (h : Head) : String := Describe.node h.content h.arity

end Head

structure Divergence where
  /-- The child positions that lead from the root to the node. -/
  path : List Nat
  left : Head
  right : Head
deriving DecidableEq, Repr

namespace Divergence

def message (d : Divergence) : String :=
  "trees diverge at /" ++ String.intercalate "/" (d.path.map toString) ++ ": " ++
    d.left.describe ++ " != " ++ d.right.describe

def below (i : Nat) (d : Divergence) : Divergence := { d with path := i :: d.path }

end Divergence

mutual
def Tree.diff : Doc → Doc → Option Divergence
  | .leaf a, b =>
    if Tree.head (.leaf a) = b.head then none else some ⟨[], Tree.head (.leaf a), b.head⟩
  | .node a ts, b =>
    if Tree.head (.node a ts) = b.head then Tree.diffAll 0 ts b.children
    else some ⟨[], Tree.head (.node a ts), b.head⟩
/-- The first difference between two child lists, where `i` children have been passed. -/
def Tree.diffAll (i : Nat) : List Doc → List Doc → Option Divergence
  | [], _ => none
  | _ :: _, [] => none
  | t :: ts, u :: us =>
    match Tree.diff t u with
    | some d => some (d.below i)
    | none => Tree.diffAll (i + 1) ts us
end

namespace Store

/-- The first difference between the documents of two stores. Numbers, links and detached nodes do
not count. -/
def diff (s t : Store) : Except Error (Option Divergence) := do
  return Tree.diff (← s.toDoc) (← t.toDoc)

end Store

end Markup
