/-! Trees whose nodes carry a label and, unless they are leaves, an ordered list of children. A leaf
and a node with no children are different trees. -/
namespace Markup

inductive Tree (α : Type) where
  | leaf (label : α)
  | node (label : α) (children : List (Tree α))
deriving Repr

namespace Tree

variable {α β : Type}

def label : Tree α → α
  | leaf a => a
  | node a _ => a

def children : Tree α → List (Tree α)
  | leaf _ => []
  | node _ ts => ts

def children? : Tree α → Option (List (Tree α))
  | leaf _ => none
  | node _ ts => some ts

def setLabel (a : α) : Tree α → Tree α
  | leaf _ => leaf a
  | node _ ts => node a ts

@[simp] theorem label_leaf (a : α) : (leaf a).label = a := rfl
@[simp] theorem label_node (a : α) (ts : List (Tree α)) : (node a ts).label = a := rfl
@[simp] theorem children_leaf (a : α) : (leaf a).children = [] := rfl
@[simp] theorem children_node (a : α) (ts : List (Tree α)) : (node a ts).children = ts := rfl
@[simp] theorem children?_leaf (a : α) : (leaf a).children? = none := rfl
@[simp] theorem children?_node (a : α) (ts : List (Tree α)) : (node a ts).children? = some ts := rfl
@[simp] theorem label_setLabel (a : α) (t : Tree α) : (t.setLabel a).label = a := by
  cases t <;> rfl
@[simp] theorem children?_setLabel (a : α) (t : Tree α) :
    (t.setLabel a).children? = t.children? := by
  cases t <;> rfl

/-- Induction over a tree, with the hypothesis for every child. -/
@[elab_as_elim]
theorem induct {motive : Tree α → Prop} (leaf : ∀ a, motive (leaf a))
    (node : ∀ a ts, (∀ t ∈ ts, motive t) → motive (node a ts)) : ∀ t, motive t
  | .leaf a => leaf a
  | .node a ts => node a ts (go ts)
where
  go : ∀ ts : List (Tree α), ∀ t ∈ ts, motive t
  | [], _, h => nomatch h
  | s :: ts, t, h => (List.mem_cons.mp h).elim (fun e => e ▸ induct leaf node s) (go ts t)

mutual
def size : Tree α → Nat
  | leaf _ => 1
  | node _ ts => sizeAll ts + 1
def sizeAll : List (Tree α) → Nat
  | [] => 0
  | t :: ts => size t + sizeAll ts
end

mutual
def map (f : α → β) : Tree α → Tree β
  | leaf a => leaf (f a)
  | node a ts => node (f a) (mapAll f ts)
def mapAll (f : α → β) : List (Tree α) → List (Tree β)
  | [] => []
  | t :: ts => map f t :: mapAll f ts
end

mutual
/-- The labels, parents before children. -/
def preorder : Tree α → List α
  | leaf a => [a]
  | node a ts => a :: preorderAll ts
def preorderAll : List (Tree α) → List α
  | [] => []
  | t :: ts => preorder t ++ preorderAll ts
end

mutual
/-- The labels, children before parents. -/
def postorder : Tree α → List α
  | leaf a => [a]
  | node a ts => postorderAll ts ++ [a]
def postorderAll : List (Tree α) → List α
  | [] => []
  | t :: ts => postorder t ++ postorderAll ts
end

mutual
/-- Reshape every child list, innermost first. `f` gets a label with the reshaped children and
returns the label and the children that take their place. -/
def reshape (f : α → List (Tree α) → α × List (Tree α)) : Tree α → Tree α
  | leaf a => leaf a
  | node a ts => node (f a (reshapeAll f ts)).1 (f a (reshapeAll f ts)).2
def reshapeAll (f : α → List (Tree α) → α × List (Tree α)) : List (Tree α) → List (Tree α)
  | [] => []
  | t :: ts => reshape f t :: reshapeAll f ts
end

mutual
/-- What `g` finds in the child lists that `reshape f` comes to, in the same order. -/
def collect {ε : Type} (f : α → List (Tree α) → α × List (Tree α))
    (g : α → List (Tree α) → List ε) : Tree α → List ε
  | leaf _ => []
  | node a ts => collectAll f g ts ++ g a (reshapeAll f ts)
def collectAll {ε : Type} (f : α → List (Tree α) → α × List (Tree α))
    (g : α → List (Tree α) → List ε) : List (Tree α) → List ε
  | [] => []
  | t :: ts => collect f g t ++ collectAll f g ts
end

@[simp] theorem size_leaf (a : α) : (leaf a).size = 1 := by rw [size]
@[simp] theorem size_node (a : α) (ts : List (Tree α)) : (node a ts).size = sizeAll ts + 1 := by
  rw [size]
@[simp] theorem sizeAll_nil : sizeAll ([] : List (Tree α)) = 0 := by rw [sizeAll]
@[simp] theorem sizeAll_cons (t : Tree α) (ts : List (Tree α)) :
    sizeAll (t :: ts) = t.size + sizeAll ts := by
  rw [sizeAll]

theorem size_pos (t : Tree α) : 0 < t.size := by cases t <;> simp

@[simp] theorem map_leaf (f : α → β) (a : α) : (leaf a).map f = leaf (f a) := by rw [map]
@[simp] theorem mapAll_eq (f : α → β) (ts : List (Tree α)) : mapAll f ts = ts.map (map f) := by
  induction ts with
  | nil => rw [mapAll, List.map_nil]
  | cons t ts ih => rw [mapAll, List.map_cons, ih]
@[simp] theorem map_node (f : α → β) (a : α) (ts : List (Tree α)) :
    (node a ts).map f = node (f a) (ts.map (map f)) := by
  rw [map, mapAll_eq]

@[simp] theorem preorder_leaf (a : α) : (leaf a).preorder = [a] := by rw [preorder]
@[simp] theorem preorderAll_eq (ts : List (Tree α)) : preorderAll ts = ts.flatMap preorder := by
  induction ts with
  | nil => rw [preorderAll, List.flatMap_nil]
  | cons t ts ih => rw [preorderAll, List.flatMap_cons, ih]
@[simp] theorem preorder_node (a : α) (ts : List (Tree α)) :
    (node a ts).preorder = a :: ts.flatMap preorder := by
  rw [preorder, preorderAll_eq]

@[simp] theorem postorder_leaf (a : α) : (leaf a).postorder = [a] := by rw [postorder]
@[simp] theorem postorderAll_eq (ts : List (Tree α)) :
    postorderAll ts = ts.flatMap postorder := by
  induction ts with
  | nil => rw [postorderAll, List.flatMap_nil]
  | cons t ts ih => rw [postorderAll, List.flatMap_cons, ih]
@[simp] theorem postorder_node (a : α) (ts : List (Tree α)) :
    (node a ts).postorder = ts.flatMap postorder ++ [a] := by
  rw [postorder, postorderAll_eq]

@[simp] theorem reshape_leaf (f : α → List (Tree α) → α × List (Tree α)) (a : α) :
    (leaf a).reshape f = leaf a := by
  rw [reshape]
@[simp] theorem reshapeAll_eq (f : α → List (Tree α) → α × List (Tree α)) (ts : List (Tree α)) :
    reshapeAll f ts = ts.map (reshape f) := by
  induction ts with
  | nil => rw [reshapeAll, List.map_nil]
  | cons t ts ih => rw [reshapeAll, List.map_cons, ih]
@[simp] theorem reshape_node (f : α → List (Tree α) → α × List (Tree α)) (a : α)
    (ts : List (Tree α)) :
    (node a ts).reshape f = node (f a (ts.map (reshape f))).1 (f a (ts.map (reshape f))).2 := by
  rw [reshape, reshapeAll_eq]

theorem length_preorder (t : Tree α) : t.preorder.length = t.size := by
  induction t using induct with
  | leaf a => simp
  | node a ts ih =>
    rw [preorder_node, size_node, List.length_cons]
    congr 1
    induction ts with
    | nil => simp
    | cons t ts iht =>
      have ht := ih t List.mem_cons_self
      have hts := iht fun s hs => ih s (List.mem_cons_of_mem _ hs)
      simp [ht, hts]

end Tree

end Markup
