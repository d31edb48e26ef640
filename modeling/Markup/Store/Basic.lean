import Markup.Content

/-! A store of numbered nodes. Nodes name their parent, their siblings and their children by number;
a node that no child list names is detached. -/
namespace Markup

structure Node extends Content where
  parent : Option NodeId := none
  prev : Option NodeId := none
  next : Option NodeId := none
  /-- The children in order; absent on nodes that cannot have any. -/
  children : Option (List NodeId) := none
deriving DecidableEq, Repr

namespace Node

/-- A detached node with this content. It gets an empty child list if its kind has one at all. -/
def ofContent (c : Content) : Node :=
  { c with children := if c.kind.isContainer then some [] else none }

def detach (n : Node) : Node := { n with parent := none, prev := none, next := none }

end Node

structure Store where
  nodes : Array Node
deriving DecidableEq, Repr

namespace Store

def new (span : Span) : Store := ⟨#[Node.ofContent { kind := .root, span }]⟩

/-- Number of allocated nodes, the detached ones included. -/
def size (s : Store) : Nat := s.nodes.size

def node? (s : Store) (id : NodeId) : Option Node := s.nodes[id]?

def node (s : Store) (id : NodeId) : Except Error Node :=
  match s.node? id with
  | some n => .ok n
  | none => .error (.missingNode id)

theorem node_eq_ok {s : Store} {id : NodeId} {n : Node} (h : s.node? id = some n) :
    s.node id = .ok n := by
  simp [node, h]

def adjust (s : Store) (id : NodeId) (f : Node → Node) : Store := ⟨s.nodes.modify id f⟩

@[simp] theorem size_adjust (s : Store) (id : NodeId) (f : Node → Node) :
    (s.adjust id f).size = s.size := by
  simp [adjust, size]

theorem node?_adjust_self (s : Store) (id : NodeId) (f : Node → Node) :
    (s.adjust id f).node? id = (s.node? id).map f := by
  simp [adjust, node?, Array.getElem?_modify]

theorem node?_adjust_of_ne (s : Store) {id other : NodeId} (h : id ≠ other) (f : Node → Node) :
    (s.adjust id f).node? other = s.node? other := by
  simp [adjust, node?, Array.getElem?_modify, h]

/-- Change the content of a node that has to be there. -/
def edit (s : Store) (id : NodeId) (f : Content → Content) : Except Error Store :=
  (s.node id).map fun _ => s.adjust id fun n => { n with toContent := f n.toContent }

def alloc (s : Store) (n : Node) : Store × NodeId := (⟨s.nodes.push n⟩, s.size)

@[simp] theorem alloc_snd (s : Store) (n : Node) : (s.alloc n).2 = s.size := rfl

@[simp] theorem size_alloc (s : Store) (n : Node) : (s.alloc n).1.size = s.size + 1 := by
  simp [alloc, size]

theorem node?_alloc (s : Store) (n : Node) (id : NodeId) :
    (s.alloc n).1.node? id = if id = s.size then some n else s.node? id := by
  exact Array.getElem?_push

theorem node?_alloc_self (s : Store) (n : Node) : (s.alloc n).1.node? s.size = some n := by
  rw [node?_alloc, if_pos rfl]

theorem node?_alloc_of_lt {s : Store} {id : NodeId} (h : id < s.size) (n : Node) :
    (s.alloc n).1.node? id = s.node? id := by
  rw [node?_alloc, if_neg (Nat.ne_of_lt h)]

/-- The children of a node; none on nodes without a child list. -/
def children (s : Store) (id : NodeId) : Except Error (List NodeId) :=
  (s.node id).map fun n => n.children.getD []

def firstChild? (s : Store) (id : NodeId) : Except Error (Option NodeId) :=
  (s.children id).map List.head?

/-- Hang the detached node `child` behind the children of `parent`. The root counts as attached. -/
def appendChild (s : Store) (parent child : NodeId) : Except Error Store :=
  match s.node? child with
  | none => .error (.unknownNode child)
  | some c =>
    if child = 0 ∨ c.parent.isSome then .error (.alreadyAttached child)
    else
      match s.node? parent with
      | none => .error (.unknownNode parent)
      | some p =>
        match p.children with
        | none => .error (.notAContainer parent p.kind.name)
        | some siblings =>
          let last := siblings.getLast?
          let s := match last with
            | none => s
            | some l => s.adjust l fun n => { n with next := some child }
          let s := s.adjust child fun n =>
            { n with parent := some parent, prev := last, next := none }
          .ok (s.adjust parent fun n => { n with children := some (siblings ++ [child]) })

/-- Link the nodes of a child list to `parent` and to each other, from left to right. -/
def linkFrom (parent : NodeId) : Option NodeId → List NodeId → Store → Store
  | _, [], s => s
  | prev, c :: cs, s =>
    linkFrom parent (some c) cs <| s.adjust c fun n =>
      { n with parent := some parent, prev, next := cs.head? }

/-- The store in which `parent` has the child list `ids` and its children are linked. A node without
a child list gets none. -/
def relist (s : Store) (parent : NodeId) (ids : List NodeId) : Store :=
  (linkFrom parent none ids s).adjust parent fun n =>
    { n with children := n.children.map fun _ => ids }

/-- Give `parent` the child list `ids`, if all of these nodes are there. -/
def setChildren (s : Store) (parent : NodeId) (ids : List NodeId) : Except Error Store := do
  ids.forM fun id => (s.node id).map fun _ => ()
  let _ ← s.node parent
  return s.relist parent ids

/-- Add a detached copy of a node, changed by `f`, which takes over the children that it then
lists. -/
def copyWith (s : Store) (id : NodeId) (f : Node → Node) : Except Error (Store × NodeId) := do
  let n := f (← s.node id).detach
  let (s, copy) := s.alloc { n with children := n.children.map fun _ => [] }
  match n.children with
  | none => return (s, copy)
  | some ids => return (← s.setChildren copy ids, copy)

end Store

end Markup
