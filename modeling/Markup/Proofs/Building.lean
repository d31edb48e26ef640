import Markup.Proofs.Unfolding

/-! Stores that are built node by node. Only nodes of certain kinds ever get a child list, so the
document in such a store has children nowhere else. -/
namespace Markup

namespace Store

/-- A store that starts with its root alone and grows by detached nodes that are hung up later. -/
inductive Built : Store → Prop where
  | new (span : Span) : Built (.new span)
  | alloc {s : Store} (c : Content) : Built s → Built (s.alloc (Node.ofContent c)).1
  | appendChild {s s' : Store} {parent child : NodeId} :
      Built s → s.appendChild parent child = .ok s' → Built s'

def grow (s : Store) (parent : NodeId) (c : Content) : Store :=
  let next := (s.alloc (Node.ofContent c)).1
  match next.appendChild parent s.size with
  | .ok grown => grown
  | .error _ => next

theorem Built.grow {s : Store} (h : s.Built) (parent : NodeId) (c : Content) :
    (s.grow parent c).Built := by
  have halloc := h.alloc c
  rw [Store.grow]
  split
  case h_1 happend => exact halloc.appendChild happend
  case h_2 => exact halloc

def growAll (s : Store) (cs : List (NodeId × Content)) : Store :=
  cs.foldl (fun s c => s.grow c.1 c.2) s

theorem Built.growAll {s : Store} (h : s.Built) (cs : List (NodeId × Content)) :
    (s.growAll cs).Built := by
  induction cs generalizing s with
  | nil => exact h
  | cons c cs ih => exact ih (h.grow c.1 c.2)

/-- Nodes have a child list just if their kind has one. -/
def Sorted (s : Store) : Prop :=
  ∀ id n, s.node? id = some n → n.children.isSome = n.kind.isContainer

theorem isSome_children_ofContent (c : Content) :
    (Node.ofContent c).children.isSome = (Node.ofContent c).kind.isContainer := by
  cases h : c.kind.isContainer <;> simp [Node.ofContent, h]

theorem node?_adjust (s : Store) (id other : NodeId) (f : Node → Node) :
    (s.adjust id f).node? other = if id = other then (s.node? other).map f else s.node? other := by
  split
  case isTrue h =>
    subst h
    exact node?_adjust_self s id f
  case isFalse h => exact node?_adjust_of_ne s h f

/-- What a node becomes when `child` is hung up behind `siblings` below `parent`. -/
def hang (parent child : NodeId) (siblings : List NodeId) (id : NodeId) (n : Node) : Node :=
  { n with
    parent := if child = id then some parent else n.parent
    prev := if child = id then siblings.getLast? else n.prev
    next := if child = id then none else if siblings.getLast? = some id then some child else n.next
    children := if parent = id then some (siblings ++ [child]) else n.children }

/-- The detached node `child` is hung up behind the children of `parent`. The node, its parent and
the last of its siblings change, and nothing else does. -/
structure Hangs (s s' : Store) (parent child : NodeId) (siblings : List NodeId) : Prop where
  notRoot : child ≠ 0
  detached : ∃ c, s.node? child = some c ∧ c.parent = none
  before : ∃ p, s.node? parent = some p ∧ p.children = some siblings
  nodes : ∀ id, s'.node? id = (s.node? id).map (hang parent child siblings id)

theorem appendChild_eq_ok {s s' : Store} {parent child : NodeId}
    (h : s.appendChild parent child = .ok s') : ∃ siblings, Hangs s s' parent child siblings := by
  rw [appendChild] at h
  split at h
  case h_1 => simp at h
  case h_2 c hc =>
    split at h
    case isTrue => simp at h
    case isFalse hdetached =>
      rw [not_or, Option.isSome_iff_ne_none, not_not] at hdetached
      split at h
      case h_1 => simp at h
      case h_2 p hp =>
        split at h
        case h_1 => simp at h
        case h_2 siblings hsiblings =>
          refine ⟨siblings, hdetached.1, ⟨c, hc, hdetached.2⟩, ⟨p, hp, hsiblings⟩, ?_⟩
          intro id
          obtain rfl := Except.ok.inj h
          unfold hang
          cases hlast : siblings.getLast? with
          | none =>
            by_cases hchild : child = id <;> by_cases hparent : parent = id <;>
              simp [node?_adjust, Function.comp_def, hchild, hparent]
          | some l =>
            by_cases hchild : child = id <;> by_cases hparent : parent = id <;>
              by_cases hl : l = id <;>
                simp [node?_adjust, Function.comp_def, hchild, hparent, hl]

theorem Sorted.appendChild {s s' : Store} {parent child : NodeId} (h : s.Sorted)
    (happend : s.appendChild parent child = .ok s') : s'.Sorted := by
  obtain ⟨siblings, hhangs⟩ := appendChild_eq_ok happend
  obtain ⟨p, hp, hsiblings⟩ := hhangs.before
  intro id n hn
  rw [hhangs.nodes] at hn
  obtain ⟨m, hm, rfl⟩ := Option.map_eq_some_iff.mp hn
  have hcontainer := h id m hm
  by_cases hid : parent = id
  case pos =>
    subst hid
    obtain rfl : m = p := Option.some.inj (hm.symm.trans hp)
    rw [hsiblings] at hcontainer
    simpa [hang] using hcontainer
  case neg => simpa [hang, hid] using hcontainer

theorem Built.sorted {s : Store} (h : s.Built) : s.Sorted := by
  induction h with
  | new span =>
    intro id n hn
    rw [node?, Store.new, Array.getElem?_singleton] at hn
    split at hn
    case isTrue =>
      obtain rfl := Option.some.inj hn
      exact isSome_children_ofContent _
    case isFalse => simp at hn
  | alloc c _ ih =>
    intro id n hn
    rw [node?_alloc] at hn
    split at hn
    case isTrue =>
      obtain rfl := Option.some.inj hn
      exact isSome_children_ofContent c
    case isFalse => exact ih id n hn
  | appendChild _ happend ih => exact ih.appendChild happend

theorem everywhere_of_unfoldFrom {s : Store} {height : Nat} {id : NodeId} {t : Tree (NodeId × Node)}
    (h : s.unfoldFrom height id = .ok t) :
    Tree.Everywhere (fun u : Doc => ∃ i n, s.node? i = some n ∧ n.toContent = u.label ∧
      n.children.isSome = u.children?.isSome) (t.map fun p => p.2.toContent) := by
  induction height generalizing id t with
  | zero => simp [unfoldFrom] at h
  | succ height ih =>
    obtain ⟨n, hn, ⟨hnone, rfl⟩ | ⟨ids, ts, hids, hts, rfl⟩⟩ := unfoldFrom_succ_eq_ok.mp h
    · rw [Tree.map_leaf, Tree.everywhere_leaf]
      exact ⟨id, n, hn, rfl, by simp [hnone]⟩
    · rw [Tree.map_node, Tree.everywhere_node, List.forall_mem_map]
      refine ⟨⟨id, n, hn, rfl, by simp [hids]⟩, ?_⟩
      intro u hu
      obtain ⟨j, -, hj⟩ := Tree.exists_of_mem_forall₂ hts hu
      exact ih hj

end Store

/-- The tree has a child list just if its kind has one. -/
def Shaped (t : Doc) : Prop := t.children?.isSome = t.label.kind.isContainer

theorem Shaped.eq_leaf {t : Doc} (h : Shaped t) (hkind : t.label.kind.isContainer = false) :
    t = .leaf t.label := by
  cases t with
  | leaf c => rfl
  | node c ts => exact absurd h (by simp_all [Shaped])

/-- The document of such a store has its children where they belong, and kinds that are those of
nodes. -/
theorem Store.Sorted.everywhere_toDoc {s : Store} (h : s.Sorted) {d : Doc} (hd : s.toDoc = .ok d)
    {P : Kind → Prop} (hP : ∀ id n, s.node? id = some n → P n.kind) :
    Tree.Everywhere (fun t => Shaped t ∧ P t.label.kind) d := by
  obtain ⟨t, ht, rfl⟩ := exists_unfold_of_toDoc hd
  refine (everywhere_of_unfoldFrom ht).mono ?_
  rintro u ⟨id, n, hn, hlabel, hchildren⟩
  constructor
  · rw [Shaped, ← hchildren, ← hlabel]
    exact h id n hn
  · exact hlabel ▸ hP id n hn

theorem Store.Built.everywhere_toDoc {s : Store} (h : s.Built) {d : Doc} (hd : s.toDoc = .ok d)
    {P : Kind → Prop} (hP : ∀ id n, s.node? id = some n → P n.kind) :
    Tree.Everywhere (fun t => Shaped t ∧ P t.label.kind) d :=
  h.sorted.everywhere_toDoc hd hP

end Markup
