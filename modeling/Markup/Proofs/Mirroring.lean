import Markup.Proofs.AnyOrder
import Markup.Proofs.Rebuilding

/-! Stores from right to left. If every child list is reversed and its nodes are linked anew, the
siblings of each node change sides and nothing else does. What shows before a node then shows behind
it, so the boundaries of the mirrored store are the mirrored boundaries of the store. -/
namespace Markup

/-- A box treats whitespace on both of its sides alike, and so it does at both ends of its
content. -/
theorem Place.keepsLeading_flip (p : Place) : p.flip.keepsLeading = p.keepsTrailing := rfl

theorem Place.keepsTrailing_flip (p : Place) : p.flip.keepsTrailing = p.keepsLeading := rfl

/-- The notes with the two sides of the node swapped. -/
def Annotations.swapSides (a : Annotations) : Annotations :=
  { a with
    isLeadingSensitive := a.isTrailingSensitive
    isTrailingSensitive := a.isLeadingSensitive }

theorem Annotations.swapSides_eq_self {a : Annotations}
    (h : a.isLeadingSensitive = a.isTrailingSensitive) : a.swapSides = a := by
  cases a
  cases h
  rfl

/-- The node seen from right to left. -/
def Node.flip (n : Node) : Node :=
  { n with prev := n.next, next := n.prev, children := n.children.map List.reverse }

def Node.links (n : Node) : List NodeId := n.parent.toList ++ n.prev.toList ++ n.next.toList

theorem Node.mem_links {n : Node} {i : NodeId} :
    i ∈ n.links ↔ n.parent = some i ∨ n.prev = some i ∨ n.next = some i := by
  simp [links]

@[simp] theorem Node.toContent_flip (n : Node) : n.flip.toContent = n.toContent := rfl

@[simp] theorem Node.parent_flip (n : Node) : n.flip.parent = n.parent := rfl

@[simp] theorem Node.prev_flip (n : Node) : n.flip.prev = n.next := rfl

@[simp] theorem Node.next_flip (n : Node) : n.flip.next = n.prev := rfl

@[simp] theorem Node.children_flip (n : Node) : n.flip.children = n.children.map List.reverse := rfl

namespace Store

variable {s s' out : Store} {i c id : NodeId} {n : Node}

section Nodes

variable {f g : NodeId → Node → Node}

def mapNodes (f : NodeId → Node → Node) (s : Store) : Store := ⟨s.nodes.mapIdx f⟩

@[simp] theorem node?_mapNodes (f : NodeId → Node → Node) (s : Store) (id : NodeId) :
    (s.mapNodes f).node? id = (s.node? id).map (f id) :=
  Array.getElem?_mapIdx

@[simp] theorem size_mapNodes (f : NodeId → Node → Node) (s : Store) :
    (s.mapNodes f).size = s.size :=
  Array.size_mapIdx

theorem ext_node? (h : ∀ id, s.node? id = s'.node? id) : s = s' := by
  cases s
  cases s'
  exact congrArg Store.mk (Array.ext_getElem? h)

theorem mapNodes_congr (h : ∀ id n, s.node? id = some n → f id n = g id n) :
    s.mapNodes f = s.mapNodes g := by
  apply ext_node?
  intro id
  rw [node?_mapNodes, node?_mapNodes]
  exact Option.map_congr (h id)

theorem mapNodes_eq_self (h : ∀ id n, f id n = n) : s.mapNodes f = s := by
  apply ext_node?
  intro id
  rw [node?_mapNodes]
  cases s.node? id <;> simp [h]

theorem mapNodes_mapNodes (f g : NodeId → Node → Node) (s : Store) :
    (s.mapNodes f).mapNodes g = s.mapNodes fun id n => g id (f id n) := by
  apply ext_node?
  intro id
  simp [Function.comp_def]

end Nodes

/-! ### Links -/

/-- Every link names a node of the store. -/
def Anchored (s : Store) : Prop := ∀ n ∈ s.nodes.toList, ∀ i ∈ n.links, i < s.size

instance (s : Store) : Decidable s.Anchored :=
  inferInstanceAs (Decidable (∀ n ∈ s.nodes.toList, ∀ i ∈ n.links, i < s.size))

theorem anchored_iff :
    s.Anchored ↔ ∀ id n, s.node? id = some n → ∀ i ∈ n.links, i < s.size := by
  constructor
  · intro h id n hn
    exact h n (Array.mem_toList_iff.mpr (Array.mem_of_getElem? hn))
  · intro h n hn
    obtain ⟨id, hid⟩ := List.mem_iff_getElem?.mp hn
    rw [Array.getElem?_toList] at hid
    exact h id n hid

theorem Anchored.lt_size (h : s.Anchored) (hn : s.node? id = some n) (hi : i ∈ n.links) :
    i < s.size :=
  anchored_iff.mp h id n hn i hi

/-! ### Coherent stores -/

/-- The links of a node say where it is listed, and a node that is not listed has none. -/
structure Coherent (s : Store) : Prop where
  linked : s.Linked
  unlisted : ∀ c n, s.node? c = some n → (∀ i, ¬ s.Lists i c) → s.Placed c none none none

theorem Hung.coherent (h : s.Hung) : s.Coherent := ⟨h.linked, h.unlisted⟩

theorem Revised.coherent (h : s.Revised out) (hs : s.Coherent) : out.Coherent where
  linked := by
    intro i m before c after hm hids
    obtain ⟨n, d, hn, -, rfl⟩ := h.exists_node hm
    exact h.placed (hs.linked i n before c after hn hids)
  unlisted := by
    intro c m hm hfree
    rw [h.lists] at hfree
    obtain ⟨n, d, hn, -, rfl⟩ := h.exists_node hm
    exact h.placed (hs.unlisted c n hn hfree)

section Links

variable {before after ids : List NodeId}

theorem Linked.notMem_after (h : s.Linked) (hn : s.node? i = some n)
    (hids : n.children = some (before ++ c :: after)) : c ∉ after := by
  induction before using List.reverseRecOn generalizing c after with
  | nil =>
    intro hmem
    obtain ⟨between, rest, rfl⟩ := List.append_of_mem hmem
    obtain ⟨m, hm, -, hprev, -⟩ := h i n [] c _ hn hids
    obtain ⟨m', hm', -, hprev', -⟩ := h i n (c :: between) c rest hn hids
    obtain rfl : m = m' := Option.some.inj (hm.symm.trans hm')
    simp [hprev, List.getLast?_cons] at hprev'
  | append_singleton before b ih =>
    intro hmem
    obtain ⟨between, rest, rfl⟩ := List.append_of_mem hmem
    have hsplit : n.children = some (before ++ b :: ((c :: between) ++ c :: rest)) := by
      simpa using hids
    obtain ⟨m, hm, -, hprev, -⟩ := h i n (before ++ [b]) c _ hn hids
    obtain ⟨m', hm', -, hprev', -⟩ :=
      h i n (before ++ b :: c :: between) c rest hn (by simpa using hids)
    obtain rfl : m = m' := Option.some.inj (hm.symm.trans hm')
    have hlast : (c :: between).getLast? = some b := by
      rw [hprev, List.getLast?_concat, List.getLast?_append_cons, List.getLast?_cons_cons] at hprev'
      exact hprev'.symm
    exact ih hsplit (List.mem_append_left _ (List.mem_of_getLast? hlast))

theorem Linked.nodup (h : s.Linked) (hn : s.node? i = some n) (before : List NodeId)
    (hids : n.children = some (before ++ ids)) : ids.Nodup := by
  induction ids generalizing before with
  | nil => exact List.nodup_nil
  | cons c ids ih =>
    have hshift : n.children = some ((before ++ [c]) ++ ids) := by simpa using hids
    exact List.nodup_cons.mpr ⟨h.notMem_after hn hids, ih _ hshift⟩

/-- A node has no links, or a place in a child list. -/
theorem Coherent.cases (h : s.Coherent) (hn : s.node? id = some n) :
    (n.parent = none ∧ n.prev = none ∧ n.next = none) ∨ ∃ i m before after,
      s.node? i = some m ∧ m.children = some (before ++ id :: after) ∧
        n.parent = some i ∧ n.prev = before.getLast? ∧ n.next = after.head? := by
  by_cases hlisted : ∃ i, s.Lists i id
  case pos =>
    obtain ⟨i, m, ids, hm, hids, hmem⟩ := hlisted
    obtain ⟨before, after, rfl⟩ := List.append_of_mem hmem
    obtain ⟨n', hn', hlinks⟩ := h.linked i m before id after hm hids
    obtain rfl : n' = n := Option.some.inj (hn'.symm.trans hn)
    exact .inr ⟨i, m, before, after, hm, hids, hlinks⟩
  case neg =>
    obtain ⟨n', hn', hlinks⟩ := h.unlisted id n hn (not_exists.mp hlisted)
    obtain rfl : n' = n := Option.some.inj (hn'.symm.trans hn)
    exact .inl hlinks

theorem Coherent.lists_iff (h : s.Coherent) (hn : s.node? id = some n) :
    s.Lists i id ↔ n.parent = some i := by
  constructor
  · exact fun hlists => h.linked.parent_eq hlists hn
  · intro hparent
    rcases h.cases hn with ⟨hnone, -⟩ | ⟨j, m, before, after, hm, hids, hj, -⟩
    · simp [hnone] at hparent
    · obtain rfl : j = i := Option.some.inj (hj.symm.trans hparent)
      exact ⟨m, _, hm, hids, by simp⟩

theorem Coherent.parent_ne (h : s.Coherent) {m : Node} (hm : s.node? i = some m)
    (hmem : ∀ ids, m.children = some ids → id ∉ ids) (hn : s.node? id = some n) :
    n.parent ≠ some i := by
  rw [Ne, ← h.lists_iff hn]
  rintro ⟨m', ids, hm', hids, hid⟩
  obtain rfl : m' = m := Option.some.inj (hm'.symm.trans hm)
  exact hmem ids hids hid

theorem Coherent.lt_size (h : s.Coherent) (hn : s.node? id = some n)
    (hi : n.parent = some i ∨ n.prev = some i ∨ n.next = some i) : i < s.size := by
  rcases h.cases hn with ⟨hparent, hprev, hnext⟩ | ⟨j, m, before, after, hm, hids, -⟩
  · simp [hparent, hprev, hnext] at hi
  · have hlists : s.Lists j id := ⟨m, _, hm, hids, by simp⟩
    rcases h.linked.link_cases hlists hn hi with rfl | hi
    · exact lt_size_of_node? hm
    · exact h.linked.lt_size hi

theorem Coherent.anchored (h : s.Coherent) : s.Anchored :=
  anchored_iff.mpr fun _ _ hn _ hi => h.lt_size hn (Node.mem_links.mp hi)

theorem Coherent.planted (h : s.Coherent) (hrooted : s.Rooted) : s.Planted 0 where
  allocated := hrooted.allocated
  nodup _ _ _ _ hn hids := h.linked.nodup hn [] hids
  single _ _ _ _ _ hi hj := h.linked.lists_inj hi hj
  unlisted _ hi hroot := hrooted.acyclic 0 .refl (.tail' hi hroot)

end Links

/-! ### Reversing child lists -/

def reverseChildren (s : Store) (id : NodeId) : Except Error Store := do
  let n ← s.node id
  match n.children with
  | none => return s
  | some ids => s.setChildren id ids.reverse

def mirror (s : Store) : Except Error Store := (List.range s.size).foldlM reverseChildren s

def flip (s : Store) : Store := s.mapNodes fun _ => Node.flip

def swapSides (s : Store) : Store := s.mapNodes fun _ n => { n with notes := n.notes.swapSides }

/-- What becomes of a node when the child lists of the first `k` nodes are reversed. -/
def turn (k : Nat) (id : NodeId) (n : Node) : Node :=
  { n with
    prev := if n.parent.any (· < k) then n.next else n.prev
    next := if n.parent.any (· < k) then n.prev else n.next
    children := if id < k then n.children.map List.reverse else n.children }

section Turn

variable {k : Nat} {before after ids : List NodeId} {parent : NodeId} {prev : Option NodeId}

theorem node?_linkFrom (hbefore : c ∉ before) (hafter : c ∉ after) :
    (linkFrom parent prev (before ++ c :: after) s).node? c = (s.node? c).map fun n =>
      { n with parent := some parent, prev := before.getLast?.or prev, next := after.head? } := by
  induction before generalizing s prev with
  | nil => rw [List.nil_append, linkFrom, node?_linkFrom_of_notMem hafter, node?_adjust_self]; rfl
  | cons b before ih =>
    rw [List.mem_cons, not_or] at hbefore
    rw [List.cons_append, linkFrom, ih hbefore.2, node?_adjust_of_ne s (Ne.symm hbefore.1),
      getLast?_cons_or]

theorem lt_succ_iff_of_ne {i k : Nat} (h : i ≠ k) : i < k + 1 ↔ i < k := by omega

theorem any_lt_succ {link : Option NodeId} (h : link ≠ some k) :
    link.any (· < k + 1) = link.any (· < k) := by
  cases link with
  | none => rfl
  | some i =>
    have hne : i ≠ k := fun heq => h (congrArg some heq)
    simp only [Option.any_some, lt_succ_iff_of_ne hne]

/-- The links of the nodes in a child list that is reversed and linked anew; the lists themselves
are as they were. -/
theorem Coherent.node?_linkFrom_turn (h : s.Coherent) (hn : s.node? k = some n)
    (hids : n.children = some ids) (id : NodeId) :
    (linkFrom k none ids.reverse (s.mapNodes (turn k))).node? id = (s.node? id).map fun m =>
      { turn (k + 1) id m with children := (turn k id m).children } := by
  by_cases hmem : id ∈ ids
  case pos =>
    obtain ⟨before, after, rfl⟩ := List.append_of_mem hmem
    obtain ⟨m, hm, hparent, hprev, hnext⟩ := h.linked k n before id after hn hids
    have hnodup : (before ++ id :: after).Nodup := h.linked.nodup hn [] hids
    have hnotMem : id ∉ before ∧ id ∉ after := by
      rw [List.nodup_middle, List.nodup_cons, List.mem_append, not_or] at hnodup
      exact hnodup.1
    rw [List.reverse_append, List.reverse_cons, List.append_assoc, List.singleton_append,
      node?_linkFrom (by simpa using hnotMem.2) (by simpa using hnotMem.1), node?_mapNodes, hm]
    simp [turn, hparent, hprev, hnext]
  case neg =>
    rw [node?_linkFrom_of_notMem (by simpa using hmem), node?_mapNodes]
    apply Option.map_congr
    intro m hm
    have hparent := h.parent_ne hn (by simpa [hids] using hmem) hm
    simp only [turn, any_lt_succ hparent]

theorem Coherent.reverseChildren_turn (h : s.Coherent) (hk : k < s.size) :
    (s.mapNodes (turn k)).reverseChildren k = .ok (s.mapNodes (turn (k + 1))) := by
  obtain ⟨n, hn⟩ := exists_node?_of_lt hk
  have hturned : (s.mapNodes (turn k)).node? k = some (turn k k n) := by
    rw [node?_mapNodes, hn]
    rfl
  have hchildren : (turn k k n).children = n.children := if_neg (Nat.lt_irrefl k)
  rw [reverseChildren, node_eq_ok hturned]
  simp only [bind, Except.bind, hchildren]
  cases hids : n.children with
  | none =>
    refine congrArg Except.ok (mapNodes_congr ?_)
    intro id m hm
    have hparent := h.parent_ne hn (by simp [hids]) hm
    by_cases hid : id = k
    case pos =>
      subst hid
      obtain rfl : m = n := Option.some.inj (hm.symm.trans hn)
      simp only [turn, any_lt_succ hparent, hids, Option.map_none, ite_self]
    case neg => simp only [turn, any_lt_succ hparent, lt_succ_iff_of_ne hid]
  | some ids =>
    have hlisted : ∀ id ∈ ids.reverse, id < (s.mapNodes (turn k)).size := by
      intro id hid
      rw [size_mapNodes]
      exact h.linked.lt_size ⟨n, ids, hn, hids, List.mem_reverse.mp hid⟩
    simp only [setChildren_eq_ok hlisted (lt_size_of_node? hturned), Except.ok.injEq]
    apply ext_node?
    intro id
    rw [Store.relist, node?_adjust, h.node?_linkFrom_turn hn hids, node?_mapNodes]
    split
    case isTrue hid =>
      subst hid
      simp [hn, turn, hids]
    case isFalse hid =>
      apply Option.map_congr
      intro m _
      simp only [turn, lt_succ_iff_of_ne (Ne.symm hid)]

theorem Coherent.foldlM_reverseChildren (h : s.Coherent) (hk : k ≤ s.size) :
    (List.range k).foldlM reverseChildren s = .ok (s.mapNodes (turn k)) := by
  induction k with
  | zero =>
    rw [mapNodes_eq_self fun id n => by simp [turn]]
    rfl
  | succ k ih =>
    rw [List.range_succ, List.foldlM_append, ih (Nat.le_of_succ_le hk)]
    exact (bind_pure _).trans (h.reverseChildren_turn hk)

/-- Reversing all child lists turns every node. -/
theorem Coherent.mirror_eq (h : s.Coherent) : s.mirror = .ok s.flip := by
  rw [mirror, h.foldlM_reverseChildren (Nat.le_refl _)]
  refine congrArg Except.ok (mapNodes_congr ?_)
  intro id n hn
  have hid := lt_size_of_node? hn
  rcases h.cases hn with ⟨hparent, hprev, hnext⟩ | ⟨i, m, -, -, hm, -, hparent, -⟩
  · simp [turn, Node.flip, hparent, hprev, hnext, hid]
  · simp [turn, Node.flip, hparent, lt_size_of_node? hm, hid]

end Turn

/-! ### What is seen in the mirror -/

section Flip

variable {p : Place} {link : Option NodeId}

@[simp] theorem node?_flip (s : Store) (id : NodeId) :
    s.flip.node? id = (s.node? id).map Node.flip :=
  node?_mapNodes ..

theorem lists_flip (s : Store) : s.flip.Lists = s.Lists := by
  funext i j
  simp [Lists]

theorem Coherent.flip (h : s.Coherent) : s.flip.Coherent where
  linked := by
    intro i m before c after hm hids
    rw [node?_flip, Option.map_eq_some_iff] at hm
    obtain ⟨n, hn, rfl⟩ := hm
    obtain ⟨ids, hlist, hreverse⟩ := Option.map_eq_some_iff.mp hids
    have hsplit : n.children = some (after.reverse ++ c :: before.reverse) := by
      rw [hlist, ← List.reverse_reverse ids, hreverse]
      simp
    obtain ⟨m, hm, hparent, hprev, hnext⟩ := h.linked i n _ c _ hn hsplit
    refine ⟨m.flip, by rw [node?_flip, hm]; rfl, hparent, ?_, ?_⟩
    · simpa using hnext
    · simpa using hprev
  unlisted := by
    intro c m hm hfree
    rw [node?_flip, Option.map_eq_some_iff] at hm
    obtain ⟨n, hn, rfl⟩ := hm
    rw [lists_flip] at hfree
    obtain ⟨n', hn', hparent, hprev, hnext⟩ := h.unlisted c n hn hfree
    exact ⟨n'.flip, by rw [node?_flip, hn']; rfl, hparent, hnext, hprev⟩

/-- The nodes of `m` list their children in the other order, and links follow from the lists. -/
structure Mirrored (s m : Store) : Prop where
  coherent : m.Coherent
  size : m.size = s.size
  nodes : ∀ id n, s.node? id = some n → ∃ n', m.node? id = some n' ∧
    n'.toContent = n.toContent ∧ n'.children = n.children.map List.reverse

theorem Coherent.mirrored (h : s.Coherent) : s.Mirrored s.flip where
  coherent := h.flip
  size := size_mapNodes ..
  nodes id n hn := ⟨n.flip, by rw [node?_flip, hn]; rfl, rfl, rfl⟩

theorem Rooted.flip (h : s.Rooted) : s.flip.Rooted := by
  constructor
  · rw [lists_flip]
    simpa [Store.flip] using h.allocated
  · rw [lists_flip]
    exact h.acyclic

theorem linked_flip (s : Store) (link : Option NodeId) : s.flip.linked link = s.linked link := by
  cases link with
  | none => rfl
  | some i =>
    simp only [linked, node, node?_flip]
    cases s.node? i <;> rfl

theorem Coherent.exists_place (h : s.Coherent) (hid : id < s.size) :
    ∃ p, s.place id = .ok p ∧ s.flip.place id = .ok p.flip := by
  obtain ⟨n, hn⟩ := exists_node?_of_lt hid
  have hflip : s.flip.node? id = some n.flip := by
    rw [node?_flip, hn]
    rfl
  obtain ⟨a, ha⟩ := exists_linked fun i (hi : n.parent = some i) => h.lt_size hn (.inl hi)
  obtain ⟨b, hb⟩ := exists_linked fun i (hi : n.prev = some i) => h.lt_size hn (.inr (.inl hi))
  obtain ⟨c, hc⟩ := exists_linked fun i (hi : n.next = some i) => h.lt_size hn (.inr (.inr hi))
  refine ⟨_, place_eq_ok hn ha hb hc, ?_⟩
  have hplace := place_eq_ok hflip ((linked_flip s n.parent).trans ha)
    ((linked_flip s n.next).trans hc) ((linked_flip s n.prev).trans hb)
  exact hplace

theorem Coherent.exists_places (h : s.Coherent) : ∃ p : NodeId → Place, ∀ id < s.size,
    s.place id = .ok (p id) ∧ s.flip.place id = .ok (p id).flip := by
  have : Nonempty Place := ⟨{ self := { kind := .root } }⟩
  choose! p hp using fun id (hid : id < s.size) => h.exists_place hid
  exact ⟨p, hp⟩

end Flip

section Annotate

variable {f : NodeId → Node → Except Error Content} {g : NodeId → Node → Content}
  {done ids : List NodeId}

/-- The nodes on the list have new contents. -/
def annotated (s : Store) (g : NodeId → Node → Content) (ids : List NodeId) : Store :=
  s.mapNodes fun id n => { n with toContent := if id ∈ ids then g id n else n.toContent }

theorem node?_annotated (hn : s.node? id = some n) : (s.annotated g done).node? id =
    some { n with toContent := if id ∈ done then g id n else n.toContent } := by
  rw [annotated, node?_mapNodes, hn]
  rfl

theorem annotateAt_annotated (hn : s.node? id = some n)
    (hf : f id { n with toContent := if id ∈ done then g id n else n.toContent } = .ok (g id n)) :
    annotateAt f (s.annotated g done) id = .ok (s.annotated g (done ++ [id])) := by
  rw [annotateAt_eq_ok (node?_annotated hn) hf, Except.ok.injEq]
  apply ext_node?
  intro i
  rw [node?_adjust]
  split
  case isTrue hi =>
    subst hi
    rw [node?_annotated hn, node?_annotated hn]
    simp
  case isFalse hi =>
    rw [annotated, annotated, node?_mapNodes, node?_mapNodes]
    simp [Ne.symm hi]

theorem foldlM_annotateAt (done : List NodeId) (hnodup : (done ++ ids).Nodup)
    (hf : ∀ id ∈ ids, ∃ n, s.node? id = some n ∧ f id n = .ok (g id n)) :
    ids.foldlM (annotateAt f) (s.annotated g done) = .ok (s.annotated g (done ++ ids)) := by
  induction ids generalizing done with
  | nil =>
    rw [List.append_nil]
    rfl
  | cons id ids ih =>
    rw [List.forall_mem_cons] at hf
    obtain ⟨n, hn, hg⟩ := hf.1
    have hdone : id ∉ done := by
      rw [List.nodup_middle, List.nodup_cons, List.mem_append, not_or] at hnodup
      exact hnodup.1.1
    rw [List.append_cons] at hnodup ⊢
    rw [List.foldlM_cons, annotateAt_annotated hn (by rwa [if_neg hdone])]
    exact ih _ hnodup hf.2

/-- Contents are set anew node by node, in whatever order the nodes are visited. -/
theorem annotate_eq_ok (hdfs : s.dfs = .ok ids) (hnodup : ids.Nodup)
    (hf : ∀ id ∈ ids, ∃ n, s.node? id = some n ∧ f id n = .ok (g id n)) :
    s.annotate f = .ok (s.annotated g ids) := by
  have hnone : s.annotated g [] = s := mapNodes_eq_self fun _ _ => by simp
  have hrun := foldlM_annotateAt [] hnodup hf
  rw [annotate_eq, hdfs]
  rwa [hnone] at hrun

end Annotate

end Store

namespace Annotate

variable {s out : Store} {p : NodeId → Place} {id : NodeId} {n : Node}

/-- The content that a node gets if its surroundings and those of its neighbours are these. -/
def boundaryAt (p : NodeId → Place) (id : NodeId) (n : Node) : Content :=
  { n.toContent with notes :=
      if n.parent.isNone then noteDangling n
      else { noteDangling n with
        isLeadingSensitive := some ((p id).keepsLeading && n.prev.all fun i => (p i).keepsTrailing)
        isTrailingSensitive :=
          some ((p id).keepsTrailing && n.next.all fun i => (p i).keepsLeading) } }

theorem forLinked_eq_ok {f : NodeId → Except Error Bool} {g : NodeId → Bool} {link : Option NodeId}
    (h : ∀ i, link = some i → f i = .ok (g i)) : forLinked f link = .ok (link.all g) := by
  cases link with
  | none => rfl
  | some i => exact h i rfl

/-- Boundaries are noted node by node, from surroundings that were known before. -/
theorem exists_boundary_step (h : s.Anchored) (hp : ∀ id < s.size, s.place id = .ok (p id)) :
    ∃ f, boundary s = s.annotate f ∧ ∀ id n c, s.node? id = some n →
      f id { n with toContent := c } = .ok (boundaryAt p id { n with toContent := c }) := by
  have hleading := fun id hid => keepsBy_table_leading (hp id hid)
  have htrailing := fun id hid => keepsBy_table_trailing (hp id hid)
  refine ⟨_, rfl, ?_⟩
  intro id n c hn
  have hid := Store.lt_size_of_node? hn
  have hprev := forLinked_eq_ok fun i (hi : n.prev = some i) =>
    htrailing i (h.lt_size hn (Node.mem_links.mpr (.inr (.inl hi))))
  have hnext := forLinked_eq_ok fun i (hi : n.next = some i) =>
    hleading i (h.lt_size hn (Node.mem_links.mpr (.inr (.inr hi))))
  by_cases hparent : n.parent.isNone = true
  · simp only [boundaryAt, hparent, ↓reduceIte]
    rfl
  · simp only [boundaryAt, hparent, Bool.false_eq_true, ↓reduceIte, hleading id hid,
      htrailing id hid, hprev, hnext, both_eq_ok, bind, Except.bind, pure, Except.pure]

theorem boundary_eq_ok {ids : List NodeId} (h : s.Coherent)
    (hp : ∀ id < s.size, s.place id = .ok (p id)) (hdfs : s.dfs = .ok ids) (hnodup : ids.Nodup)
    (hids : ∀ id ∈ ids, id < s.size) :
    boundary s = .ok (s.annotated (boundaryAt p) ids) := by
  obtain ⟨f, hf, hstep⟩ := exists_boundary_step h.anchored hp
  rw [hf]
  apply Store.annotate_eq_ok hdfs hnodup
  intro id hid
  obtain ⟨n, hn⟩ := Store.exists_node?_of_lt (hids id hid)
  exact ⟨n, hn, hstep id n n.toContent hn⟩

@[simp] theorem noteDangling_flip (n : Node) : noteDangling n.flip = noteDangling n := by
  simp [noteDangling]

/-- From right to left, the two sides of a node are noted in each other's place. -/
theorem boundaryAt_flip (p : NodeId → Place) (id : NodeId)
    (hunset : n.notes.isLeadingSensitive = none ∧ n.notes.isTrailingSensitive = none) :
    boundaryAt (fun i => (p i).flip) id n.flip =
      { boundaryAt p id n with notes := (boundaryAt p id n).notes.swapSides } := by
  have hdangling : (noteDangling n).swapSides = noteDangling n := by
    apply Annotations.swapSides_eq_self
    rw [noteDangling]
    split <;> simp [hunset]
  cases hparent : n.parent with
  | none => simp [boundaryAt, hparent, hdangling]
  | some i =>
    simp [boundaryAt, hparent, Annotations.swapSides, Place.keepsLeading_flip,
      Place.keepsTrailing_flip]

theorem revised_annotated (p : NodeId → Place) (ids : List NodeId) :
    s.Revised (s.annotated (boundaryAt p) ids) := by
  refine ⟨Store.size_mapNodes .., ?_⟩
  intro id n hn
  refine ⟨_, by rw [Store.annotated, Store.node?_mapNodes, hn]; rfl, .inl ?_⟩
  split <;> rfl

/-- Noting boundaries from right to left is the same as turning the noted boundaries. -/
theorem annotated_flip {ids ids' : List NodeId} (p : NodeId → Place)
    (hmem : ∀ id, id ∈ ids' ↔ id ∈ ids) (hunset : ∀ id n, s.node? id = some n →
      n.notes.isLeadingSensitive = none ∧ n.notes.isTrailingSensitive = none) :
    s.flip.annotated (boundaryAt fun i => (p i).flip) ids' =
      (s.annotated (boundaryAt p) ids).flip.swapSides := by
  simp only [Store.flip, Store.annotated, Store.swapSides, Store.mapNodes_mapNodes, hmem]
  apply Store.mapNodes_congr
  intro id n hn
  by_cases hid : id ∈ ids
  case pos =>
    simp only [hid, ↓reduceIte, boundaryAt_flip p id (hunset id n hn)]
    rfl
  case neg =>
    have hswap : n.notes.swapSides = n.notes :=
      Annotations.swapSides_eq_self ((hunset id n hn).1.trans (hunset id n hn).2.symm)
    simp only [hid, ↓reduceIte, Node.toContent_flip, hswap]

/-- Leading and trailing whitespace are mirror images. If all child lists are reversed, what shows
before a node shows behind it and the other way round, and the boundaries that are noted are the
mirrored ones with their sides swapped. -/
theorem boundary_mirrored (s : Store) (hcoherent : s.Coherent) (hrooted : s.Rooted)
    (hunset : ∀ id n, s.node? id = some n →
      n.notes.isLeadingSensitive = none ∧ n.notes.isTrailingSensitive = none) :
    ∃ m, s.mirror = .ok m ∧ s.Mirrored m ∧
      (∀ id < s.size, ∃ leading trailing,
        keepsLeading s id = .ok leading ∧ keepsTrailing s id = .ok trailing ∧
        keepsLeading m id = .ok trailing ∧ keepsTrailing m id = .ok leading) ∧
      ∃ out turned, boundary s = .ok out ∧ out.mirror = .ok turned ∧ out.Mirrored turned ∧
        boundary m = .ok turned.swapSides := by
  obtain ⟨p, hp⟩ := hcoherent.exists_places
  refine ⟨s.flip, hcoherent.mirror_eq, hcoherent.mirrored, ?_, ?_⟩
  · intro id hid
    obtain ⟨hplace, hflip⟩ := hp id hid
    refine ⟨(p id).keepsLeading, (p id).keepsTrailing, ?_⟩
    simp only [keepsLeading_of_place hplace, keepsTrailing_of_place hplace,
      keepsLeading_of_place hflip, keepsTrailing_of_place hflip, Place.keepsLeading_flip,
      Place.keepsTrailing_flip, and_self]
  · have hflip := hcoherent.flip.planted hrooted.flip
    obtain ⟨ids, hdfs, hnodup, hids⟩ := (hcoherent.planted hrooted).exists_dfs
    obtain ⟨ids', hdfs', hnodup', hids'⟩ := hflip.exists_dfs
    have hmem : ∀ id, id ∈ ids' ↔ id ∈ ids := by
      intro id
      rw [hids, hids', Store.Reaches, Store.lists_flip]
    have hout := boundary_eq_ok hcoherent (fun id hid => (hp id hid).1) hdfs hnodup fun id hid =>
      hrooted.allocated id ((hids id).mp hid)
    have hturned := boundary_eq_ok hcoherent.flip
      (fun id hid => (hp id (hid.trans_eq (Store.size_mapNodes ..))).2) hdfs' hnodup' fun id hid =>
        hflip.allocated id ((hids' id).mp hid)
    have hcoherent' := (revised_annotated p ids).coherent hcoherent
    refine ⟨_, _, hout, hcoherent'.mirror_eq, hcoherent'.mirrored, ?_⟩
    rw [hturned, annotated_flip p hmem hunset]

/-- A text beside an expression, a block with an empty box and a text in it, preformatted text, and
a text that is hung up nowhere. -/
def sideStore : Store :=
  let element (name : String) : Kind := .element { name, openTag := {} }
  let shown (display : Css.Display) : Annotations := { display := some display }
  (Store.new {}).growAll
    [(0, { kind := .text "a" }),
     (0, { kind := .interpolation }),
     (2, { kind := .text "b" }),
     (0, { kind := element "div", notes := shown .block }),
     (4, { kind := element "i", notes := shown .inlineBlock }),
     (4, { kind := .text "c" }),
     (0, { kind := element "pre", notes := shown .block }),
     (7, { kind := .text "d" }),
     (1, { kind := .text "e" })]

theorem boundary_mirrored_sideStore :
    keepsLeading sideStore 1 = .ok false ∧ keepsTrailing sideStore 1 = .ok true ∧
    sideStore.Coherent ∧ sideStore.Rooted ∧ (∀ id n, sideStore.node? id = some n →
      n.notes.isLeadingSensitive = none ∧ n.notes.isTrailingSensitive = none) ∧
    ∃ m, sideStore.mirror = .ok m ∧ sideStore.Mirrored m ∧
      (∀ id < sideStore.size, ∃ leading trailing,
        keepsLeading sideStore id = .ok leading ∧ keepsTrailing sideStore id = .ok trailing ∧
        keepsLeading m id = .ok trailing ∧ keepsTrailing m id = .ok leading) ∧
      ∃ out turned, boundary sideStore = .ok out ∧ out.mirror = .ok turned ∧ out.Mirrored turned ∧
        boundary m = .ok turned.swapSides := by
  have hhung : sideStore.Hung := (Store.Built.growAll (.new _) _).hung
  have hrooted : sideStore.Rooted :=
    ⟨hhung.planted.grounded.allocated, hhung.planted.grounded.acyclic⟩
  have hunset : ∀ id n, sideStore.node? id = some n →
      n.notes.isLeadingSensitive = none ∧ n.notes.isTrailingSensitive = none := by
    have hall : ∀ m ∈ sideStore.nodes.toList,
        m.notes.isLeadingSensitive = none ∧ m.notes.isTrailingSensitive = none := by decide +kernel
    intro id n hn
    exact hall n (Array.mem_toList_iff.mpr (Array.mem_of_getElem? hn))
  refine ⟨by decide +kernel, by decide +kernel, hhung.coherent, hrooted, hunset, ?_⟩
  exact boundary_mirrored sideStore hhung.coherent hrooted hunset

end Annotate

end Markup
