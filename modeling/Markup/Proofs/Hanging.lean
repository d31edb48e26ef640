import Markup.Proofs.Building
import Markup.Proofs.Planting

/-! Links in built stores. Whatever is allocated and hung up, and in whatever order, a node is
listed at most once, its links say where, and a node that is not listed has none. Nodes can be hung
up in a circle, but no circle is ever reached from the root. -/
namespace Markup.Store

variable {s s' : Store} {parent child : NodeId}

def Placed (s : Store) (id : NodeId) (parent prev next : Option NodeId) : Prop :=
  ∃ n, s.node? id = some n ∧ n.parent = parent ∧ n.prev = prev ∧ n.next = next

/-- The links of a listed node say where it is listed. -/
def Linked (s : Store) : Prop :=
  ∀ i n before c after, s.node? i = some n → n.children = some (before ++ c :: after) →
    s.Placed c (some i) before.getLast? after.head?

/-- Child lists name each node once, links follow from the lists, and the root is in none
of them. -/
structure Hung (s : Store) : Prop where
  root : ∃ n, s.node? 0 = some n ∧ n.kind = .root
  rootFree : ∀ i, ¬ s.Lists i 0
  nodup : ∀ i n ids, s.node? i = some n → n.children = some ids → ids.Nodup
  linked : s.Linked
  unlisted : ∀ c n, s.node? c = some n → (∀ i, ¬ s.Lists i c) → s.Placed c none none none

theorem Linked.parent_eq (h : s.Linked) {i c : NodeId} {n : Node} (hlists : s.Lists i c)
    (hn : s.node? c = some n) : n.parent = some i := by
  obtain ⟨m, ids, hm, hids, hc⟩ := hlists
  obtain ⟨before, after, rfl⟩ := List.append_of_mem hc
  obtain ⟨n', hn', hparent, -⟩ := h i m before c after hm hids
  obtain rfl : n' = n := Option.some.inj (hn'.symm.trans hn)
  exact hparent

theorem Linked.lt_size (h : s.Linked) {i c : NodeId} (hlists : s.Lists i c) : c < s.size := by
  obtain ⟨m, ids, hm, hids, hc⟩ := hlists
  obtain ⟨before, after, rfl⟩ := List.append_of_mem hc
  obtain ⟨n, hn, -⟩ := h i m before c after hm hids
  exact lt_size_of_node? hn

theorem Linked.lists_inj (h : s.Linked) {i j c : NodeId} (hi : s.Lists i c) (hj : s.Lists j c) :
    i = j := by
  obtain ⟨n, hn⟩ := exists_node?_of_lt (h.lt_size hi)
  exact Option.some.inj ((h.parent_eq hi hn).symm.trans (h.parent_eq hj hn))

theorem Linked.link_cases (h : s.Linked) {i j c : NodeId} {n : Node} (hlists : s.Lists i c)
    (hn : s.node? c = some n) (hj : n.parent = some j ∨ n.prev = some j ∨ n.next = some j) :
    j = i ∨ s.Lists i j := by
  obtain ⟨m, ids, hm, hids, hc⟩ := hlists
  obtain ⟨before, after, rfl⟩ := List.append_of_mem hc
  obtain ⟨n', hn', hparent, hprev, hnext⟩ := h i m before c after hm hids
  obtain rfl : n' = n := Option.some.inj (hn'.symm.trans hn)
  rcases hj with hj | hj | hj
  · exact .inl (Option.some.inj (hj.symm.trans hparent))
  · have hmem : j ∈ before := List.mem_of_getLast? (hprev.symm.trans hj)
    exact .inr ⟨m, _, hm, hids, List.mem_append_left _ hmem⟩
  · have hmem : j ∈ after := List.mem_of_head? (hnext.symm.trans hj)
    exact .inr ⟨m, _, hm, hids, List.mem_append_right _ (List.mem_cons_of_mem _ hmem)⟩

theorem Hung.parent_eq (h : s.Hung) {i c : NodeId} {n : Node} (hlists : s.Lists i c)
    (hn : s.node? c = some n) : n.parent = some i := h.linked.parent_eq hlists hn

theorem Hung.lt_size (h : s.Hung) {i c : NodeId} (hlists : s.Lists i c) : c < s.size :=
  h.linked.lt_size hlists

theorem hung_new (span : Span) : (Store.new span).Hung := by
  have hnode : ∀ {i n}, (Store.new span).node? i = some n →
      i = 0 ∧ n = Node.ofContent { kind := .root, span } := by
    intro i n hn
    rw [node?, Store.new, Array.getElem?_singleton] at hn
    split at hn
    case isTrue hi => exact ⟨hi, (Option.some.inj hn).symm⟩
    case isFalse => simp at hn
  have hchildren : ∀ {i n ids}, (Store.new span).node? i = some n → n.children = some ids →
      ids = [] := by
    intro i n ids hn hids
    obtain ⟨-, rfl⟩ := hnode hn
    exact (Option.some.inj hids).symm
  refine ⟨⟨_, rfl, rfl⟩, ?_, ?_, ?_, ?_⟩
  · rintro i ⟨n, ids, hn, hids, h⟩
    simp [hchildren hn hids] at h
  · intro i n ids hn hids
    simp [hchildren hn hids]
  · intro i n before c after hn hids
    simpa using hchildren hn hids
  · intro c n hn _
    obtain ⟨-, rfl⟩ := hnode hn
    exact ⟨_, hn, rfl, rfl, rfl⟩

theorem node?_alloc_of_some {id : NodeId} {n m : Node} (h : s.node? id = some n) :
    (s.alloc m).1.node? id = some n := by
  rw [node?_alloc_of_lt (lt_size_of_node? h), h]

theorem children_ofContent {c : Content} {ids : List NodeId}
    (h : (Node.ofContent c).children = some ids) : ids = [] := by
  rw [Node.ofContent] at h
  split at h
  · exact (Option.some.inj h).symm
  · simp at h

theorem Hung.alloc (h : s.Hung) (c : Content) : (s.alloc (.ofContent c)).1.Hung := by
  have hold : ∀ {i n ids}, (s.alloc (.ofContent c)).1.node? i = some n →
      n.children = some ids → ids ≠ [] → s.node? i = some n := by
    intro i n ids hn hids hne
    rw [node?_alloc] at hn
    split at hn
    case isTrue =>
      obtain rfl := Option.some.inj hn
      exact absurd (children_ofContent hids) hne
    case isFalse => exact hn
  refine ⟨?_, ?_, ?_, ?_, ?_⟩
  · obtain ⟨n, hn, hkind⟩ := h.root
    exact ⟨n, node?_alloc_of_some hn, hkind⟩
  · rintro i ⟨n, ids, hn, hids, hmem⟩
    exact h.rootFree i ⟨n, ids, hold hn hids (List.ne_nil_of_mem hmem), hids, hmem⟩
  · intro i n ids hn hids
    cases ids with
    | nil => exact List.nodup_nil
    | cons id ids => exact h.nodup i n _ (hold hn hids (List.cons_ne_nil _ _)) hids
  · intro i n before id after hn hids
    obtain ⟨m, hm, hlinks⟩ := h.linked i n before id after (hold hn hids (by simp)) hids
    exact ⟨m, node?_alloc_of_some hm, hlinks⟩
  · intro id n hn hfree
    rw [node?_alloc] at hn
    split at hn
    case isTrue hid =>
      refine ⟨.ofContent c, ?_, rfl, rfl, rfl⟩
      rw [node?_alloc, if_pos hid]
    case isFalse =>
      obtain ⟨m, hm, hlinks⟩ := h.unlisted id n hn fun i ⟨k, ids, hk, hids, hid⟩ =>
        hfree i ⟨k, ids, node?_alloc_of_some hk, hids, hid⟩
      exact ⟨m, node?_alloc_of_some hm, hlinks⟩

section Append

variable {siblings : List NodeId}

theorem Hangs.children_cases {i : NodeId} {n : Node} {ids : List NodeId}
    (h : Hangs s s' parent child siblings) (hn : s'.node? i = some n)
    (hids : n.children = some ids) : i = parent ∧ ids = siblings ++ [child] ∨
      i ≠ parent ∧ ∃ m, s.node? i = some m ∧ m.children = some ids := by
  rw [h.nodes] at hn
  obtain ⟨m, hm, rfl⟩ := Option.map_eq_some_iff.mp hn
  by_cases hi : parent = i
  case pos =>
    simp only [hang, hi, ↓reduceIte, Option.some.injEq] at hids
    exact .inl ⟨hi.symm, hids.symm⟩
  case neg =>
    simp only [hang, hi, ↓reduceIte] at hids
    exact .inr ⟨Ne.symm hi, m, hm, hids⟩

theorem Hangs.children_parent (h : Hangs s s' parent child siblings) :
    ∃ n, s'.node? parent = some n ∧ n.children = some (siblings ++ [child]) := by
  obtain ⟨p, hp, -⟩ := h.before
  refine ⟨hang parent child siblings parent p, by rw [h.nodes, hp]; rfl, ?_⟩
  simp [hang]

theorem Hangs.lists_iff {i j : NodeId} (h : Hangs s s' parent child siblings) :
    s'.Lists i j ↔ s.Lists i j ∨ i = parent ∧ j = child := by
  obtain ⟨p, hp, hsiblings⟩ := h.before
  constructor
  · rintro ⟨n, ids, hn, hids, hj⟩
    rcases h.children_cases hn hids with ⟨rfl, rfl⟩ | ⟨-, m, hm, hids⟩
    · rw [List.mem_append, List.mem_singleton] at hj
      exact hj.imp (fun hj => ⟨p, siblings, hp, hsiblings, hj⟩) fun hj => ⟨rfl, hj⟩
    · exact .inl ⟨m, ids, hm, hids, hj⟩
  · obtain ⟨q, hq, hlist⟩ := h.children_parent
    rintro (⟨n, ids, hn, hids, hj⟩ | ⟨rfl, rfl⟩)
    · by_cases hi : parent = i
      case pos =>
        subst hi
        obtain rfl : n = p := Option.some.inj (hn.symm.trans hp)
        obtain rfl : ids = siblings := Option.some.inj (hids.symm.trans hsiblings)
        exact ⟨q, _, hq, hlist, List.mem_append_left _ hj⟩
      case neg =>
        refine ⟨hang parent child siblings i n, ids, by rw [h.nodes, hn]; rfl, ?_, hj⟩
        simpa [hang, hi] using hids
    · exact ⟨q, _, hq, hlist, by simp⟩

theorem Hangs.placed {id : NodeId} {a b c : Option NodeId} (h : Hangs s s' parent child siblings)
    (hid : s.Placed id a b c) (hchild : child ≠ id) (hlast : siblings.getLast? ≠ some id) :
    s'.Placed id a b c := by
  obtain ⟨n, hn, rfl, rfl, rfl⟩ := hid
  refine ⟨hang parent child siblings id n, by rw [h.nodes, hn]; rfl, ?_, ?_, ?_⟩ <;>
    simp [hang, hchild, hlast]

theorem Hangs.placed_child (h : Hangs s s' parent child siblings) :
    s'.Placed child (some parent) siblings.getLast? none := by
  obtain ⟨c, hc, -⟩ := h.detached
  refine ⟨hang parent child siblings child c, by rw [h.nodes, hc]; rfl, ?_, ?_, ?_⟩ <;> simp [hang]

theorem Hangs.placed_last {id : NodeId} {a b c : Option NodeId}
    (h : Hangs s s' parent child siblings) (hid : s.Placed id a b c) (hchild : child ≠ id)
    (hlast : siblings.getLast? = some id) : s'.Placed id a b (some child) := by
  obtain ⟨n, hn, rfl, rfl, rfl⟩ := hid
  refine ⟨hang parent child siblings id n, by rw [h.nodes, hn]; rfl, ?_, ?_, ?_⟩ <;>
    simp [hang, hchild, hlast]

theorem Hung.ne_child (h : s.Hung) (hhangs : Hangs s s' parent child siblings) {i id : NodeId}
    (hlists : s.Lists i id) : child ≠ id := by
  rintro rfl
  obtain ⟨c, hc, hdetached⟩ := hhangs.detached
  simpa [hdetached] using h.parent_eq hlists hc

theorem Hung.placed_siblings (h : s.Hung) (hhangs : Hangs s s' parent child siblings)
    {before after : List NodeId} {id : NodeId}
    (hsplit : siblings ++ [child] = before ++ id :: after) :
    s'.Placed id (some parent) before.getLast? after.head? := by
  obtain ⟨p, hp, hsiblings⟩ := hhangs.before
  rcases List.eq_nil_or_concat after with rfl | ⟨rest, l, rfl⟩
  · obtain ⟨rfl, hid⟩ := List.append_inj' hsplit rfl
    obtain rfl : child = id := by simpa using hid
    exact hhangs.placed_child
  · have hsplit' : siblings ++ [child] = (before ++ id :: rest) ++ [l] := by simpa using hsplit
    obtain ⟨rfl, hl⟩ := List.append_inj' hsplit' rfl
    obtain rfl : child = l := by simpa using hl
    have hplaced := h.linked parent p before id rest hp hsiblings
    have hchild := h.ne_child hhangs ⟨p, _, hp, hsiblings,
      List.mem_append_right _ List.mem_cons_self⟩
    cases rest with
    | nil => exact hhangs.placed_last hplaced hchild (by simp)
    | cons next rest =>
      refine hhangs.placed hplaced hchild ?_
      intro hlast
      have hnodup := (List.nodup_append.mp (h.nodup parent p _ hp hsiblings)).2.1
      rw [List.getLast?_append_cons, List.getLast?_cons_cons] at hlast
      exact (List.nodup_cons.mp hnodup).1 (List.mem_of_getLast? hlast)

theorem Hung.appendChild (h : s.Hung) (happend : s.appendChild parent child = .ok s') :
    s'.Hung := by
  obtain ⟨siblings, hhangs⟩ := appendChild_eq_ok happend
  obtain ⟨p, hp, hsiblings⟩ := hhangs.before
  have hsibling : ∀ {id}, id ∈ siblings → s.Lists parent id := fun hid =>
    ⟨p, siblings, hp, hsiblings, hid⟩
  refine ⟨?_, ?_, ?_, ?_, ?_⟩
  · obtain ⟨n, hn, hkind⟩ := h.root
    exact ⟨hang parent child siblings 0 n, by rw [hhangs.nodes, hn]; rfl, hkind⟩
  · intro i hi
    rcases hhangs.lists_iff.mp hi with hi | ⟨-, hchild⟩
    · exact h.rootFree i hi
    · exact hhangs.notRoot hchild.symm
  · intro i n ids hn hids
    rcases hhangs.children_cases hn hids with ⟨-, rfl⟩ | ⟨-, m, hm, hids⟩
    · rw [← List.concat_eq_append, List.nodup_concat]
      exact ⟨fun hmem => h.ne_child hhangs (hsibling hmem) rfl,
        h.nodup parent p siblings hp hsiblings⟩
    · exact h.nodup i m ids hm hids
  · intro i n before id after hn hids
    rcases hhangs.children_cases hn hids with ⟨rfl, hsplit⟩ | ⟨hi, m, hm, hids⟩
    · exact h.placed_siblings hhangs hsplit.symm
    · have hplaced := h.linked i m before id after hm hids
      have hlists : s.Lists i id := ⟨m, _, hm, hids, by simp⟩
      refine hhangs.placed hplaced (h.ne_child hhangs hlists) ?_
      intro hlast
      obtain ⟨k, hk, hparent, -⟩ := hplaced
      have hback := h.parent_eq (hsibling (List.mem_of_getLast? hlast)) hk
      exact hi (Option.some.inj (hparent.symm.trans hback))
  · intro id n hn hunlisted
    simp only [hhangs.lists_iff, not_or, not_and] at hunlisted
    rw [hhangs.nodes] at hn
    obtain ⟨m, hm, -⟩ := Option.map_eq_some_iff.mp hn
    refine hhangs.placed (h.unlisted id m hm fun i => (hunlisted i).1) ?_ ?_
    · exact fun hchild => (hunlisted parent).2 rfl hchild.symm
    · exact fun hlast => (hunlisted parent).1 (hsibling (List.mem_of_getLast? hlast))

end Append

theorem Built.hung (h : s.Built) : s.Hung := by
  induction h with
  | new span => exact hung_new span
  | alloc c _ ih => exact ih.alloc c
  | appendChild _ happend ih => exact ih.appendChild happend

theorem Hung.planted (h : s.Hung) : s.Planted 0 where
  allocated i hi := by
    rcases Relation.ReflTransGen.cases_tail hi with rfl | ⟨k, -, hk⟩
    · obtain ⟨n, hn, -⟩ := h.root
      exact lt_size_of_node? hn
    · exact h.lt_size hk
  nodup i n ids _ hn hids := h.nodup i n ids hn hids
  single _ _ _ _ _ hi hj := h.linked.lists_inj hi hj
  unlisted i _ := h.rootFree i

end Markup.Store
