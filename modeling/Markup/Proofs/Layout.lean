import Markup.Proofs.Places
import Markup.Proofs.Subtrees

/-! Documents and the stores laid out from them: nodes are numbered in document order, and every
link follows from the place of its node. A store laid out from a document unfolds to that document,
its nodes are visited in the order of their numbers, and every node stands for a subtree whose
children it lists. -/
namespace Markup.Store

/-- The numbers of the roots of `ts` when the first one has the number `id`. -/
def rootIds : NodeId → List Doc → List NodeId
  | _, [] => []
  | id, t :: ts => id :: rootIds (id + t.size) ts

mutual
/-- The nodes of a document whose root has the number `id`. -/
def layout (id : NodeId) (parent prev next : Option NodeId) : Doc → List Node
  | .leaf c => [{ c with parent, prev, next }]
  | .node c ts =>
    { c with parent, prev, next, children := some (rootIds (id + 1) ts) } ::
      layoutAll id none (id + 1) ts
/-- The nodes of the children of `parent` from number `id` on. -/
def layoutAll (parent : NodeId) (prev : Option NodeId) (id : NodeId) : List Doc → List Node
  | [] => []
  | t :: ts =>
    layout id (some parent) prev (if ts.isEmpty then none else some (id + t.size)) t ++
      layoutAll parent (some id) (id + t.size) ts
end

def ofDoc (d : Doc) : Store := ⟨(layout 0 none none none d).toArray⟩

mutual
/-- The document stands in the store as it is laid out: its root has the number `id` and these
links, and the nodes below the root follow in document order. -/
def Sits (s : Store) (parent prev next : Option NodeId) (id : NodeId) : Doc → Prop
  | .leaf c => s.node? id = some { c with parent, prev, next }
  | .node c ts =>
    s.node? id = some { c with parent, prev, next, children := some (rootIds (id + 1) ts) } ∧
      SitsAll s id none (id + 1) ts
/-- The documents stand side by side below `parent`, from number `id` on. -/
def SitsAll (s : Store) (parent : NodeId) (prev : Option NodeId) (id : NodeId) : List Doc → Prop
  | [] => True
  | t :: ts =>
    Sits s (some parent) prev (if ts.isEmpty then none else some (id + t.size)) id t ∧
      SitsAll s parent (some id) (id + t.size) ts
end

@[simp] theorem sitsAll_nil {s : Store} {parent id : NodeId} {prev : Option NodeId} :
    s.SitsAll parent prev id [] := by
  rw [SitsAll]; trivial

@[simp] theorem sitsAll_cons {s : Store} {parent id : NodeId} {prev : Option NodeId} {t : Doc}
    {ts : List Doc} :
    s.SitsAll parent prev id (t :: ts) ↔
      s.Sits (some parent) prev (if ts.isEmpty then none else some (id + t.size)) id t ∧
        s.SitsAll parent (some id) (id + t.size) ts := by
  rw [SitsAll]

theorem sits_leaf {s : Store} {parent prev next : Option NodeId} {id : NodeId} {c : Content} :
    s.Sits parent prev next id (.leaf c) ↔ s.node? id = some { c with parent, prev, next } := by
  rw [Sits]

theorem sits_node {s : Store} {parent prev next : Option NodeId} {id : NodeId} {c : Content}
    {ts : List Doc} :
    s.Sits parent prev next id (.node c ts) ↔
      s.node? id = some { c with parent, prev, next, children := some (rootIds (id + 1) ts) } ∧
        s.SitsAll id none (id + 1) ts := by
  rw [Sits]

theorem Sits.node? {s : Store} {parent prev next : Option NodeId} {id : NodeId} {t : Doc}
    (h : s.Sits parent prev next id t) :
    s.node? id = some { t.label with
      parent, prev, next, children := t.children?.map (rootIds (id + 1)) } := by
  cases t with
  | leaf c => exact sits_leaf.mp h
  | node c ts => exact (sits_node.mp h).1

theorem Sits.children {s : Store} {parent prev next : Option NodeId} {id : NodeId} {t : Doc}
    (h : s.Sits parent prev next id t) : s.SitsAll id none (id + 1) t.children := by
  cases t with
  | leaf c => exact sitsAll_nil
  | node c ts => exact (sits_node.mp h).2

mutual
theorem length_layout (id : NodeId) (parent prev next : Option NodeId) :
    ∀ t : Doc, (layout id parent prev next t).length = t.size
  | .leaf c => by simp [layout]
  | .node c ts => by
    have hts := length_layoutAll id none (id + 1) ts
    simp [layout, hts]
theorem length_layoutAll (parent : NodeId) (prev : Option NodeId) (id : NodeId) :
    ∀ ts : List Doc, (layoutAll parent prev id ts).length = Tree.sizeAll ts
  | [] => by simp [layoutAll]
  | t :: ts => by
    have ht := length_layout id (some parent) prev
      (if ts.isEmpty then none else some (id + t.size)) t
    have hts := length_layoutAll parent (some id) (id + t.size) ts
    rw [layoutAll, List.length_append, ht, hts, Tree.sizeAll_cons]
end

@[simp] theorem size_ofDoc (d : Doc) : (ofDoc d).size = d.size := by
  simp [ofDoc, size, length_layout]

mutual
/-- A stretch of a store that is laid out from a document holds that document. -/
theorem sits_of_layout {s : Store} :
    ∀ (t : Doc) {id : NodeId} {parent prev next : Option NodeId},
      (∀ k < t.size, s.node? (id + k) = (layout id parent prev next t)[k]?) →
        s.Sits parent prev next id t
  | .leaf c, id, parent, prev, next, h => by
    rw [sits_leaf]
    simpa [layout] using h 0 (by simp)
  | .node c ts, id, parent, prev, next, h => by
    rw [sits_node]
    constructor
    · simpa [layout] using h 0 (by simp)
    · apply sitsAll_of_layoutAll ts
      intro k hk
      have hnext := h (k + 1) (by rw [Tree.size_node]; omega)
      rw [Nat.add_assoc, Nat.add_comm 1 k, hnext]
      simp [layout]
theorem sitsAll_of_layoutAll {s : Store} :
    ∀ (ts : List Doc) {parent id : NodeId} {prev : Option NodeId},
      (∀ k < Tree.sizeAll ts, s.node? (id + k) = (layoutAll parent prev id ts)[k]?) →
        s.SitsAll parent prev id ts
  | [], _, _, _, _ => sitsAll_nil
  | t :: ts, parent, id, prev, h => by
    rw [sitsAll_cons]
    have hlen := length_layout id (some parent) prev
      (if ts.isEmpty then none else some (id + t.size)) t
    constructor
    · apply sits_of_layout t
      intro k hk
      rw [h k (by rw [Tree.sizeAll_cons]; omega), layoutAll,
        List.getElem?_append_left (by omega)]
    · apply sitsAll_of_layoutAll ts
      intro k hk
      rw [Nat.add_assoc, h (t.size + k) (by rw [Tree.sizeAll_cons]; omega), layoutAll,
        List.getElem?_append_right (by omega), hlen, Nat.add_sub_cancel_left]
end

theorem sits_ofDoc (d : Doc) : (ofDoc d).Sits none none none 0 d := by
  apply sits_of_layout d
  intro k _
  simp [ofDoc, node?]

mutual
theorem Sits.layout {s : Store} :
    ∀ {t : Doc} {id : NodeId} {parent prev next : Option NodeId}, s.Sits parent prev next id t →
      ∀ k < t.size, s.node? (id + k) = (Store.layout id parent prev next t)[k]?
  | .leaf c, id, parent, prev, next, h, k, hk => by
    obtain rfl : k = 0 := by simpa using hk
    simpa [Store.layout] using sits_leaf.mp h
  | .node c ts, id, parent, prev, next, h, k, hk => by
    obtain ⟨hnode, hts⟩ := sits_node.mp h
    cases k with
    | zero => simpa [Store.layout] using hnode
    | succ k =>
      rw [Tree.size_node] at hk
      have hk' := hts.layout k (by omega)
      rw [Nat.add_comm k 1, ← Nat.add_assoc, hk']
      simp [Store.layout, Nat.add_comm 1 k]
theorem SitsAll.layout {s : Store} :
    ∀ {ts : List Doc} {parent id : NodeId} {prev : Option NodeId}, s.SitsAll parent prev id ts →
      ∀ k < Tree.sizeAll ts, s.node? (id + k) = (layoutAll parent prev id ts)[k]?
  | [], _, _, _, _, k, hk => by simp at hk
  | t :: ts, parent, id, prev, h, k, hk => by
    obtain ⟨ht, hts⟩ := sitsAll_cons.mp h
    have hlen := length_layout id (some parent) prev
      (if ts.isEmpty then none else some (id + t.size)) t
    rw [Tree.sizeAll_cons] at hk
    rw [layoutAll]
    by_cases hkt : k < t.size
    case pos => rw [ht.layout k hkt, List.getElem?_append_left (by omega)]
    case neg =>
      have hk' := hts.layout (k - t.size) (by omega)
      rw [List.getElem?_append_right (by omega), hlen, ← hk', Nat.add_assoc,
        Nat.add_sub_of_le (by omega)]
end

/-- A store is laid out from the document that stands at its root if it holds nothing else. -/
theorem eq_ofDoc_of_sits {s : Store} {d : Doc} (h : s.Sits none none none 0 d)
    (hsize : s.size = d.size) : s = ofDoc d := by
  have hnodes : s.nodes.toList = Store.layout 0 none none none d := by
    apply List.ext_getElem?
    intro k
    by_cases hk : k < d.size
    case pos => simpa [Store.node?] using h.layout k hk
    case neg =>
      have hs : s.nodes.toList.length ≤ k := by
        rw [Array.length_toList]
        exact Nat.le_trans (Nat.le_of_eq hsize) (Nat.le_of_not_lt hk)
      rw [List.getElem?_eq_none hs, List.getElem?_eq_none (by rw [length_layout]; omega)]
  rw [ofDoc, ← hnodes]

mutual
theorem Sits.unfoldFrom {s : Store} :
    ∀ {t : Doc} {height : Nat} {id : NodeId} {parent prev next : Option NodeId},
      s.Sits parent prev next id t → t.size ≤ height →
        ∃ u, s.unfoldFrom height id = .ok u ∧ u.map (fun p => p.2.toContent) = t
  | .leaf c, 0, _, _, _, _, _, hheight => by simp at hheight
  | .node c ts, 0, _, _, _, _, _, hheight => by simp at hheight
  | .leaf c, height + 1, id, parent, prev, next, h, _ => by
    refine ⟨.leaf (id, { c with parent, prev, next }), ?_, by simp⟩
    simp only [Store.unfoldFrom, node_eq_ok (sits_leaf.mp h)]
    rfl
  | .node c ts, height + 1, id, parent, prev, next, h, hheight => by
    obtain ⟨hnode, hts⟩ := sits_node.mp h
    rw [Tree.size_node] at hheight
    obtain ⟨us, hus, hmap⟩ := hts.unfoldFrom (Nat.le_of_succ_le_succ hheight)
    refine ⟨.node (id, { c with
      parent, prev, next, children := some (rootIds (id + 1) ts) }) us, ?_, by simp [hmap]⟩
    simp only [Store.unfoldFrom, node_eq_ok hnode, bind, Except.bind, hus]
    rfl
theorem SitsAll.unfoldFrom {s : Store} :
    ∀ {ts : List Doc} {height : Nat} {parent id : NodeId} {prev : Option NodeId},
      s.SitsAll parent prev id ts → Tree.sizeAll ts ≤ height →
        ∃ us, (rootIds id ts).mapM (s.unfoldFrom height) = .ok us ∧
          us.map (Tree.map fun p => p.2.toContent) = ts
  | [], _, _, _, _, _, _ => ⟨[], by simp [rootIds, pure, Except.pure], rfl⟩
  | t :: ts, height, parent, id, prev, h, hheight => by
    obtain ⟨ht, hts⟩ := sitsAll_cons.mp h
    rw [Tree.sizeAll_cons] at hheight
    have hhead : t.size ≤ height := by omega
    have htail : Tree.sizeAll ts ≤ height := by omega
    obtain ⟨u, hu, hmap⟩ := ht.unfoldFrom hhead
    obtain ⟨us, hus, hmaps⟩ := hts.unfoldFrom htail
    refine ⟨u :: us, ?_, by simp [hmap, hmaps]⟩
    simp [rootIds, hu, hus, bind, Except.bind, pure, Except.pure]
end

theorem unfold_ofDoc (d : Doc) :
    ∃ u, (ofDoc d).unfold = .ok u ∧ u.map (fun p => p.2.toContent) = d :=
  (sits_ofDoc d).unfoldFrom (Nat.le_of_eq (size_ofDoc d).symm)

theorem toDoc_ofDoc (d : Doc) : (ofDoc d).toDoc = .ok d := by
  obtain ⟨u, hu, hmap⟩ := unfold_ofDoc d
  simp [toDoc, hu, Except.map, hmap]

mutual
theorem Sits.visit {s : Store} :
    ∀ {t : Doc} {id : NodeId} {parent prev next : Option NodeId}, s.Sits parent prev next id t →
      ∀ (budget : Nat) (stack : List NodeId), s.visit (t.size + budget) (id :: stack) =
        (s.visit budget stack).map (List.range' id t.size ++ ·)
  | .leaf c, id, _, _, _, h, budget, stack => by
    rw [Tree.size_leaf, Nat.add_comm, Store.visit, node_eq_ok (sits_leaf.mp h)]
    cases hv : s.visit budget stack <;>
      simp [bind, Except.bind, pure, Except.pure, Except.map, hv]
  | .node c ts, id, _, _, _, h, budget, stack => by
    obtain ⟨hnode, hts⟩ := sits_node.mp h
    have hvisit := hts.visit budget stack
    rw [Tree.size_node, Nat.add_right_comm, Store.visit, node_eq_ok hnode]
    simp only [bind, Except.bind, Option.getD_some, hvisit, List.range'_succ]
    cases s.visit budget stack <;> rfl
theorem SitsAll.visit {s : Store} :
    ∀ {ts : List Doc} {parent id : NodeId} {prev : Option NodeId}, s.SitsAll parent prev id ts →
      ∀ (budget : Nat) (stack : List NodeId),
        s.visit (Tree.sizeAll ts + budget) (rootIds id ts ++ stack) =
          (s.visit budget stack).map (List.range' id (Tree.sizeAll ts) ++ ·)
  | [], _, _, _, _, budget, stack => by
    cases hv : s.visit budget stack <;> simp [rootIds, Except.map, hv]
  | t :: ts, parent, id, prev, h, budget, stack => by
    obtain ⟨ht, hts⟩ := sitsAll_cons.mp h
    have hhead := ht.visit (Tree.sizeAll ts + budget) (rootIds (id + t.size) ts ++ stack)
    have htail := hts.visit budget stack
    rw [Tree.sizeAll_cons, rootIds, List.cons_append, Nat.add_assoc, hhead, htail]
    cases s.visit budget stack <;> simp [Except.map, ← List.append_assoc, List.range'_append_1]
end

theorem dfs_ofDoc (d : Doc) : (ofDoc d).dfs = .ok (List.range d.size) := by
  obtain ⟨u, hu, hmap⟩ := unfold_ofDoc d
  have hsize : u.size = d.size := by rw [← hmap, Tree.size_map]
  have hvisit := (sits_ofDoc d).visit 0 []
  rw [Nat.add_zero] at hvisit
  simp [dfs, hu, hsize, bind, Except.bind, hvisit, Store.visit, Except.map, List.range_eq_range']

mutual
theorem Sits.exists_subtree {s : Store} :
    ∀ {t : Doc} {id : NodeId} {parent prev next : Option NodeId}, s.Sits parent prev next id t →
      ∀ k < t.size, ∃ u ∈ t.subtrees, ∃ parent prev next, s.Sits parent prev next (id + k) u
  | .leaf c, id, parent, prev, next, h, k, hk => by
    obtain rfl : k = 0 := by simpa using hk
    exact ⟨_, Tree.self_mem_subtrees _, parent, prev, next, h⟩
  | .node c ts, id, parent, prev, next, h, k, hk => by
    cases k with
    | zero => exact ⟨_, Tree.self_mem_subtrees _, parent, prev, next, h⟩
    | succ k =>
      rw [Tree.size_node] at hk
      obtain ⟨u, hu, hsits⟩ := (sits_node.mp h).2.exists_subtree k (by omega)
      rw [Nat.add_assoc, Nat.add_comm 1 k] at hsits
      exact ⟨u, by rw [Tree.subtrees_node]; exact List.mem_cons_of_mem _ hu, hsits⟩
theorem SitsAll.exists_subtree {s : Store} :
    ∀ {ts : List Doc} {parent id : NodeId} {prev : Option NodeId}, s.SitsAll parent prev id ts →
      ∀ k < Tree.sizeAll ts, ∃ u ∈ ts.flatMap Tree.subtrees,
        ∃ parent prev next, s.Sits parent prev next (id + k) u
  | [], _, _, _, _, k, hk => by simp at hk
  | t :: ts, parent, id, prev, h, k, hk => by
    obtain ⟨ht, hts⟩ := sitsAll_cons.mp h
    rw [Tree.sizeAll_cons] at hk
    rw [List.flatMap_cons]
    by_cases hkt : k < t.size
    case pos =>
      obtain ⟨u, hu, hsits⟩ := ht.exists_subtree k hkt
      exact ⟨u, List.mem_append_left _ hu, hsits⟩
    case neg =>
      obtain ⟨u, hu, hsits⟩ := hts.exists_subtree (k - t.size) (by omega)
      rw [Nat.add_assoc, Nat.add_sub_of_le (by omega)] at hsits
      exact ⟨u, List.mem_append_right _ hu, hsits⟩
end

theorem SitsAll.mapM_node? {s : Store} {ts : List Doc} {parent id : NodeId} {prev : Option NodeId}
    (h : s.SitsAll parent prev id ts) :
    ∃ ns, (rootIds id ts).mapM s.node? = some ns ∧
      ns.map (·.toContent) = ts.map Tree.label := by
  induction ts generalizing id prev with
  | nil => exact ⟨[], by simp [rootIds], rfl⟩
  | cons t ts ih =>
    obtain ⟨ht, hts⟩ := sitsAll_cons.mp h
    obtain ⟨ns, hns, hmap⟩ := ih hts
    obtain ⟨n, hn, hlabel⟩ : ∃ n, s.node? id = some n ∧ n.toContent = t.label :=
      ⟨_, ht.node?, rfl⟩
    exact ⟨n :: ns, by simp [rootIds, hn, hns], by simp [hlabel, hmap]⟩

theorem exists_sits_of_node?_ofDoc {d : Doc} {id : NodeId} {n : Node}
    (h : (ofDoc d).node? id = some n) :
    ∃ t ∈ d.subtrees, ∃ parent prev next, (ofDoc d).Sits parent prev next id t := by
  have hlt : id < d.size := by
    rw [← size_ofDoc d]
    exact (Array.getElem?_eq_some_iff.mp h).1
  simpa using (sits_ofDoc d).exists_subtree id hlt

/-- A node of a laid out store has the content of a subtree of the document, and lists nodes with
the contents of its children. -/
theorem node?_ofDoc {d : Doc} {id : NodeId} {n : Node} (h : (ofDoc d).node? id = some n) :
    ∃ t ∈ d.subtrees, n.toContent = t.label ∧ n.children = t.children?.map (rootIds (id + 1)) ∧
      ∃ ns, (rootIds (id + 1) t.children).mapM (ofDoc d).node? = some ns ∧
        ns.map (·.toContent) = t.children.map Tree.label := by
  obtain ⟨t, ht, parent, prev, next, hsits⟩ := exists_sits_of_node?_ofDoc h
  have hn := Option.some.inj (h.symm.trans hsits.node?)
  subst hn
  exact ⟨t, ht, rfl, rfl, hsits.children.mapM_node?⟩

theorem exists_below_of_node?_ofDoc {d : Doc} {id : NodeId} {n : Node}
    (h : (ofDoc d).node? (id + 1) = some n) :
    ∃ u ∈ d.children, ∃ t ∈ u.subtrees, n.toContent = t.label := by
  have hlt : id + 1 < d.size := by
    rw [← size_ofDoc d]
    exact (Array.getElem?_eq_some_iff.mp h).1
  have hsits := sits_ofDoc d
  generalize ofDoc d = s at h hsits
  cases d with
  | leaf c => simp at hlt
  | node c ts =>
    rw [Tree.size_node] at hlt
    obtain ⟨t, ht, parent, prev, next, hsits⟩ :=
      (sits_node.mp hsits).2.exists_subtree id (Nat.lt_of_succ_lt_succ hlt)
    obtain ⟨u, hu, htu⟩ := List.mem_flatMap.mp ht
    rw [Nat.add_assoc, Nat.add_comm 1 id, Nat.zero_add] at hsits
    have hn := Option.some.inj (h.symm.trans hsits.node?)
    subst hn
    exact ⟨u, hu, t, htu, rfl⟩

theorem map_rootIds_eq_nil {t : Doc} {id : NodeId} :
    t.children?.map (rootIds id) = some [] ↔ t.children? = some [] := by
  cases t with
  | leaf c => simp
  | node c ts => cases ts <;> simp [rootIds]

theorem rootIds_children {t : Doc} {id : NodeId} {ids : List NodeId}
    (h : t.children?.map (rootIds id) = some ids) : rootIds id t.children = ids := by
  cases t with
  | leaf c => simp at h
  | node c ts => simpa using h

theorem node_ofDoc_of_lt {d : Doc} {id : NodeId} (h : id < d.size) :
    ∃ n, (ofDoc d).node? id = some n ∧ n.toContent ∈ d.preorder := by
  obtain ⟨t, ht, _, _, _, hsits⟩ := (sits_ofDoc d).exists_subtree id h
  rw [Nat.zero_add] at hsits
  refine ⟨_, hsits.node?, ?_⟩
  rw [← Tree.map_label_subtrees]
  exact List.mem_map_of_mem ht

theorem forM_eq_ok_iff {α ε : Type} {f : α → Except ε Unit} {xs : List α} :
    xs.forM f = .ok () ↔ ∀ x ∈ xs, f x = .ok () := by
  induction xs with
  | nil => simp [List.forM, pure, Except.pure]
  | cons x xs ih =>
    have hcons : (x :: xs).forM f = (f x).bind fun _ => xs.forM f := rfl
    rw [hcons, List.forall_mem_cons, ← ih]
    cases f x <;> simp [Except.bind]

theorem checkSpans_ofDoc {src : Source} {d : Doc}
    (h : ∀ c ∈ d.preorder, ∀ span ∈ c.spans, ∃ text, src.slice span = .ok text) :
    (ofDoc d).checkSpans src = .ok () := by
  simp only [checkSpans, dfs_ofDoc, bind, Except.bind]
  rw [forM_eq_ok_iff]
  intro id hid
  obtain ⟨n, hn, hmem⟩ := node_ofDoc_of_lt (List.mem_range.mp hid)
  simp only [node_eq_ok hn]
  rw [forM_eq_ok_iff]
  intro span hspan
  obtain ⟨text, htext⟩ := h n.toContent hmem span hspan
  simp [htext, Except.map]

theorem SitsAll.place {s : Store} {parent id : NodeId} {n : Node} {prev : Option NodeId}
    {prevContent : Option Content} {t : Doc} {ts : List Doc}
    (h : s.SitsAll parent prev id (t :: ts)) (hparent : s.node? parent = some n)
    (hprev : s.linked prev = .ok prevContent) :
    s.place id = .ok { self := t.label
                       parent := some n.toContent
                       prev := prevContent
                       next := ts.head?.map Tree.label } := by
  obtain ⟨ht, hts⟩ := sitsAll_cons.mp h
  refine place_eq_ok ht.node? (linked_eq_ok hparent) hprev ?_
  cases ts with
  | nil => rfl
  | cons u us => exact linked_eq_ok (sitsAll_cons.mp hts).1.node?

theorem SitsAll.neighbours {s : Store} {parent id a b : NodeId} {n : Node} {prev : Option NodeId}
    {ts : List Doc} {before after : List NodeId} (h : s.SitsAll parent prev id ts)
    (hparent : s.node? parent = some n) (hprev : ∃ c, s.linked prev = .ok c)
    (hids : rootIds id ts = before ++ a :: b :: after) :
    ∃ ts₁ t u ts₂, ts = ts₁ ++ t :: u :: ts₂ ∧
      (∃ m x, s.node? a = some m ∧ m.toContent = t.label ∧
        s.place a = .ok ⟨t.label, some n.toContent, x, some u.label⟩) ∧
      ∃ m y, s.node? b = some m ∧ m.toContent = u.label ∧
        s.place b = .ok ⟨u.label, some n.toContent, some t.label, y⟩ := by
  induction before generalizing ts id prev with
  | nil =>
    obtain ⟨c, hc⟩ := hprev
    match ts, hids with
    | t :: u :: ts₂, hids =>
      simp only [rootIds, List.nil_append, List.cons.injEq] at hids
      obtain ⟨rfl, rfl, -⟩ := hids
      obtain ⟨ht, hts⟩ := sitsAll_cons.mp h
      have hu := (sitsAll_cons.mp hts).1
      exact ⟨[], t, u, ts₂, rfl, ⟨_, c, ht.node?, rfl, h.place hparent hc⟩,
        ⟨_, _, hu.node?, rfl, hts.place hparent (linked_eq_ok ht.node?)⟩⟩
  | cons i before ih =>
    match ts, hids with
    | t :: ts, hids =>
      simp only [rootIds, List.cons_append, List.cons.injEq] at hids
      obtain ⟨ht, hts⟩ := sitsAll_cons.mp h
      obtain ⟨ts₁, v, u, ts₂, rfl, hv, hu⟩ := ih hts ⟨_, linked_eq_ok ht.node?⟩ hids.2
      exact ⟨t :: ts₁, v, u, ts₂, rfl, hv, hu⟩

end Markup.Store
