import Markup.Proofs.Building

/-! Documents that stand side by side. Their roots may have any links; when a node takes them as its
children, the links are set, and then they stand as a laid out document does. -/
namespace Markup.Store

variable {s s' : Store} {parent id : Nat} {prev : Option NodeId} {ids : List NodeId} {t : Doc}
  {ts : List Doc}

/-- The nodes of a store are still there in another, with their contents and child lists. -/
structure Retained (s s' : Store) : Prop where
  size : s.size ≤ s'.size
  nodes : ∀ i n, s.node? i = some n →
    ∃ m, s'.node? i = some m ∧ m.toContent = n.toContent ∧ m.children = n.children

theorem Retained.refl (s : Store) : s.Retained s := ⟨Nat.le_refl _, fun _ n hn => ⟨n, hn, rfl, rfl⟩⟩

theorem Retained.trans {s'' : Store} (h : s.Retained s') (h' : s'.Retained s'') :
    s.Retained s'' := by
  refine ⟨h.size.trans h'.size, ?_⟩
  intro i n hn
  obtain ⟨m, hm, hcontent, hchildren⟩ := h.nodes i n hn
  obtain ⟨k, hk, hcontent', hchildren'⟩ := h'.nodes i m hm
  exact ⟨k, hk, hcontent'.trans hcontent, hchildren'.trans hchildren⟩

theorem size_linkFrom : (linkFrom parent prev ids s).size = s.size := by
  induction ids generalizing s prev with
  | nil => rfl
  | cons id ids ih => rw [linkFrom, ih, size_adjust]

theorem node?_linkFrom_of_notMem {i : Nat} (h : i ∉ ids) :
    (linkFrom parent prev ids s).node? i = s.node? i := by
  induction ids generalizing s prev with
  | nil => rfl
  | cons id ids ih =>
    rw [List.mem_cons, not_or] at h
    rw [linkFrom, ih h.2, node?_adjust_of_ne s (Ne.symm h.1)]

theorem retained_linkFrom : s.Retained (linkFrom parent prev ids s) := by
  induction ids generalizing s prev with
  | nil => exact .refl s
  | cons id ids ih =>
    refine Retained.trans ⟨by rw [size_adjust], ?_⟩ ih
    intro i n hn
    rw [node?_adjust, hn]
    split <;> exact ⟨_, rfl, rfl, rfl⟩

@[simp] theorem size_relist : (s.relist parent ids).size = s.size := by
  rw [relist, size_adjust, size_linkFrom]

theorem node?_relist_of_notMem {i : Nat} (hparent : i ≠ parent) (hids : i ∉ ids) :
    (s.relist parent ids).node? i = s.node? i := by
  rw [relist, node?_adjust_of_ne _ (Ne.symm hparent), node?_linkFrom_of_notMem hids]

theorem node?_relist_self (h : parent ∉ ids) : (s.relist parent ids).node? parent =
    (s.node? parent).map fun n => { n with children := n.children.map fun _ => ids } := by
  rw [relist, node?_adjust_self, node?_linkFrom_of_notMem h]

theorem setChildren_eq_ok (hids : ∀ id ∈ ids, id < s.size) (hparent : parent < s.size) :
    s.setChildren parent ids = .ok (s.relist parent ids) := by
  have hcheck : ids.forM (fun id => (s.node id).map fun _ => ()) = .ok () := by
    rw [forM_eq_ok_iff]
    intro id hid
    obtain ⟨n, hn⟩ := exists_node?_of_lt (hids id hid)
    rw [node_eq_ok hn]
    rfl
  obtain ⟨p, hp⟩ := exists_node?_of_lt hparent
  simp only [setChildren, hcheck, node_eq_ok hp, bind, Except.bind, pure, Except.pure]

theorem mem_rootIds {i : Nat} (h : i ∈ rootIds id ts) : id ≤ i ∧ i < id + Tree.sizeAll ts := by
  induction ts generalizing id with
  | nil => simp [rootIds] at h
  | cons t ts ih =>
    have hpos := t.size_pos
    rw [rootIds, List.mem_cons] at h
    rw [Tree.sizeAll_cons]
    rcases h with rfl | h
    · omega
    · have := ih h
      omega

theorem head?_rootIds : (rootIds id ts).head? = if ts.isEmpty then none else some id := by
  cases ts <;> rfl

section Frame

variable {parent' prev' next' next : Option NodeId}

theorem Sits.frame (h : s.Sits parent' prev' next' id t)
    (hs : ∀ i : Nat, id ≤ i → i < id + t.size → s'.node? i = s.node? i) :
    s'.Sits parent' prev' next' id t := by
  apply sits_of_layout t
  intro k hk
  rw [hs (id + k) (by omega) (by omega), h.layout k hk]

theorem SitsAll.frame (h : s.SitsAll parent prev id ts)
    (hs : ∀ i : Nat, id ≤ i → i < id + Tree.sizeAll ts → s'.node? i = s.node? i) :
    s'.SitsAll parent prev id ts := by
  apply sitsAll_of_layoutAll ts
  intro k hk
  rw [hs (id + k) (by omega) (by omega), h.layout k hk]

theorem Sits.relink {parent : Option NodeId} (h : s.Sits parent' prev' next' id t)
    (hroot : s'.node? id = (s.node? id).map fun n => { n with parent, prev, next })
    (hs : ∀ i : Nat, id < i → i < id + t.size → s'.node? i = s.node? i) :
    s'.Sits parent prev next id t := by
  rw [h.node?] at hroot
  cases t with
  | leaf c => exact sits_leaf.mpr hroot
  | node c ts =>
    refine sits_node.mpr ⟨hroot, h.children.frame fun i hle hlt => hs i (by omega) ?_⟩
    rw [Tree.size_node]
    rw [Tree.children_node] at hlt
    omega

end Frame

/-- The documents stand side by side from number `id` on, with any links at their roots. -/
def StandsAll (s : Store) : NodeId → List Doc → Prop
  | _, [] => True
  | id, t :: ts => (∃ parent prev next, s.Sits parent prev next id t) ∧ StandsAll s (id + t.size) ts

theorem StandsAll.frame (h : s.StandsAll id ts)
    (hs : ∀ i : Nat, id ≤ i → i < id + Tree.sizeAll ts → s'.node? i = s.node? i) :
    s'.StandsAll id ts := by
  induction ts generalizing id with
  | nil => trivial
  | cons t ts ih =>
    rw [Tree.sizeAll_cons] at hs
    obtain ⟨⟨parent, prev, next, ht⟩, hts⟩ := h
    exact ⟨⟨parent, prev, next, ht.frame fun i hle hlt => hs i hle (by omega)⟩,
      ih hts fun i hle hlt => hs i (by omega) (by omega)⟩

theorem sizeAll_append {α : Type} (ts us : List (Tree α)) :
    Tree.sizeAll (ts ++ us) = Tree.sizeAll ts + Tree.sizeAll us := by
  induction ts with
  | nil => simp
  | cons t ts ih => rw [List.cons_append, Tree.sizeAll_cons, Tree.sizeAll_cons, ih, Nat.add_assoc]

theorem rootIds_append (ts us : List Doc) :
    rootIds id (ts ++ us) = rootIds id ts ++ rootIds (id + Tree.sizeAll ts) us := by
  induction ts generalizing id with
  | nil => rfl
  | cons t ts ih =>
    rw [List.cons_append, rootIds, rootIds, ih, Tree.sizeAll_cons, List.cons_append, Nat.add_assoc]

theorem StandsAll.append {us : List Doc} (h : s.StandsAll id ts)
    (h' : s.StandsAll (id + Tree.sizeAll ts) us) : s.StandsAll id (ts ++ us) := by
  induction ts generalizing id with
  | nil => simpa using h'
  | cons t ts ih =>
    refine ⟨h.1, ih h.2 ?_⟩
    rwa [Tree.sizeAll_cons, ← Nat.add_assoc] at h'

/-- Linking sets the links of the roots, each in its turn. -/
theorem StandsAll.sitsAll_linkFrom (h : s.StandsAll id ts) :
    (linkFrom parent prev (rootIds id ts) s).SitsAll parent prev id ts := by
  induction ts generalizing s id prev with
  | nil => exact sitsAll_nil
  | cons t ts ih =>
    obtain ⟨⟨parent', prev', next', ht⟩, hts⟩ := h
    have hpos := t.size_pos
    rw [rootIds, linkFrom, sitsAll_cons]
    constructor
    · refine (ht.relink (node?_adjust_self s id _) fun i hlt _ => ?_).frame fun i hle hlt => ?_
      · exact node?_adjust_of_ne s (Nat.ne_of_lt hlt) _
      · refine (node?_linkFrom_of_notMem fun hmem => ?_).trans (by rw [head?_rootIds])
        have := mem_rootIds hmem
        omega
    · exact ih (hts.frame fun i hle _ => node?_adjust_of_ne s (Nat.ne_of_lt (by omega)) _)

/-- A node whose children stand behind it takes them over. -/
theorem StandsAll.sits_relist {c : Content} {parent' prev' next' : Option NodeId}
    (h : s.StandsAll (id + 1) ts) (hn : s.node? id = some { c with
      parent := parent', prev := prev', next := next', children := some ids }) :
    (s.relist id (rootIds (id + 1) ts)).Sits parent' prev' next' id (.node c ts) := by
  have hnotMem : id ∉ rootIds (id + 1) ts := fun hmem => by
    have := mem_rootIds hmem
    omega
  rw [sits_node, node?_relist_self hnotMem, hn]
  refine ⟨rfl, h.sitsAll_linkFrom.frame fun i hle _ => ?_⟩
  rw [relist, node?_adjust_of_ne _ (Nat.ne_of_lt hle)]

end Markup.Store
