import Markup.Proofs.Unfolding
import Mathlib.Data.List.Nodup
import Mathlib.Data.List.Perm.Basic

/-! Trees in a store. The child lists at and below a node form a tree just if a tree of numbered
contents stands there in which no number comes twice. Then no list leads back, since nothing but its
one parent leads to a node. -/
namespace Markup

namespace Tree

variable {α β : Type}

theorem label_map (f : α → β) (t : Tree α) : (t.map f).label = f t.label := by
  cases t <;> simp

theorem map_map {γ : Type} (g : β → γ) (f : α → β) (t : Tree α) :
    (t.map f).map g = t.map (g ∘ f) := by
  induction t using induct with
  | leaf a => simp
  | node a ts ih => simpa using ih

/-- The labels of parents, each with that of one of its children. -/
def edges (t : Tree α) : List (α × α) :=
  t.subtrees.flatMap fun u => u.children.map fun v => (u.label, v.label)

@[simp] theorem edges_leaf (a : α) : (leaf a).edges = [] := by simp [edges]

@[simp] theorem edges_node (a : α) (ts : List (Tree α)) :
    (node a ts).edges = ts.map (fun v => (a, v.label)) ++ ts.flatMap edges := by
  rw [edges, subtrees_node, List.flatMap_cons, List.flatMap_assoc]
  rfl

/-- Every label but that of the root is the lower end of one edge. -/
theorem perm_edges (t : Tree α) : (t.label :: t.edges.map Prod.snd).Perm t.preorder := by
  induction t using induct with
  | leaf a => simp
  | node a ts ih =>
    simp only [label_node, edges_node, preorder_node, List.map_append, List.map_map,
      List.map_flatMap, List.perm_cons]
    refine (List.map_append_flatMap_perm ts _ _).trans ?_
    exact List.Perm.flatMap_left ts ih

def ids {ι : Type} (t : Tree (ι × α)) : List ι := t.preorder.map Prod.fst

theorem ids_node {ι : Type} (p : ι × α) (ts : List (Tree (ι × α))) :
    (node p ts).ids = p.1 :: ts.flatMap ids := by
  rw [ids, preorder_node, List.map_cons, List.map_flatMap]
  rfl

theorem ids_map {ι : Type} (f : α → β) (t : Tree (ι × α)) :
    (t.map fun p => (p.1, f p.2)).ids = t.ids := by
  rw [ids, preorder_map, List.map_map]
  rfl

theorem size_le_sizeAll {t : Tree α} {ts : List (Tree α)} (h : t ∈ ts) : t.size ≤ sizeAll ts := by
  induction ts with
  | nil => simp at h
  | cons u ts ih =>
    rw [sizeAll_cons]
    rcases List.mem_cons.mp h with rfl | h
    · omega
    · have := ih h
      omega

theorem size_lt_of_mem_children {t u : Tree α} (h : u ∈ t.children) : u.size < t.size := by
  cases t with
  | leaf a => simp at h
  | node a ts =>
    rw [size_node]
    exact Nat.lt_succ_of_le (size_le_sizeAll h)

theorem mem_ids_iff {ι : Type} {t : Tree (ι × α)} {i : ι} :
    i ∈ t.ids ↔ ∃ u ∈ t.subtrees, u.label.1 = i := by
  rw [ids, ← map_label_subtrees, List.map_map, List.mem_map]
  rfl

end Tree

namespace Store

open Relation (ReflTransGen TransGen)

variable {s s' : Store} {i j k r : NodeId} {t : Tree (NodeId × Content)}

/-- The second node stands at or below the first. -/
abbrev Reaches (s : Store) : NodeId → NodeId → Prop := ReflTransGen s.Lists

/-- The tree stands in the store: its nodes have their contents and list their children. -/
def Bears (s : Store) (t : Tree (NodeId × Content)) : Prop :=
  Tree.Everywhere (fun u => ∃ n, s.node? u.label.1 = some n ∧ n.toContent = u.label.2 ∧
    n.children = u.children?.map (List.map fun v => v.label.1)) t

@[simp] theorem bears_leaf {p : NodeId × Content} :
    s.Bears (.leaf p) ↔ ∃ n, s.node? p.1 = some n ∧ n.toContent = p.2 ∧ n.children = none := by
  simp [Bears]

@[simp] theorem bears_node {p : NodeId × Content} {ts : List (Tree (NodeId × Content))} :
    s.Bears (.node p ts) ↔ (∃ n, s.node? p.1 = some n ∧ n.toContent = p.2 ∧
      n.children = some (ts.map fun v => v.label.1)) ∧ ∀ t ∈ ts, s.Bears t := by
  simp [Bears]

theorem Bears.congr (h : s.Bears t) (hs : ∀ i ∈ t.ids, ∀ n, s.node? i = some n →
    ∃ m, s'.node? i = some m ∧ m.toContent = n.toContent ∧ m.children = n.children) :
    s'.Bears t := by
  intro u hu
  obtain ⟨n, hn, hcontent, hchildren⟩ := h u hu
  obtain ⟨m, hm, hcontent', hchildren'⟩ := hs _ (Tree.mem_ids_iff.mpr ⟨u, hu, rfl⟩) n hn
  exact ⟨m, hm, hcontent'.trans hcontent, hchildren'.trans hchildren⟩

theorem Bears.lt_size (h : s.Bears t) : ∀ i ∈ t.ids, i < s.size := by
  intro i hi
  obtain ⟨u, hu, rfl⟩ := Tree.mem_ids_iff.mp hi
  obtain ⟨n, hn, -⟩ := h u hu
  exact lt_size_of_node? hn

theorem bears_of_unfoldFrom {height : Nat} {t : Tree (NodeId × Node)}
    (h : s.unfoldFrom height i = .ok t) :
    s.Bears (t.map fun p => (p.1, p.2.toContent)) ∧ t.label.1 = i := by
  induction height generalizing i t with
  | zero => simp [unfoldFrom] at h
  | succ height ih =>
    obtain ⟨n, hn, ⟨hnone, rfl⟩ | ⟨ids, ts, hids, hts, rfl⟩⟩ := unfoldFrom_succ_eq_ok.mp h
    · exact ⟨by simpa using ⟨n, hn, rfl, hnone⟩, rfl⟩
    · have hlabels : ts.map (fun u => u.label.1) = ids := by
        clear hids h
        induction hts with
        | nil => rfl
        | cons hj _ ihts => rw [List.map_cons, (ih hj).2, ihts]
      refine ⟨?_, rfl⟩
      rw [Tree.map_node, bears_node, List.forall_mem_map]
      refine ⟨⟨n, hn, rfl, ?_⟩, ?_⟩
      · rw [hids, ← hlabels, List.map_map]
        simp [Function.comp_def, Tree.label_map]
      · intro u hu
        obtain ⟨j, -, hj⟩ := Tree.exists_of_mem_forall₂ hts hu
        exact (ih hj).1

theorem length_ids {ι : Type} (t : Tree (ι × Content)) : t.ids.length = t.size := by
  rw [Tree.ids, List.length_map, Tree.length_preorder]

theorem Bears.unfoldFrom {height : Nat} (h : s.Bears t) (hheight : t.size ≤ height) :
    ∃ u, s.unfoldFrom height t.label.1 = .ok u ∧ u.map (fun p => (p.1, p.2.toContent)) = t := by
  induction t using Tree.induct generalizing height with
  | leaf p =>
    obtain ⟨n, hn, hcontent, hnone⟩ := bears_leaf.mp h
    obtain ⟨height, rfl⟩ : ∃ k, height = k + 1 := ⟨height - 1, by simp at hheight; omega⟩
    refine ⟨.leaf (p.1, n), unfoldFrom_succ_eq_ok.mpr ⟨n, hn, .inl ⟨hnone, rfl⟩⟩, ?_⟩
    simp [hcontent]
  | node p ts ih =>
    obtain ⟨⟨n, hn, hcontent, hids⟩, hts⟩ := bears_node.mp h
    rw [Tree.size_node] at hheight
    obtain ⟨height, rfl⟩ : ∃ k, height = k + 1 := ⟨height - 1, by omega⟩
    have hbelow : ∀ t ∈ ts, ∃ u, s.unfoldFrom height t.label.1 = .ok u ∧
        u.map (fun p => (p.1, p.2.toContent)) = t := by
      intro t ht
      have hsize := Tree.size_le_sizeAll ht
      exact ih t ht (hts t ht) (by omega)
    obtain ⟨us, hus, hmap⟩ : ∃ us,
        List.Forall₂ (fun j u => s.unfoldFrom height j = .ok u) (ts.map fun v => v.label.1) us ∧
          us.map (Tree.map fun p => (p.1, p.2.toContent)) = ts := by
      clear hids h hts ih hheight
      induction ts with
      | nil => exact ⟨[], .nil, rfl⟩
      | cons t ts iht =>
        rw [List.forall_mem_cons] at hbelow
        obtain ⟨u, hu, hmap⟩ := hbelow.1
        obtain ⟨us, hus, hmaps⟩ := iht hbelow.2
        exact ⟨u :: us, .cons hu hus, by rw [List.map_cons, hmap, hmaps]⟩
    refine ⟨.node (p.1, n) us, unfoldFrom_succ_eq_ok.mpr ⟨n, hn, .inr ⟨_, us, hids, hus, rfl⟩⟩, ?_⟩
    simp [hcontent, hmap]

/-- The child lists at and below a node form a tree: they name allocated nodes, none of them twice,
and never the node itself. -/
structure Planted (s : Store) (r : NodeId) : Prop where
  allocated : ∀ i, s.Reaches r i → i < s.size
  nodup : ∀ i n ids, s.Reaches r i → s.node? i = some n → n.children = some ids → ids.Nodup
  single : ∀ i j k, s.Reaches r i → s.Reaches r j → s.Lists i k → s.Lists j k → i = j
  unlisted : ∀ i, s.Reaches r i → ¬ s.Lists i r

/-- Nothing leads from a child back to its parent. -/
theorem Planted.not_reaches (h : s.Planted r) (hj : s.Lists r j) : ¬ s.Reaches j r := by
  intro hback
  rcases Relation.ReflTransGen.cases_tail hback with rfl | ⟨k, hk, hkr⟩
  · exact h.unlisted r .refl hj
  · exact h.unlisted k (hk.head hj) hkr

theorem Planted.child (h : s.Planted r) (hj : s.Lists r j) : s.Planted j where
  allocated i hi := h.allocated i (hi.head hj)
  nodup i n ids hi := h.nodup i n ids (hi.head hj)
  single i i' k hi hi' := h.single i i' k (hi.head hj) (hi'.head hj)
  unlisted i hi hij := by
    obtain rfl := h.single i r j (hi.head hj) .refl hij hj
    exact h.not_reaches hj hi

theorem Planted.of_reaches (h : s.Planted r) (hi : s.Reaches r i) : s.Planted i := by
  induction hi with
  | refl => exact h
  | tail _ hjk ih => exact ih.child hjk

theorem Planted.grounded (h : s.Planted r) : s.Grounded r := by
  refine ⟨h.allocated, ?_⟩
  intro i hi hcircle
  obtain ⟨k, hk, hki⟩ := TransGen.tail'_iff.mp hcircle
  exact (h.of_reaches hi).unlisted k hk hki

/-- Of two nodes above a third one stands above the other. -/
theorem Planted.comparable (h : s.Planted r) (hi : s.Reaches r i) (hj : s.Reaches r j)
    (hik : s.Reaches i k) (hjk : s.Reaches j k) : s.Reaches i j ∨ s.Reaches j i := by
  induction hik with
  | refl => exact .inr hjk
  | tail hil hlm ih =>
    rcases Relation.ReflTransGen.cases_tail hjk with rfl | ⟨l, hjl, hlm'⟩
    · exact .inl (hil.tail hlm)
    · obtain rfl := h.single _ _ _ (hi.trans hil) (hj.trans hjl) hlm hlm'
      exact ih hjl

theorem Planted.apart (h : s.Planted r) (hi : s.Lists r i) (hj : s.Lists r j) (hne : i ≠ j)
    (hik : s.Reaches i k) : ¬ s.Reaches j k := by
  have hpath : ∀ {a b}, s.Lists r a → s.Lists r b → a ≠ b → ¬ s.Reaches a b := by
    intro a b ha hb hab hreach
    rcases Relation.ReflTransGen.cases_tail hreach with rfl | ⟨l, hal, hlb⟩
    · exact hab rfl
    · obtain rfl := h.single l r b (hal.head ha) .refl hlb hb
      exact h.not_reaches ha hal
  intro hjk
  rcases h.comparable (.single hi) (.single hj) hik hjk with hij | hji
  · exact hpath hi hj hne hij
  · exact hpath hj hi hne.symm hji

theorem Bears.reaches (h : s.Bears t) : ∀ i ∈ t.ids, s.Reaches t.label.1 i := by
  induction t using Tree.induct with
  | leaf p => simp [Tree.ids, ReflTransGen.refl]
  | node p ts ih =>
    obtain ⟨⟨n, hn, -, hids⟩, hts⟩ := bears_node.mp h
    intro i hi
    rw [Tree.ids_node, List.mem_cons, List.mem_flatMap] at hi
    rcases hi with rfl | ⟨t, ht, hi⟩
    · exact .refl
    · have hlists : s.Lists p.1 t.label.1 := ⟨n, _, hn, hids, List.mem_map_of_mem ht⟩
      exact (ih t ht (hts t ht) i hi).head hlists

/-- The contents of a document are those of the nodes that are reached. -/
theorem everywhere_label_of_reaches {d : Doc} {P : Content → Prop} (h : s.toDoc = .ok d)
    (hP : ∀ i n, s.Reaches 0 i → s.node? i = some n → P n.toContent) :
    Tree.Everywhere (fun t => P t.label) d := by
  obtain ⟨t, ht, rfl⟩ := exists_unfold_of_toDoc h
  obtain ⟨hbears, hlabel⟩ := bears_of_unfoldFrom ht
  rw [Tree.everywhere_label_iff, Tree.preorder_map, List.forall_mem_map]
  intro p hp
  refine hP p.1 p.2 ?_ (node?_of_unfoldFrom ht p hp)
  have hmem : p.1 ∈ (t.map fun p => (p.1, p.2.toContent)).ids := by
    rw [Tree.ids, Tree.preorder_map, List.map_map]
    exact List.mem_map_of_mem hp
  have hreaches := hbears.reaches p.1 hmem
  rwa [Tree.label_map, hlabel] at hreaches

/-- No number comes twice in a tree that stands where child lists form one. -/
theorem Planted.nodup_ids (h : s.Planted r) (ht : s.Bears t) (hr : t.label.1 = r) :
    t.ids.Nodup := by
  induction t using Tree.induct generalizing r with
  | leaf p => simp [Tree.ids]
  | node p ts ih =>
    obtain rfl : p.1 = r := hr
    obtain ⟨⟨n, hn, -, hids⟩, hts⟩ := bears_node.mp ht
    have hlists : ∀ t ∈ ts, s.Lists p.1 t.label.1 := fun t ht =>
      ⟨n, _, hn, hids, List.mem_map_of_mem ht⟩
    have hdistinct : ts.Pairwise fun t u => t.label.1 ≠ u.label.1 :=
      List.pairwise_map.mp (h.nodup p.1 n _ .refl hn hids)
    rw [Tree.ids_node, List.nodup_cons, List.mem_flatMap, List.nodup_flatMap]
    refine ⟨?_, ?_, ?_⟩
    · rintro ⟨t, ht, hp⟩
      exact h.not_reaches (hlists t ht) ((hts t ht).reaches p.1 hp)
    · exact fun t ht => ih t ht (h.child (hlists t ht)) (hts t ht) rfl
    · refine hdistinct.imp_of_mem ?_
      intro t u ht hu hne i hit hiu
      exact h.apart (hlists t ht) (hlists u hu) hne ((hts t ht).reaches i hit)
        ((hts u hu).reaches i hiu)

theorem Planted.exists_bears (h : s.Planted r) :
    ∃ t, s.Bears t ∧ t.label.1 = r ∧ t.ids.Nodup := by
  obtain ⟨u, hu⟩ := h.grounded.exists_unfoldFrom (card_below_le s r)
  obtain ⟨hbears, hlabel⟩ := bears_of_unfoldFrom hu
  refine ⟨_, hbears, ?_, ?_⟩
  · rw [Tree.label_map, hlabel]
  · exact h.nodup_ids hbears (by rw [Tree.label_map, hlabel])

theorem Bears.mem_edges (h : s.Bears t) (hi : i ∈ t.ids) (hij : s.Lists i j) :
    ∃ p ∈ t.edges, p.1.1 = i ∧ p.2.1 = j := by
  obtain ⟨u, hu, rfl⟩ := Tree.mem_ids_iff.mp hi
  obtain ⟨n, hn, -, hchildren⟩ := h u hu
  obtain ⟨m, ids, hm, hids, hj⟩ := hij
  obtain rfl : n = m := Option.some.inj (hn.symm.trans hm)
  obtain ⟨vs, hvs, rfl⟩ := Option.map_eq_some_iff.mp (hchildren.symm.trans hids)
  obtain ⟨v, hv, rfl⟩ := List.mem_map.mp hj
  have hmem : v ∈ u.children := by
    cases u with
    | leaf p => simp at hvs
    | node p us => simpa using Option.some.inj hvs ▸ hv
  exact ⟨(u.label, v.label), List.mem_flatMap.mpr ⟨u, hu, List.mem_map_of_mem hmem⟩, rfl, rfl⟩

theorem Bears.mem_ids_of_reaches (h : s.Bears t) (hi : s.Reaches t.label.1 i) : i ∈ t.ids := by
  induction hi with
  | refl => exact Tree.mem_ids_iff.mpr ⟨t, t.self_mem_subtrees, rfl⟩
  | tail _ hjk ih =>
    obtain ⟨p, hp, -, rfl⟩ := h.mem_edges ih hjk
    have hend : p.2.1 ∈ (t.label :: t.edges.map Prod.snd).map Prod.fst :=
      List.mem_map_of_mem (List.mem_cons_of_mem _ (List.mem_map_of_mem hp))
    exact ((Tree.perm_edges t).map Prod.fst).mem_iff.mp hend

/-- Where a tree stands in which no number comes twice, child lists form a tree. -/
theorem Bears.planted (h : s.Bears t) (hnodup : t.ids.Nodup) : s.Planted t.label.1 := by
  have hedges := ((Tree.perm_edges t).map Prod.fst).nodup_iff.mpr hnodup
  rw [List.map_cons, List.nodup_cons, List.map_map] at hedges
  obtain ⟨hroot, hlower⟩ := hedges
  have hmem : ∀ i, s.Reaches t.label.1 i → i ∈ t.ids := fun i => h.mem_ids_of_reaches
  refine ⟨fun i hi => h.lt_size i (hmem i hi), ?_, ?_, ?_⟩
  · intro i n ids hi hn hids
    obtain ⟨u, hu, rfl⟩ := Tree.mem_ids_iff.mp (hmem i hi)
    obtain ⟨m, hm, -, hchildren⟩ := h u hu
    obtain rfl : m = n := Option.some.inj (hm.symm.trans hn)
    obtain ⟨vs, hvs, rfl⟩ := Option.map_eq_some_iff.mp (hchildren.symm.trans hids)
    rw [Tree.edges, List.map_flatMap, List.nodup_flatMap] at hlower
    have hself := hlower.1 u hu
    cases u with
    | leaf p => simp at hvs
    | node p us =>
      obtain rfl : us = vs := Option.some.inj hvs
      simpa [Function.comp_def] using hself
  · intro i j k hi hj hik hjk
    obtain ⟨p, hp, rfl, hpk⟩ := h.mem_edges (hmem i hi) hik
    obtain ⟨q, hq, rfl, hqk⟩ := h.mem_edges (hmem j hj) hjk
    obtain rfl := List.inj_on_of_nodup_map hlower hp hq (hpk.trans hqk.symm)
    rfl
  · intro i hi hir
    obtain ⟨p, hp, -, hpr⟩ := h.mem_edges (hmem i hi) hir
    apply hroot
    rw [← hpr]
    exact List.mem_map_of_mem hp

theorem planted_of_unfoldFrom {height : Nat} {t : Tree (NodeId × Node)}
    (h : s.unfoldFrom height i = .ok t) (hnodup : (t.preorder.map Prod.fst).Nodup) :
    s.Planted i := by
  obtain ⟨hbears, rfl⟩ := bears_of_unfoldFrom h
  have hplanted := hbears.planted (by rwa [Tree.ids_map])
  rwa [Tree.label_map] at hplanted

theorem Bears.size_le (h : s.Bears t) (hnodup : t.ids.Nodup) : t.size ≤ s.size := by
  rw [← length_ids]
  calc t.ids.length ≤ (List.range s.size).length :=
        (hnodup.subperm fun i hi => List.mem_range.mpr (h.lt_size i hi)).length_le
    _ = s.size := List.length_range

/-- Below the root, the tree that stands in a store is its document. -/
theorem Bears.toDoc (h : s.Bears t) (hroot : t.label.1 = 0) (hnodup : t.ids.Nodup) :
    s.toDoc = .ok (t.map Prod.snd) ∧ s.dfs = .ok t.ids := by
  obtain ⟨u, hu, rfl⟩ := h.unfoldFrom (h.size_le hnodup)
  rw [hroot] at hu
  have hunfold : s.unfold = .ok u := hu
  constructor
  · rw [Store.toDoc, hunfold, Tree.map_map]
    rfl
  · rw [dfs_of_unfold hunfold, Tree.ids, Tree.preorder_map, List.map_map]
    rfl

theorem Planted.exists_dfs (h : s.Planted 0) :
    ∃ ids, s.dfs = .ok ids ∧ ids.Nodup ∧ ∀ id, id ∈ ids ↔ s.Reaches 0 id := by
  obtain ⟨t, ht, hroot, hnodup⟩ := h.exists_bears
  refine ⟨t.ids, (ht.toDoc hroot hnodup).2, hnodup, ?_⟩
  intro id
  rw [← hroot]
  exact ⟨ht.reaches id, ht.mem_ids_of_reaches⟩

end Store

end Markup
