import Markup.Proofs.Layout
import Mathlib.Data.Finset.Card
import Mathlib.Logic.Relation

/-! Stores that unfold. A store has a document just if the child lists below its root name allocated
nodes and never lead back to where they start; links, detached nodes and nodes that several lists
name are free. What is visited and checked in such a store is what stands in its document. -/
namespace Markup

theorem Tree.preorder_map {α β : Type} (f : α → β) (t : Tree α) :
    (t.map f).preorder = t.preorder.map f := by
  induction t using induct with
  | leaf a => simp
  | node a ts ih =>
    have hts : (ts.map (map f)).flatMap preorder = (ts.flatMap preorder).map f := by
      rw [List.flatMap_map, List.map_flatMap]
      exact List.flatMap_congr ih
    simp [hts]

namespace Store

open Relation (ReflTransGen TransGen)

variable {s : Store} {i j : NodeId} {height : Nat}

section Lists

variable {α β ε : Type} {f : α → Except ε β} {xs : List α} {ys : List β}

theorem mapM_eq_ok_iff : xs.mapM f = .ok ys ↔ List.Forall₂ (fun x y => f x = .ok y) xs ys := by
  induction xs generalizing ys with
  | nil => cases ys <;> simp [pure, Except.pure]
  | cons x xs ih =>
    rw [List.mapM_cons]
    cases hx : f x with
    | error e => cases ys <;> simp [bind, Except.bind, hx]
    | ok y =>
      cases hxs : xs.mapM f with
      | error e => cases ys <;> simp [bind, Except.bind, ← ih, hxs]
      | ok zs => cases ys <;> simp [bind, Except.bind, pure, Except.pure, ← ih, hxs, hx]

theorem exists_mapM_eq_ok (h : ∀ x ∈ xs, ∃ y, f x = .ok y) : ∃ ys, xs.mapM f = .ok ys := by
  induction xs with
  | nil => exact ⟨[], rfl⟩
  | cons x xs ih =>
    rw [List.forall_mem_cons] at h
    obtain ⟨y, hy⟩ := h.1
    obtain ⟨ys, hys⟩ := ih h.2
    exact ⟨y :: ys, mapM_eq_ok_iff.mpr (.cons hy (mapM_eq_ok_iff.mp hys))⟩

end Lists

/-- The child list of the node `i` names `j`. -/
def Lists (s : Store) (i j : NodeId) : Prop :=
  ∃ n ids, s.node? i = some n ∧ n.children = some ids ∧ j ∈ ids

/-- The part of the store below the root is all there and runs in no circle. -/
structure Rooted (s : Store) : Prop where
  allocated : ∀ i, ReflTransGen s.Lists 0 i → i < s.size
  acyclic : ∀ i, ReflTransGen s.Lists 0 i → ¬ TransGen s.Lists i i

theorem exists_node?_of_lt (h : i < s.size) : ∃ n, s.node? i = some n :=
  ⟨s.nodes[i], Array.getElem?_eq_getElem h⟩

theorem lt_size_of_node? {n : Node} (h : s.node? i = some n) : i < s.size :=
  (Array.getElem?_eq_some_iff.mp h).1

theorem unfoldFrom_succ_eq_ok {t : Tree (NodeId × Node)} :
    s.unfoldFrom (height + 1) i = .ok t ↔ ∃ n, s.node? i = some n ∧
      (n.children = none ∧ t = .leaf (i, n) ∨ ∃ ids ts, n.children = some ids ∧
        List.Forall₂ (fun j u => s.unfoldFrom height j = .ok u) ids ts ∧ t = .node (i, n) ts) := by
  rw [unfoldFrom, node]
  cases hn : s.node? i with
  | none => simp [bind, Except.bind]
  | some n =>
    cases hids : n.children with
    | none => simp [bind, Except.bind, pure, Except.pure, hids, eq_comm]
    | some ids =>
      simp only [bind, Except.bind, hids, pure, Except.pure, Option.some.injEq, exists_eq_left',
        reduceCtorEq, false_and, false_or, ← mapM_eq_ok_iff]
      cases hts : ids.mapM (s.unfoldFrom height) with
      | error e => simp [hts]
      | ok ts => simp [hts, eq_comm]

open Classical in
/-- The allocated nodes at and below a node. -/
noncomputable def below (s : Store) (i : NodeId) : Finset NodeId :=
  (Finset.range s.size).filter (ReflTransGen s.Lists i)

open Classical in
theorem card_below_le (s : Store) (i : NodeId) : (s.below i).card ≤ s.size := by
  unfold below
  exact (Finset.card_le_card (Finset.filter_subset _ _)).trans_eq (Finset.card_range s.size)

/-- What stands at and below a node is all there and runs in no circle. -/
structure Grounded (s : Store) (i : NodeId) : Prop where
  allocated : ∀ j, ReflTransGen s.Lists i j → j < s.size
  acyclic : ∀ j, ReflTransGen s.Lists i j → ¬ TransGen s.Lists j j

theorem Rooted.grounded (h : s.Rooted) : s.Grounded 0 := ⟨h.allocated, h.acyclic⟩

theorem Grounded.child (h : s.Grounded i) (hij : s.Lists i j) : s.Grounded j :=
  ⟨fun k hk => h.allocated k (hk.head hij), fun k hk => h.acyclic k (hk.head hij)⟩

theorem Grounded.self_mem_below (h : s.Grounded i) : i ∈ s.below i := by
  simp only [below, Finset.mem_filter, Finset.mem_range]
  exact ⟨h.allocated i .refl, .refl⟩

/-- Below a child stands less than below its parent. -/
theorem Grounded.card_below_lt (h : s.Grounded i) (hij : s.Lists i j) :
    (s.below j).card < (s.below i).card := by
  apply Finset.card_lt_card
  rw [Finset.ssubset_iff_of_subset]
  · refine ⟨i, h.self_mem_below, ?_⟩
    simp only [below, Finset.mem_filter, not_and]
    intro _ hji
    exact h.acyclic i .refl (TransGen.head' hij hji)
  · intro k hk
    simp only [below, Finset.mem_filter] at hk ⊢
    exact ⟨hk.1, hk.2.head hij⟩

theorem Grounded.exists_unfoldFrom (h : s.Grounded i) (hheight : (s.below i).card ≤ height) :
    ∃ t, s.unfoldFrom height i = .ok t := by
  induction height generalizing i with
  | zero =>
    have := Finset.card_pos.mpr ⟨i, h.self_mem_below⟩
    omega
  | succ height ih =>
    obtain ⟨n, hn⟩ := exists_node?_of_lt (h.allocated i .refl)
    simp only [unfoldFrom_succ_eq_ok]
    cases hids : n.children with
    | none => exact ⟨_, n, hn, .inl ⟨hids, rfl⟩⟩
    | some ids =>
      obtain ⟨ts, hts⟩ : ∃ ts, ids.mapM (s.unfoldFrom height) = .ok ts := by
        apply exists_mapM_eq_ok
        intro j hj
        have hij : s.Lists i j := ⟨n, ids, hn, hids, hj⟩
        have := h.card_below_lt hij
        exact ih (h.child hij) (by omega)
      exact ⟨_, n, hn, .inr ⟨ids, ts, hids, mapM_eq_ok_iff.mp hts, rfl⟩⟩

theorem exists_unfoldFrom_of_lists {t : Tree (NodeId × Node)}
    (h : s.unfoldFrom (height + 1) i = .ok t) (hij : s.Lists i j) :
    ∃ u, s.unfoldFrom height j = .ok u := by
  obtain ⟨n, hn, hcases⟩ := unfoldFrom_succ_eq_ok.mp h
  obtain ⟨n', ids, hn', hids, hj⟩ := hij
  obtain rfl : n = n' := Option.some.inj (hn.symm.trans hn')
  rcases hcases with ⟨hnone, -⟩ | ⟨ids', ts, hids', hts, -⟩
  · simp [hnone] at hids
  · obtain rfl : ids' = ids := Option.some.inj (hids'.symm.trans hids)
    obtain ⟨u, -, hu⟩ := Tree.exists_of_mem_forall₂ hts.flip hj
    exact ⟨u, hu⟩

/-- The height that is left shrinks on every way down. -/
theorem exists_unfoldFrom_of_transGen {t : Tree (NodeId × Node)}
    (h : s.unfoldFrom height i = .ok t) (hij : TransGen s.Lists i j) :
    ∃ lower < height, ∃ u, s.unfoldFrom lower j = .ok u := by
  cases height with
  | zero => simp [unfoldFrom] at h
  | succ height =>
    induction hij with
    | single hij => exact ⟨height, height.lt_succ_self, exists_unfoldFrom_of_lists h hij⟩
    | tail _ hjk ih =>
      obtain ⟨lower, hlt, u, hu⟩ := ih
      cases lower with
      | zero => simp [unfoldFrom] at hu
      | succ lower => exact ⟨lower, by omega, exists_unfoldFrom_of_lists hu hjk⟩

theorem not_transGen_of_unfoldFrom {t : Tree (NodeId × Node)} (h : s.unfoldFrom height i = .ok t) :
    ¬ TransGen s.Lists i i := by
  intro hcircle
  induction height using Nat.strong_induction_on generalizing t with
  | h height ih =>
    obtain ⟨lower, hlt, u, hu⟩ := exists_unfoldFrom_of_transGen h hcircle
    exact ih lower hlt hu

theorem lt_size_of_unfoldFrom {t : Tree (NodeId × Node)} (h : s.unfoldFrom height i = .ok t) :
    i < s.size := by
  cases height with
  | zero => simp [unfoldFrom] at h
  | succ height =>
    obtain ⟨n, hn, -⟩ := unfoldFrom_succ_eq_ok.mp h
    exact lt_size_of_node? hn

theorem exists_unfold_iff_rooted : (∃ t, s.unfold = .ok t) ↔ s.Rooted := by
  constructor
  · rintro ⟨t, ht⟩
    have hbelow : ∀ i, ReflTransGen s.Lists 0 i → ∃ height u, s.unfoldFrom height i = .ok u := by
      intro i hi
      rcases Relation.reflTransGen_iff_eq_or_transGen.mp hi with rfl | hi
      · exact ⟨_, t, ht⟩
      · obtain ⟨lower, -, u, hu⟩ := exists_unfoldFrom_of_transGen ht hi
        exact ⟨lower, u, hu⟩
    refine ⟨fun i hi => ?_, fun i hi => ?_⟩
    · obtain ⟨height, u, hu⟩ := hbelow i hi
      exact lt_size_of_unfoldFrom hu
    · obtain ⟨height, u, hu⟩ := hbelow i hi
      exact not_transGen_of_unfoldFrom hu
  · intro hs
    exact hs.grounded.exists_unfoldFrom (card_below_le s 0)

/-- A store has a document just if it is rooted. -/
theorem exists_toDoc_iff_rooted : (∃ d, s.toDoc = .ok d) ↔ s.Rooted := by
  rw [← exists_unfold_iff_rooted, toDoc]
  cases s.unfold <;> simp [Except.map]

section Unfolded

variable {t : Tree (NodeId × Node)}

theorem node?_of_unfoldFrom (h : s.unfoldFrom height i = .ok t) :
    ∀ p ∈ t.preorder, s.node? p.1 = some p.2 := by
  induction height generalizing i t with
  | zero => simp [unfoldFrom] at h
  | succ height ih =>
    obtain ⟨n, hn, ⟨-, rfl⟩ | ⟨ids, ts, -, hts, rfl⟩⟩ := unfoldFrom_succ_eq_ok.mp h
    · simpa using hn
    · rw [Tree.preorder_node, List.forall_mem_cons]
      refine ⟨hn, ?_⟩
      intro p hp
      obtain ⟨u, hu, hpu⟩ := List.mem_flatMap.mp hp
      obtain ⟨j, -, hj⟩ := Tree.exists_of_mem_forall₂ hts hu
      exact ih hj p hpu

theorem visit_of_unfoldFrom (h : s.unfoldFrom height i = .ok t) (budget : Nat)
    (stack : List NodeId) : s.visit (t.size + budget) (i :: stack) =
      (s.visit budget stack).map (t.preorder.map Prod.fst ++ ·) := by
  induction height generalizing i t budget stack with
  | zero => simp [unfoldFrom] at h
  | succ height ih =>
    obtain ⟨n, hn, ⟨hnone, rfl⟩ | ⟨ids, ts, hids, hts, rfl⟩⟩ := unfoldFrom_succ_eq_ok.mp h
    · rw [Tree.size_leaf, Nat.add_comm, visit, node_eq_ok hn]
      cases hv : s.visit budget stack <;>
        simp [bind, Except.bind, pure, Except.pure, Except.map, hnone, hv]
    · have hlist : s.visit (Tree.sizeAll ts + budget) (ids ++ stack) =
          (s.visit budget stack).map ((ts.flatMap Tree.preorder).map Prod.fst ++ ·) := by
        clear hids h
        induction hts with
        | nil => cases hv : s.visit budget stack <;> simp [Except.map, hv]
        | @cons j u ids ts hj _ ihts =>
          rw [Tree.sizeAll_cons, List.cons_append, Nat.add_assoc, ih hj, ihts]
          cases s.visit budget stack <;> simp [Except.map]
      rw [Tree.size_node, Nat.add_right_comm, visit, node_eq_ok hn]
      simp only [bind, Except.bind, hids, Option.getD_some, hlist]
      cases s.visit budget stack <;> simp [Except.map, pure, Except.pure]

theorem dfs_of_unfold (h : s.unfold = .ok t) : s.dfs = .ok (t.preorder.map Prod.fst) := by
  have hvisit := visit_of_unfoldFrom h 0 []
  rw [Nat.add_zero] at hvisit
  simp [dfs, h, bind, Except.bind, hvisit, visit, Except.map]

end Unfolded

theorem exists_unfold_of_toDoc {d : Doc} (h : s.toDoc = .ok d) :
    ∃ t, s.unfold = .ok t ∧ t.map (fun p => p.2.toContent) = d := by
  rw [toDoc] at h
  cases hu : s.unfold with
  | error e => simp [hu, Except.map] at h
  | ok t => exact ⟨t, rfl, by simpa [hu, Except.map] using h⟩

/-- The spans of a store are checked in the order of its document, whatever numbers its nodes
have. -/
theorem checkSpans_of_toDoc {d : Doc} (h : s.toDoc = .ok d) (src : Source) :
    s.checkSpans src =
      d.preorder.forM fun c => c.spans.forM fun span => (src.slice span).map fun _ => () := by
  obtain ⟨t, ht, rfl⟩ := exists_unfold_of_toDoc h
  have hnodes := node?_of_unfoldFrom ht
  rw [checkSpans, dfs_of_unfold ht, Tree.preorder_map]
  simp only [bind, Except.bind]
  generalize t.preorder = ps at hnodes
  induction ps with
  | nil => rfl
  | cons p ps ih =>
    rw [List.forall_mem_cons] at hnodes
    have hps := ih hnodes.2
    simp only [List.map_cons, List.forM, node_eq_ok hnodes.1, bind, Except.bind, hps]

end Store

end Markup
