import Markup.Proofs.Rebuilding

/-! Ways over the nodes below the root. A store whose child lists are all there and run in no circle
unfolds to one tree. A stack from which the top is taken, with its children put in its place, gives
that tree in pre-order and is then empty; rebuilding goes over the same nodes in post-order. A node
that several lists name stands in the tree as often as it is listed, so no count of the nodes bounds
the walk, but the size of the tree does. -/
namespace Markup

namespace Store

variable {s : Store} {i id : NodeId} {n : Node} {t u : Tree (NodeId × Node)}
  {ts : List (Tree (NodeId × Node))} {stack rest ids : List NodeId} {height : Nat}

/-! ### The unfolded tree -/

/-- The tree unfolds from the node `i`: its nodes are those of the store, and each stands above the
nodes that it lists. -/
structure Unfolds (s : Store) (i : NodeId) (t : Tree (NodeId × Node)) : Prop where
  root : t.label.1 = i
  nodes : Tree.Everywhere (fun u => s.node? u.label.1 = some u.label.2 ∧
    u.label.2.children = u.children?.map (List.map fun v => v.label.1)) t

theorem unfolds_leaf {p : NodeId × Node} :
    s.Unfolds i (.leaf p) ↔ p.1 = i ∧ s.node? i = some p.2 ∧ p.2.children = none := by
  constructor
  · rintro ⟨rfl, hnodes⟩
    simpa using hnodes
  · rintro ⟨rfl, hnodes⟩
    exact ⟨rfl, by simpa using hnodes⟩

theorem unfolds_node {p : NodeId × Node} :
    s.Unfolds i (.node p ts) ↔ p.1 = i ∧ s.node? i = some p.2 ∧
      p.2.children = some (ts.map fun v => v.label.1) ∧ ∀ v ∈ ts, s.Unfolds v.label.1 v := by
  constructor
  · rintro ⟨rfl, hnodes⟩
    obtain ⟨⟨hn, hids⟩, hts⟩ := Tree.everywhere_node.mp hnodes
    exact ⟨rfl, hn, hids, fun v hv => ⟨rfl, hts v hv⟩⟩
  · rintro ⟨rfl, hn, hids, hts⟩
    exact ⟨rfl, Tree.everywhere_node.mpr ⟨⟨hn, hids⟩, fun v hv => (hts v hv).nodes⟩⟩

theorem unfolds_of_unfoldFrom (h : s.unfoldFrom height i = .ok t) : s.Unfolds i t := by
  induction height generalizing i t with
  | zero => simp [unfoldFrom] at h
  | succ height ih =>
    obtain ⟨n, hn, ⟨hnone, rfl⟩ | ⟨ids, ts, hids, hts, rfl⟩⟩ := unfoldFrom_succ_eq_ok.mp h
    · exact unfolds_leaf.mpr ⟨rfl, hn, hnone⟩
    · have hlabels : ids = ts.map fun v => v.label.1 := by
        clear hids h
        induction hts with
        | nil => rfl
        | cons hj _ ihts => rw [List.map_cons, (ih hj).root, ihts]
      refine unfolds_node.mpr ⟨rfl, hn, hids.trans (congrArg some hlabels), ?_⟩
      intro v hv
      obtain ⟨j, -, hj⟩ := Tree.exists_of_mem_forall₂ hts hv
      exact (ih hj).root.symm ▸ ih hj

theorem unfolds_list_unique {us : List (Tree (NodeId × Node))}
    (hunique : ∀ t ∈ ts, ∀ i u, s.Unfolds i t → s.Unfolds i u → u = t)
    (hts : ∀ t ∈ ts, s.Unfolds t.label.1 t) (hus : ∀ u ∈ us, s.Unfolds u.label.1 u)
    (hlabels : (ts.map fun t => t.label.1) = us.map fun u => u.label.1) : us = ts := by
  induction ts generalizing us with
  | nil => simpa using hlabels.symm
  | cons t ts ih =>
    cases us with
    | nil => simp at hlabels
    | cons u us =>
      rw [List.map_cons, List.map_cons, List.cons.injEq] at hlabels
      rw [List.forall_mem_cons] at hunique hts hus
      rw [hunique.1 _ u hts.1 (hlabels.1 ▸ hus.1), ih hunique.2 hts.2 hus.2 hlabels.2]

/-- A node unfolds in one way, since it says itself what stands below it. -/
theorem Unfolds.unique (ht : s.Unfolds i t) (hu : s.Unfolds i u) : u = t := by
  induction t using Tree.induct generalizing i u with
  | leaf p =>
    obtain ⟨rfl, hn, hnone⟩ := unfolds_leaf.mp ht
    cases u with
    | leaf q =>
      obtain ⟨hq, hm, -⟩ := unfolds_leaf.mp hu
      exact congrArg Tree.leaf (Prod.ext hq (Option.some.inj (hm.symm.trans hn)))
    | node q us =>
      obtain ⟨-, hm, hids, -⟩ := unfolds_node.mp hu
      rw [Option.some.inj (hm.symm.trans hn), hnone] at hids
      simp at hids
  | node p ts ih =>
    obtain ⟨rfl, hn, hids, hts⟩ := unfolds_node.mp ht
    cases u with
    | leaf q =>
      obtain ⟨-, hm, hnone⟩ := unfolds_leaf.mp hu
      rw [Option.some.inj (hm.symm.trans hn), hids] at hnone
      simp at hnone
    | node q us =>
      obtain ⟨hq, hm, hids', hus⟩ := unfolds_node.mp hu
      obtain rfl : q = p := Prod.ext hq (Option.some.inj (hm.symm.trans hn))
      rw [hids, Option.some.injEq] at hids'
      rw [unfolds_list_unique (fun v hv _ _ => ih v hv) hts hus hids']

/-! ### The stack -/

/-- One step of a walk. The top of the stack is at its end; it is taken, and its children are put
there in reverse order, so that the first of them comes next. -/
def advance (s : Store) (stack : List NodeId) : Except Error (Option (NodeId × List NodeId)) :=
  match stack.getLast? with
  | none => .ok none
  | some id => (s.node id).map fun n => some (id, stack.dropLast ++ (n.children.getD []).reverse)

/-- Step after step, the walk gives these nodes and comes to an end. -/
inductive Yields (s : Store) : List NodeId → List NodeId → Prop where
  | done {stack : List NodeId} (last : s.advance stack = .ok none) : Yields s stack []
  | step {stack rest ids : List NodeId} {id : NodeId}
      (next : s.advance stack = .ok (some (id, rest))) (tail : Yields s rest ids) :
      Yields s stack (id :: ids)

theorem advance_append (h : s.node? id = some n) (stack : List NodeId) :
    s.advance (stack ++ [id]) = .ok (some (id, stack ++ (n.children.getD []).reverse)) := by
  simp [advance, node_eq_ok h, Except.map]

theorem Yields.unique {ids' : List NodeId} (h : s.Yields stack ids) (h' : s.Yields stack ids') :
    ids' = ids := by
  induction h generalizing ids' with
  | done last =>
    cases h' with
    | done => rfl
    | step next => simp [last] at next
  | step next _ ih =>
    cases h' with
    | done last => simp [next] at last
    | step next' tail' =>
      rw [next, Except.ok.injEq, Option.some.injEq, Prod.mk.injEq] at next'
      obtain ⟨rfl, rfl⟩ := next'
      rw [ih tail']

theorem yields_append_reverse
    (hts : ∀ t ∈ ts, ∀ stack ids, s.Yields stack ids →
      s.Yields (stack ++ [t.label.1]) (t.ids ++ ids))
    (h : s.Yields stack ids) :
    s.Yields (stack ++ (ts.map fun t => t.label.1).reverse) (ts.flatMap Tree.ids ++ ids) := by
  induction ts with
  | nil => simpa using h
  | cons t ts ih =>
    rw [List.forall_mem_cons] at hts
    rw [List.map_cons, List.reverse_cons, List.flatMap_cons, List.append_assoc t.ids,
      ← List.append_assoc stack]
    exact hts.1 _ _ (ih hts.2)

/-- From the top of the stack a whole tree is walked over before what stands below it comes. -/
theorem Unfolds.yields (ht : s.Unfolds i t) (h : s.Yields stack ids) :
    s.Yields (stack ++ [i]) (t.ids ++ ids) := by
  induction t using Tree.induct generalizing i stack ids with
  | leaf p =>
    obtain ⟨rfl, hn, hnone⟩ := unfolds_leaf.mp ht
    have hstep := advance_append hn stack
    rw [hnone, Option.getD_none, List.reverse_nil, List.append_nil] at hstep
    simpa [Tree.ids] using h.step hstep
  | node p ts ih =>
    obtain ⟨rfl, hn, hids, hts⟩ := unfolds_node.mp ht
    have hstep := advance_append hn stack
    rw [hids, Option.getD_some] at hstep
    rw [Tree.ids_node]
    exact .step hstep (yields_append_reverse (fun t ht _ _ => ih t ht (hts t ht)) h)

/-! ### Visits of a rebuilding -/

/-- The call is about a copy of the node. -/
def Call.Copies {σ : Type} (call : Call σ) (n : Node) : Prop :=
  ∃ children, call.store.node? call.id = some { n.toContent with children }

/-- The visitor is called for copies of the nodes of `ps`, in this order, while a store is
rebuilt, unless it fails for one of them. -/
def Visitor.Meets {σ : Type} (f : Visitor σ) (s : Store) (ps : List (NodeId × Node)) : Prop :=
  ∀ state, (∃ e, s.rebuild f state = .error e ∧
      f.Stops (ps.map fun p => p.2.toContent) state ⟨#[]⟩ e) ∨
    ∃ calls next left root,
      s.rebuild f.logged (state, []) = .ok ((next, calls), left, root) ∧
      List.Forall₂ (fun call p => call.Copies p.2) calls ps

theorem forall₂_copies {σ : Type} {f : Visitor σ} {trace : Tree (Content × Call σ)}
    (hsees : Tree.Everywhere (Sees f) trace)
    (hcontents : trace.map Prod.fst = t.map fun p => p.2.toContent) :
    List.Forall₂ (fun call p => Call.Copies call p.2) (trace.postorder.map Prod.snd)
      t.postorder := by
  have hcopies : ∀ x ∈ trace.postorder, ∃ children, x.2.store.node? x.2.id =
      some { x.1 with children } := by
    intro x hx
    rw [trace.perm_postorder.mem_iff, ← Tree.map_label_subtrees] at hx
    obtain ⟨v, hv, rfl⟩ := List.mem_map.mp hx
    exact ⟨_, (hsees v hv).copy⟩
  have hlists := congrArg Tree.postorder hcontents
  rw [Tree.postorder_map, Tree.postorder_map, ← List.forall₂_eq_eq_eq, List.forall₂_map_left_iff,
    List.forall₂_map_right_iff] at hlists
  rw [List.forall₂_map_left_iff]
  refine ((List.forall₂_and_left _ _).mpr ⟨hcopies, hlists⟩).imp ?_
  rintro x p ⟨⟨children, hcopy⟩, hcontent⟩
  exact ⟨children, by rw [hcopy, hcontent]⟩

theorem meets_postorder {σ : Type} {f : Visitor σ} (hf : f.Honest) (h : s.unfold = .ok t) :
    f.Meets s t.postorder := by
  intro state
  have hdoc : s.toDoc = .ok (t.map fun p => p.2.toContent) := by rw [toDoc, h]; rfl
  rw [← Tree.postorder_map, rebuild_of_toDoc hdoc, rebuild_of_toDoc hdoc]
  rcases rebuilds hf (t.map fun p => p.2.toContent) state ⟨#[]⟩ [] with
    hstops | ⟨trace, next, left, htrace, -, hlog⟩
  · exact .inl hstops
  · refine .inr ⟨_, next, left, _, hlog, ?_⟩
    rw [List.nil_append]
    exact forall₂_copies (htrace.sees trace List.mem_cons_self) (by simpa using htrace.contents)

/-! ### All ways follow the tree -/

/-- Whatever goes over the nodes below the root goes over the nodes of this tree: walks, checks and
annotations in pre-order, and a rebuilding in post-order. -/
structure Traverses (s : Store) (t : Tree (NodeId × Node)) : Prop where
  unfolds : ∀ u, s.Unfolds 0 u ↔ u = t
  /-- The walk from the root ends, and it can only end so. -/
  yields : ∀ ids, s.Yields [0] ids ↔ ids = t.ids
  dfs : s.dfs = .ok t.ids
  walk : ∀ (σ : Type) (visitor : σ → NodeId → Except Error σ) state,
    s.walk visitor state = t.ids.foldlM visitor state
  checkSpans : ∀ src, s.checkSpans src =
    t.preorder.forM fun p => p.2.spans.forM fun span => (src.slice span).map fun _ => ()
  annotate : ∀ f, s.annotate f = t.ids.foldlM (annotateAt f) s
  rebuild : ∀ (σ : Type) (f : Visitor σ), f.Honest → f.Meets s t.postorder
  /-- Both orders list the same nodes equally often. -/
  occurrences : t.postorder.Perm t.preorder

theorem traverses_of_unfold (h : s.unfold = .ok t) : s.Traverses t := by
  have hunfolds : s.Unfolds 0 t := unfolds_of_unfoldFrom h
  have hend : s.Yields [] [] := .done rfl
  have hyields : s.Yields [0] t.ids := by simpa using hunfolds.yields hend
  have hdfs : s.dfs = .ok t.ids := dfs_of_unfold h
  have hdoc : s.toDoc = .ok (t.map fun p => p.2.toContent) := by rw [toDoc, h]; rfl
  refine ⟨?_, ?_, hdfs, ?_, ?_, ?_, ?_, t.perm_postorder⟩
  · exact fun u => ⟨hunfolds.unique, fun hu => hu ▸ hunfolds⟩
  · exact fun ids => ⟨hyields.unique, fun hids => hids ▸ hyields⟩
  · intro σ visitor state
    rw [Store.walk, hdfs]
    rfl
  · intro src
    rw [checkSpans_of_toDoc hdoc, Tree.preorder_map]
    exact List.forM_map
  · intro f
    rw [annotate_eq, hdfs]
    rfl
  · exact fun σ f hf => meets_postorder hf h

/-- In a store whose child lists are all there and run in no circle, the walk over the nodes below
the root comes to an end after the pre-order of the unfolded tree, and everything that goes over
the nodes goes over the nodes of this tree. -/
theorem walk_follows_unfolding (s : Store) (h : s.Rooted) : ∃ t, s.Traverses t := by
  obtain ⟨t, ht⟩ := exists_unfold_iff_rooted.mpr h
  exact ⟨t, traverses_of_unfold ht⟩

/-- An element that is listed twice is met twice, with what stands below it, in both orders. -/
theorem walk_follows_unfolding_tangledStore :
    tangledStore.Rooted ∧ ∃ t, tangledStore.Traverses t ∧ t.ids = [0, 3, 1, 3, 1] ∧
      t.postorder.map Prod.fst = [1, 3, 1, 3, 0] ∧ tangledStore.Yields [0] [0, 3, 1, 3, 1] := by
  obtain ⟨u, hu, hids, hpostorder⟩ : ∃ u, tangledStore.unfold = .ok u ∧
      u.ids = [0, 3, 1, 3, 1] ∧ u.postorder.map Prod.fst = [1, 3, 1, 3, 0] :=
    ⟨_, rfl, by decide, by decide⟩
  have hrooted := exists_unfold_iff_rooted.mp ⟨u, hu⟩
  obtain ⟨t, ht⟩ := walk_follows_unfolding tangledStore hrooted
  obtain rfl := (ht.unfolds u).mp (unfolds_of_unfoldFrom hu)
  exact ⟨hrooted, u, ht, hids, hpostorder, (ht.yields _).mpr hids.symm⟩

end Store

end Markup
