import Markup.Proofs.Copying
import Markup.Proofs.Independence
import Markup.Proofs.WellFormed

/-! Rebuilding with a visitor. The visitor is called once for each node of the document, children
before parents, and each time it sees a fresh copy of the node. What it makes of the copies is up to
it: if a tree stands at the number that it returns for the root, that tree is the result. -/
namespace Markup

theorem Tree.perm_postorder {α : Type} (t : Tree α) : t.postorder.Perm t.preorder := by
  induction t using induct with
  | leaf a => simp
  | node a ts ih =>
    rw [postorder_node, preorder_node]
    exact (List.perm_append_singleton a _).trans ((List.Perm.flatMap_left ts ih).cons a)

theorem Tree.postorder_map {α β : Type} (f : α → β) (t : Tree α) :
    (t.map f).postorder = t.postorder.map f := by
  induction t using induct with
  | leaf a => simp
  | node a ts ih =>
    have hts : (ts.map (map f)).flatMap postorder = (ts.flatMap postorder).map f := by
      rw [List.flatMap_map, List.map_flatMap]
      exact List.flatMap_congr ih
    simp [hts]

namespace Store

variable {σ : Type} {s s' out left : Store} {c : Content} {state next : σ}

/-- `s` is `out` with the node `n` added to it. -/
structure Adds (out s : Store) (n : Node) : Prop where
  size : s.size = out.size + 1
  copy : s.node? out.size = some n
  retained : out.Retained s

theorem adds_alloc (out : Store) (n : Node) : Adds out (out.alloc n).1 n where
  size := size_alloc out n
  copy := node?_alloc_self out n
  retained := by
    refine ⟨by rw [size_alloc]; exact Nat.le_succ _, ?_⟩
    exact fun i m hm => ⟨m, node?_alloc_of_some hm, rfl, rfl⟩

section Link

variable {parent : NodeId} {prev : Option NodeId} {ids : List NodeId}

theorem Adds.setChildren (h : Adds out s { c with children := some [] })
    (hids : ∀ id ∈ ids, id < out.size) :
    ∃ s', s.setChildren out.size ids = .ok s' ∧ Adds out s' { c with children := some ids } := by
  have hnotMem : out.size ∉ ids := fun hmem => Nat.lt_irrefl _ (hids _ hmem)
  refine ⟨_, setChildren_eq_ok (fun id hid => Nat.lt_of_lt_of_le (hids id hid) h.retained.size)
    (lt_size_of_node? h.copy), ?_, ?_, ?_⟩
  · rw [size_relist, h.size]
  · rw [node?_relist_self hnotMem, h.copy]
    rfl
  · have hlinked : out.Retained (linkFrom out.size none ids s) := h.retained.trans retained_linkFrom
    refine ⟨by rw [relist, size_adjust]; exact hlinked.size, ?_⟩
    intro i n hn
    rw [relist, node?_adjust_of_ne _ (Ne.symm (Nat.ne_of_lt (lt_size_of_node? hn)))]
    exact hlinked.nodes i n hn

end Link

/-- A visitor that answers keeps all nodes and returns the number of a node. -/
def Visitor.Honest (f : Visitor σ) : Prop :=
  ∀ state s id next left result, id < s.size → f state s id = .ok (next, left, result) →
    s.size ≤ left.size ∧ result < left.size

theorem Visitor.Honest.of_adds {f : Visitor σ} {n : Node} {result : NodeId} (hf : f.Honest)
    (hadds : Adds out s n) (hcall : f state s out.size = .ok (next, left, result)) :
    out.size ≤ left.size ∧ result < left.size := by
  have hlt : out.size < s.size := by rw [hadds.size]; exact Nat.lt_succ_self _
  obtain ⟨hsize, hresult⟩ := hf _ _ _ _ _ _ hlt hcall
  exact ⟨hlt.le.trans hsize, hresult⟩

def Visitor.keep : Visitor σ := fun state s id => .ok (state, s, id)

/-- A call of a visitor, with its answer. -/
structure Call (σ : Type) where
  state : σ
  store : Store
  id : NodeId
  next : σ
  left : Store
  result : NodeId

def Visitor.Answers (f : Visitor σ) (call : Call σ) : Prop :=
  f call.state call.store call.id = .ok (call.next, call.left, call.result)

def Visitor.logged (f : Visitor σ) : Visitor (σ × List (Call σ)) := fun (state, log) store id => do
  let (next, left, result) ← f state store id
  return ((next, log ++ [⟨state, store, id, next, left, result⟩]), left, result)

theorem logged_eq_ok {f : Visitor σ} {log : List (Call σ)} {id result : NodeId}
    (h : f state s id = .ok (next, left, result)) : f.logged (state, log) s id =
      .ok ((next, log ++ [⟨state, s, id, next, left, result⟩]), left, result) := by
  simp only [Visitor.logged, h, bind, Except.bind, pure, Except.pure]

/-- Calls one after another. Each gets the state that the last one returned and the store that it
left, with one node added to it: the copy that the call is about. -/
inductive Threads : σ → Store → List (Call σ) → σ → Store → Prop where
  | nil {state : σ} {out : Store} : Threads state out [] state out
  | cons {out left : Store} {next : σ} {call : Call σ} {calls : List (Call σ)} {n : Node}
      (id : call.id = out.size) (adds : Adds out call.store n)
      (tail : Threads call.next call.left calls next left) :
      Threads call.state out (call :: calls) next left

theorem Threads.single (call : Call σ) {n : Node} (id : call.id = out.size)
    (adds : Adds out call.store n) : Threads call.state out [call] call.next call.left :=
  .cons id adds .nil

theorem Threads.append {mid : σ} {between : Store} {xs ys : List (Call σ)}
    (h : Threads state out xs mid between) (h' : Threads mid between ys next left) :
    Threads state out (xs ++ ys) next left := by
  induction h with
  | nil => exact h'
  | cons id adds _ ih => exact .cons id adds (ih h')

/-- The visitor is called for the first of some nodes in turn, and then it fails for the copy of the
next one. -/
def Visitor.Stops (f : Visitor σ) (nodes : List Content) (state : σ) (out : Store) (e : Error) :
    Prop :=
  ∃ calls mid between s n, Threads state out calls mid between ∧ (∀ call ∈ calls, f.Answers call) ∧
    nodes[calls.length]? = some n.toContent ∧ Adds between s n ∧ f mid s between.size = .error e

section Stops

variable {f : Visitor σ} {xs ys : List Content} {e : Error}

theorem Visitor.Stops.append_right (h : f.Stops xs state out e) (ys : List Content) :
    f.Stops (xs ++ ys) state out e := by
  obtain ⟨calls, mid, between, s, n, hthreads, hanswers, hn, hadds, herror⟩ := h
  refine ⟨calls, mid, between, s, n, hthreads, hanswers, ?_, hadds, herror⟩
  rw [List.getElem?_append_left (List.getElem?_eq_some_iff.mp hn).1, hn]

theorem Visitor.Stops.after {calls : List (Call σ)} {mid : σ} {between : Store}
    (h : f.Stops ys mid between e) (hthreads : Threads state out calls mid between)
    (hanswers : ∀ call ∈ calls, f.Answers call) (hlength : calls.length = xs.length) :
    f.Stops (xs ++ ys) state out e := by
  obtain ⟨calls', mid', between', s, n, hthreads', hanswers', hn, hadds, herror⟩ := h
  refine ⟨calls ++ calls', mid', between', s, n, hthreads.append hthreads', ?_, ?_, hadds, herror⟩
  · intro call hcall
    exact (List.mem_append.mp hcall).elim (hanswers call) (hanswers' call)
  · rw [List.length_append, hlength, List.getElem?_append_right (Nat.le_add_right _ _),
      Nat.add_sub_cancel_left, hn]

end Stops

/-- The visitor was called with a fresh copy of the node. The copy has no links, and its child list
is what was returned for the children of the node. -/
structure Sees (f : Visitor σ) (u : Tree (Content × Call σ)) : Prop where
  answered : f.Answers u.label.2
  copy : u.label.2.store.node? u.label.2.id = some { u.label.1 with
    children := u.children?.map (List.map fun v => v.label.2.result) }

/-- The calls that are made while documents are rebuilt, one for each node. -/
structure Recorded (f : Visitor σ) (ts : List Doc) (state : σ) (out : Store)
    (us : List (Tree (Content × Call σ))) (next : σ) (left : Store) : Prop where
  contents : us.map (Tree.map Prod.fst) = ts
  sees : ∀ u ∈ us, Tree.Everywhere (Sees f) u
  threads : Threads state out ((us.flatMap Tree.postorder).map Prod.snd) next left
  size : out.size ≤ left.size
  results : ∀ u ∈ us, u.label.2.result < left.size

section Rebuild

variable {f : Visitor σ} {mid : σ} {between : Store} {t : Doc} {ts : List Doc}
  {u : Tree (Content × Call σ)} {us : List (Tree (Content × Call σ))} {log : List (Call σ)}

theorem Recorded.nil : Recorded f [] state out [] state out where
  contents := rfl
  sees := by simp
  threads := .nil
  size := Nat.le_refl _
  results := by simp

theorem Recorded.cons (h : Recorded f [t] state out [u] mid between)
    (h' : Recorded f ts mid between us next left) :
    Recorded f (t :: ts) state out (u :: us) next left where
  contents := by
    have hhead := h.contents
    rw [List.map_singleton, List.singleton_inj] at hhead
    rw [List.map_cons, hhead, h'.contents]
  sees := List.forall_mem_cons.mpr ⟨h.sees u List.mem_cons_self, h'.sees⟩
  threads := by
    have hthreads := h.threads.append h'.threads
    rwa [← List.map_append, ← List.flatMap_append] at hthreads
  size := h.size.trans h'.size
  results := by
    have hhead := Nat.lt_of_lt_of_le (h.results u List.mem_cons_self) h'.size
    exact List.forall_mem_cons.mpr ⟨hhead, h'.results⟩

/-- A call with a copy whose children are rebuilt already. -/
theorem Recorded.node {result : NodeId} (hf : f.Honest) (h : Recorded f ts state out us mid between)
    (hadds : Adds between s { c with children := some (us.map fun u => u.label.2.result) })
    (hcall : f mid s between.size = .ok (next, left, result)) :
    Recorded f [.node c ts] state out
      [.node (c, ⟨mid, s, between.size, next, left, result⟩) us] next left := by
  obtain ⟨hsize, hresult⟩ := hf.of_adds hadds hcall
  refine ⟨?_, ?_, ?_, h.size.trans hsize, by simpa using hresult⟩
  · rw [List.map_singleton, Tree.map_node, h.contents]
  · rw [List.forall_mem_singleton, Tree.everywhere_node]
    exact ⟨⟨hcall, hadds.copy⟩, h.sees⟩
  · rw [List.flatMap_singleton, Tree.postorder_node, List.map_append]
    exact h.threads.append (.single ⟨mid, s, between.size, next, left, result⟩ rfl hadds)

theorem recorded_leaf {result : NodeId} (hf : f.Honest) (hadds : Adds out s { c with })
    (hcall : f state s out.size = .ok (next, left, result)) :
    Recorded f [.leaf c] state out [.leaf (c, ⟨state, s, out.size, next, left, result⟩)]
      next left := by
  obtain ⟨hsize, hresult⟩ := hf.of_adds hadds hcall
  refine ⟨?_, ?_, ?_, hsize, by simpa using hresult⟩
  · rw [List.map_singleton, Tree.map_leaf]
  · rw [List.forall_mem_singleton, Tree.everywhere_leaf]
    exact ⟨hcall, hadds.copy⟩
  · rw [List.flatMap_singleton, Tree.postorder_leaf]
    exact .single ⟨state, s, out.size, next, left, result⟩ rfl hadds

theorem Recorded.answers (h : Recorded f ts state out us next left) :
    ∀ call ∈ (us.flatMap Tree.postorder).map Prod.snd, f.Answers call := by
  rw [List.forall_mem_map]
  intro p hp
  obtain ⟨u, hu, hpu⟩ := List.mem_flatMap.mp hp
  rw [u.perm_postorder.mem_iff, ← Tree.map_label_subtrees] at hpu
  obtain ⟨v, hv, rfl⟩ := List.mem_map.mp hpu
  exact (h.sees u hu v hv).answered

theorem Recorded.length_eq (h : Recorded f ts state out us next left) :
    ((us.flatMap Tree.postorder).map Prod.snd).length = (ts.flatMap Tree.postorder).length := by
  have hpostorder : ts.flatMap Tree.postorder = (us.flatMap Tree.postorder).map Prod.fst := by
    rw [← h.contents, List.flatMap_map, List.map_flatMap]
    exact List.flatMap_congr fun u _ => Tree.postorder_map _ u
  rw [hpostorder, List.length_map, List.length_map]

/-- Rebuilding a document fails as the visitor does, or it makes one call for each node. -/
def Rebuilds (f : Visitor σ) (t : Doc) : Prop :=
  ∀ state out log, (∃ e, rebuildDoc f t state out = .error e ∧ f.Stops t.postorder state out e) ∨
    ∃ u next left, Recorded f [t] state out [u] next left ∧
      rebuildDoc f t state out = .ok (next, left, u.label.2.result) ∧
      rebuildDoc f.logged t (state, log) out =
        .ok ((next, log ++ u.postorder.map Prod.snd), left, u.label.2.result)

theorem rebuildAll_cases (hts : ∀ t ∈ ts, Rebuilds f t) (state : σ) (out : Store)
    (log : List (Call σ)) :
    (∃ e, rebuildDocs f ts state out = .error e ∧
        f.Stops (ts.flatMap Tree.postorder) state out e) ∨
      ∃ us next left, Recorded f ts state out us next left ∧
        rebuildDocs f ts state out = .ok (next, left, us.map fun u => u.label.2.result) ∧
        rebuildDocs f.logged ts (state, log) out =
          .ok ((next, log ++ (us.flatMap Tree.postorder).map Prod.snd), left,
            us.map fun u => u.label.2.result) := by
  induction ts generalizing state out log with
  | nil => exact .inr ⟨[], state, out, .nil, by rw [rebuildDocs]; rfl, by simp [rebuildDocs]⟩
  | cons t ts ih =>
    rw [List.forall_mem_cons] at hts
    rw [List.flatMap_cons]
    rcases hts.1 state out log with ⟨e, he, hstops⟩ | ⟨u, mid, between, hu, hrun, hlog⟩
    · exact .inl ⟨e, by simp only [rebuildDocs, he, bind, Except.bind], hstops.append_right _⟩
    · rcases ih hts.2 mid between (log ++ u.postorder.map Prod.snd) with
        ⟨e, he, hstops⟩ | ⟨us, next, left, hus, hruns, hlogs⟩
      · have hlength := hu.length_eq
        rw [List.flatMap_singleton Tree.postorder t] at hlength
        refine .inl ⟨e, by simp only [rebuildDocs, hrun, he, bind, Except.bind], ?_⟩
        exact hstops.after hu.threads hu.answers hlength
      · refine .inr ⟨u :: us, next, left, hu.cons hus, ?_, ?_⟩
        · simp only [rebuildDocs, hrun, hruns, bind, Except.bind, pure, Except.pure, List.map_cons]
        · simp only [rebuildDocs, hlog, hlogs, bind, Except.bind, pure, Except.pure, List.map_cons,
            List.flatMap_cons, List.map_append, List.append_assoc]

theorem rebuilds (hf : f.Honest) (t : Doc) : Rebuilds f t := by
  induction t using Tree.induct with
  | leaf c =>
    intro state out log
    have hadds := adds_alloc out { c with }
    cases hcall : f state (out.alloc { c with }).1 out.size with
    | error e =>
      refine .inl ⟨e, by rw [rebuildDoc]; exact hcall, ?_⟩
      exact ⟨[], state, out, _, _, .nil, by simp, by simp, hadds, hcall⟩
    | ok r =>
      obtain ⟨next, left, result⟩ := r
      refine .inr ⟨_, next, left, recorded_leaf hf hadds hcall, by rw [rebuildDoc]; exact hcall, ?_⟩
      rw [rebuildDoc, Tree.postorder_leaf]
      exact logged_eq_ok hcall
  | node c ts ih =>
    intro state out log
    rcases rebuildAll_cases ih state out log with
      ⟨e, he, hstops⟩ | ⟨us, mid, between, hus, hrun, hlog⟩
    · rw [Tree.postorder_node]
      exact .inl ⟨e, by simp only [rebuildDoc, he, bind, Except.bind], hstops.append_right [c]⟩
    · have hids : ∀ id ∈ us.map fun u => u.label.2.result, id < between.size :=
        List.forall_mem_map.mpr hus.results
      obtain ⟨s, hs, hadds⟩ := (adds_alloc between { c with children := some [] }).setChildren hids
      have hnode : ∀ {τ : Type} {g : Visitor τ} {start mid' : τ},
          rebuildDocs g ts start out = .ok (mid', between, us.map fun u => u.label.2.result) →
            rebuildDoc g (.node c ts) start out = g mid' s between.size := by
        intro τ g start mid' hall
        simp only [rebuildDoc, hall, alloc_snd, hs, bind, Except.bind]
      cases hcall : f mid s between.size with
      | error e =>
        have hstops : f.Stops [c] mid between e :=
          ⟨[], mid, between, s, _, .nil, by simp, rfl, hadds, hcall⟩
        refine .inl ⟨e, (hnode hrun).trans hcall, ?_⟩
        rw [Tree.postorder_node]
        exact hstops.after hus.threads hus.answers hus.length_eq
      | ok r =>
        obtain ⟨next, left, result⟩ := r
        refine .inr ⟨_, next, left, hus.node hf hadds hcall, (hnode hrun).trans hcall, ?_⟩
        rw [hnode hlog, logged_eq_ok hcall, Tree.postorder_node, List.map_append,
          ← List.append_assoc]
        rfl

end Rebuild

section Keep

variable {u : Tree (Content × Call σ)} {calls : List (Call σ)}

theorem honest_keep : (Visitor.keep : Visitor σ).Honest := by
  intro state s id next left result hid h
  simp only [Visitor.keep, Except.ok.injEq, Prod.mk.injEq] at h
  obtain ⟨-, rfl, rfl⟩ := h
  exact ⟨Nat.le_refl _, hid⟩

theorem not_stops_keep {nodes : List Content} {e : Error} :
    ¬ Visitor.keep.Stops nodes state out e := by
  rintro ⟨calls, mid, between, s, n, -, -, -, -, h⟩
  simp [Visitor.keep] at h

/-- The call was answered with what it came with. -/
def Call.Kept (call : Call σ) : Prop :=
  call.next = call.state ∧ call.left = call.store ∧ call.result = call.id

theorem Sees.kept (h : Sees Visitor.keep u) : u.label.2.Kept := by
  have hanswered := h.answered
  simp only [Visitor.Answers, Visitor.keep, Except.ok.injEq, Prod.mk.injEq] at hanswered
  exact ⟨hanswered.1.symm, hanswered.2.1.symm, hanswered.2.2.symm⟩

/-- If all calls leave their copies alone, all copies are there in the end, numbered in the order of
the calls. -/
theorem Threads.of_kept (h : Threads state out calls next left)
    (hkept : ∀ call ∈ calls, call.Kept) :
    next = state ∧ calls.map Call.id = List.range' out.size calls.length ∧ out.Retained left ∧
      ∀ call ∈ calls, call.store.Retained left := by
  induction h with
  | nil => exact ⟨rfl, rfl, .refl _, by simp⟩
  | @cons out left next call calls n hid hadds _ ih =>
    rw [List.forall_mem_cons] at hkept
    obtain ⟨⟨hstate, hstore, -⟩, hkept⟩ := hkept
    obtain ⟨hnext, hids, hretained, hall⟩ := ih hkept
    rw [hstore] at hids hretained
    refine ⟨hnext.trans hstate, ?_, hadds.retained.trans hretained, ?_⟩
    · rw [List.map_cons, hids, hid, hadds.size, List.length_cons, List.range'_succ]
    · exact List.forall_mem_cons.mpr ⟨hretained, hall⟩

/-- Copies that nothing has changed form the document again. -/
theorem bears_of_kept (hsees : Tree.Everywhere (Sees Visitor.keep) u)
    (hretained : ∀ p ∈ u.preorder, p.2.store.Retained left) :
    left.Bears (u.map fun p => (p.2.id, p.1)) := by
  induction u using Tree.induct with
  | leaf p =>
    have hself := hsees.self
    rw [Tree.preorder_leaf, List.forall_mem_singleton] at hretained
    obtain ⟨m, hm, hcontent, hchildren⟩ := hretained.nodes _ _ hself.copy
    exact bears_leaf.mpr ⟨m, hm, hcontent, hchildren⟩
  | node p us ih =>
    obtain ⟨hself, hus⟩ := Tree.everywhere_node.mp hsees
    rw [Tree.preorder_node, List.forall_mem_cons] at hretained
    obtain ⟨m, hm, hcontent, hchildren⟩ := hretained.1.nodes _ _ hself.copy
    rw [Tree.map_node, bears_node, List.forall_mem_map]
    refine ⟨⟨m, hm, hcontent, ?_⟩, ?_⟩
    · rw [hchildren, List.map_map]
      refine congrArg some (List.map_congr_left fun v hv => ?_)
      rw [Function.comp_apply, Tree.label_map]
      exact (hus v hv).self.kept.2.2
    · exact fun v hv => ih v hv (hus v hv) fun p hp =>
        hretained.2 p (List.mem_flatMap.mpr ⟨v, hv, hp⟩)

end Keep

theorem map_keep {d : Doc} (hd : s.toDoc = .ok d) (state : σ) :
    s.map Visitor.keep state = .ok (state, ofDoc d) := by
  rcases rebuilds honest_keep d state ⟨#[]⟩ [] with ⟨e, -, hstops⟩ | ⟨u, next, left, hu, hrun, -⟩
  · exact absurd hstops not_stops_keep
  · have hcontents : u.map Prod.fst = d := by simpa using hu.contents
    have hsees := hu.sees u List.mem_cons_self
    have hthreads := hu.threads
    rw [List.flatMap_singleton] at hthreads
    have hkept : ∀ p ∈ u.preorder, p.2.Kept := by
      rw [← Tree.map_label_subtrees, List.forall_mem_map]
      exact fun v hv => (hsees v hv).kept
    have hmem : ∀ {p}, p ∈ u.postorder ↔ p ∈ u.preorder := u.perm_postorder.mem_iff
    obtain ⟨rfl, hids, -, hretained⟩ := hthreads.of_kept
      (List.forall_mem_map.mpr fun p hp => hkept p (hmem.mp hp))
    have hbears : left.Bears (u.map fun p => (p.2.id, p.1)) :=
      bears_of_kept hsees fun p hp => hretained p.2 (List.mem_map_of_mem (hmem.mpr hp))
    have hnodup : (u.map fun p => (p.2.id, p.1)).ids.Nodup := by
      rw [List.map_map] at hids
      have hperm := u.perm_postorder.map (Call.id ∘ Prod.snd)
      rw [hids] at hperm
      rw [Tree.ids, Tree.preorder_map, List.map_map]
      exact hperm.nodup_iff.mp List.nodup_range'
    have hharvest := hbears.harvest hnodup
    rw [Tree.label_map, ← hsees.self.kept.2.2, Tree.map_map] at hharvest
    rw [map_of_rebuild ((rebuild_of_toDoc hd _ _).trans hrun), hharvest, ← hcontents]
    rfl

/-- A run of a visitor over the document `d` of a store. -/
structure Visits (f : Visitor σ) (s : Store) (d : Doc) (state : σ) (trace : Tree (Content × Call σ))
    (next : σ) (left : Store) : Prop where
  /-- There is one call for each node of the document. -/
  contents : trace.map Prod.fst = d
  sees : Tree.Everywhere (Sees f) trace
  /-- The calls are made in post-order. -/
  threads : Threads state ⟨#[]⟩ (trace.postorder.map Prod.snd) next left
  /-- No other calls are made. -/
  logged : s.rebuild f.logged (state, []) =
    .ok ((next, trace.postorder.map Prod.snd), left, trace.label.2.result)
  /-- A tree that stands at the number returned for the root is the result. -/
  result : left.Planted trace.label.2.result → ∃ part out, left.Bears part ∧
    part.label.1 = trace.label.2.result ∧ s.map f state = .ok (next, out) ∧
    out.toDoc = .ok (part.map Prod.snd) ∧ out.LaidOut

/-- Rebuilding calls an honest visitor once for each node of the document, children before parents,
and returns the tree that then stands at the root, if there is one. It stops early only if the
visitor fails. The visitor that leaves every copy as it is gives back the document, laid out in
order. -/
theorem map_visits_each_node_once (f : Visitor σ) (hf : f.Honest) (s : Store) (h : s.Rooted)
    (state : σ) :
    (∃ d, s.toDoc = .ok d ∧
      ((∃ e, s.map f state = .error e ∧ f.Stops d.postorder state ⟨#[]⟩ e) ∨
        ∃ trace next left, Visits f s d state trace next left)) ∧
      ∃ out, s.map Visitor.keep state = .ok (state, out) ∧ s.diff out = .ok none ∧
        out.map Visitor.keep state = .ok (state, out) := by
  obtain ⟨d, hd⟩ := exists_toDoc_iff_rooted.mpr h
  constructor
  · refine ⟨d, hd, ?_⟩
    rcases rebuilds hf d state ⟨#[]⟩ [] with ⟨e, he, hstops⟩ | ⟨u, next, left, hu, hrun, hlog⟩
    · rw [← rebuild_of_toDoc hd] at he
      exact .inl ⟨e, by simp only [Store.map, he, bind, Except.bind], hstops⟩
    · have hcontents : u.map Prod.fst = d := by simpa using hu.contents
      rw [← rebuild_of_toDoc hd] at hrun hlog
      refine .inr ⟨u, next, left, hcontents, hu.sees u List.mem_cons_self, ?_, hlog, ?_⟩
      · simpa using hu.threads
      · intro hplanted
        obtain ⟨part, hbears, hroot, hnodup⟩ := hplanted.exists_bears
        refine ⟨part, ofDoc (part.map Prod.snd), hbears, hroot, ?_, toDoc_ofDoc _, laidOut_ofDoc _⟩
        rw [map_of_rebuild hrun, ← hroot, hbears.harvest hnodup]
        rfl
  · refine ⟨ofDoc d, map_keep hd state, ?_, map_keep (toDoc_ofDoc d) state⟩
    rw [diff_of_toDoc hd (toDoc_ofDoc d), (Tree.diff_eq_none_iff d d).mpr rfl]

/-- The visitor that counts its calls and leaves a stray comment behind at each of them. -/
def litter : Visitor Nat := fun count s id =>
  .ok (count + 1, (s.alloc (.ofContent { kind := .comment "seen" })).1, id)

theorem honest_litter : litter.Honest := by
  intro state s id next left result hid h
  simp only [litter, Except.ok.injEq, Prod.mk.injEq] at h
  obtain ⟨-, rfl, rfl⟩ := h
  rw [size_alloc]
  exact ⟨Nat.le_succ _, Nat.lt_succ_of_lt hid⟩

/-- An element that is listed twice is visited twice, and the comments are gone in the end. -/
theorem map_visits_each_node_once_tangledStore :
    litter.Honest ∧ tangledStore.Rooted ∧
      (∃ trace left, Visits litter tangledStore twinDoc 0 trace 5 left ∧
        left.Planted trace.label.2.result) ∧
      ∃ out, tangledStore.map Visitor.keep 0 = .ok (0, out) ∧ tangledStore.diff out = .ok none ∧
        out.map Visitor.keep 0 = .ok (0, out) := by
  have hdoc : tangledStore.toDoc = .ok twinDoc := rfl
  have hrooted := exists_toDoc_iff_rooted.mp ⟨_, hdoc⟩
  obtain ⟨⟨d, hd, hvisits⟩, hkeep⟩ := map_visits_each_node_once litter honest_litter tangledStore
    hrooted 0
  obtain rfl : twinDoc = d := Except.ok.inj (hdoc.symm.trans hd)
  refine ⟨honest_litter, hrooted, ?_, hkeep⟩
  rcases hvisits with ⟨e, -, calls, mid, between, s, n, -, -, -, -, herror⟩ | ⟨trace, next, left, h⟩
  · simp [litter] at herror
  · obtain ⟨log, store, t, hrun, hunfold, hnodup⟩ : ∃ log store t,
        tangledStore.rebuild litter.logged (0, []) = .ok ((5, log), store, 8) ∧
          store.unfoldFrom 3 8 = .ok t ∧ (t.preorder.map Prod.fst).Nodup :=
      ⟨_, _, _, rfl, rfl, by decide⟩
    have hsame := Except.ok.inj (h.logged.symm.trans hrun)
    simp only [Prod.mk.injEq] at hsame
    obtain ⟨⟨rfl, -⟩, rfl, hresult⟩ := hsame
    refine ⟨trace, left, h, ?_⟩
    rw [hresult]
    exact planted_of_unfoldFrom hunfold hnodup

end Store

end Markup
