import Markup.Proofs.Linking
import Markup.Proofs.Planting
import Markup.Store.Map

/-! Harvesting. Taking a tree out of a store spoils the nodes that are taken, so no other list may
name them. Where child lists form a tree, the whole tree is taken out as it stands. Moving nodes to
another store takes a document out in this way and lays it out there. -/
namespace Markup.Store

def harvestAll (h : NodeId → Store → Except Error (Doc × Store)) :
    List NodeId → Store → Except Error (List Doc × Store)
  | [], s => .ok ([], s)
  | id :: ids, s => do
    let (t, s) ← h id s
    let (ts, s) ← harvestAll h ids s
    return (t :: ts, s)

/-- Take the document below `id` out of the store, for documents of a height up to the first
argument. Of a node that was taken before only a bare root without a child list is left. -/
def harvestFrom : Nat → NodeId → Store → Except Error (Doc × Store)
  | 0, _, _ => .error .cyclic
  | height + 1, id, s => do
    let n ← s.node id
    let s := s.adjust id fun n => { n with kind := .root, children := none }
    match n.children with
    | none => return (.leaf n.toContent, s)
    | some ids =>
      let (ts, s) ← harvestAll (harvestFrom height) ids s
      return (.node n.toContent ts, s)

/-- The document below `id`. A path ends at the first node that it meets again. -/
def harvest (s : Store) (id : NodeId) : Except Error Doc :=
  (harvestFrom (s.size + 1) id s).map (·.1)

variable {s : Store} {t : Tree (NodeId × Content)} {ts : List (Tree (NodeId × Content))}
  {height : Nat}

theorem Bears.frame {s' : Store} (h : s.Bears t) (hs : ∀ i ∈ t.ids, s'.node? i = s.node? i) :
    s'.Bears t :=
  h.congr fun i hi n hn => ⟨n, (hs i hi).trans hn, rfl, rfl⟩

/-- A store whose nodes have all been taken up to now but for some. -/
def Spoiled (s s' : Store) (taken : Finset NodeId) : Prop := ∀ i, s'.node? i =
  if i ∈ taken then (s.node? i).map fun n => { n with kind := .root, children := none }
  else s.node? i

theorem spoiled_refl (s : Store) : s.Spoiled s ∅ := by simp [Spoiled]

theorem Spoiled.take {s' : Store} {taken : Finset NodeId} (h : s.Spoiled s' taken) (id : NodeId) :
    s.Spoiled (s'.adjust id fun n => { n with kind := .root, children := none })
      (insert id taken) := by
  intro i
  rw [node?_adjust, h i]
  by_cases hid : id = i
  · subst hid
    cases s.node? id <;> by_cases hmem : id ∈ taken <;> simp [hmem]
  · simp [hid, Ne.symm hid]

/-- How many nodes are left to be taken. -/
def left (s : Store) (taken : Finset NodeId) : Nat := (Finset.range s.size \ taken).card

theorem left_mono {taken taken' : Finset NodeId} (h : taken ⊆ taken') :
    s.left taken' ≤ s.left taken :=
  Finset.card_le_card (Finset.sdiff_subset_sdiff (Finset.Subset.refl _) h)

theorem left_insert_lt {taken : Finset NodeId} {id : NodeId} (hid : id < s.size) (h : id ∉ taken) :
    s.left (insert id taken) < s.left taken := by
  apply Finset.card_lt_card
  refine ⟨Finset.sdiff_subset_sdiff (Finset.Subset.refl _) (Finset.subset_insert _ _),
    fun hsub => ?_⟩
  have hmem := hsub (Finset.mem_sdiff.mpr ⟨Finset.mem_range.mpr hid, h⟩)
  exact (Finset.mem_sdiff.mp hmem).2 (Finset.mem_insert_self _ _)

section Prune

variable {taken taken' : Finset NodeId}

mutual
/-- What is taken of a tree if some nodes were taken before, and which nodes have been taken
then. -/
def prune : Tree (NodeId × Content) → Finset NodeId → Doc × Finset NodeId
  | .leaf p, taken =>
    if p.1 ∈ taken then (.leaf { p.2 with kind := .root }, taken) else (.leaf p.2, insert p.1 taken)
  | .node p ts, taken =>
    if p.1 ∈ taken then (.leaf { p.2 with kind := .root }, taken)
    else
      let below := pruneAll ts (insert p.1 taken)
      (.node p.2 below.1, below.2)
def pruneAll : List (Tree (NodeId × Content)) → Finset NodeId → List Doc × Finset NodeId
  | [], taken => ([], taken)
  | t :: ts, taken =>
    let first := prune t taken
    let rest := pruneAll ts first.2
    (first.1 :: rest.1, rest.2)
end

theorem prune_of_mem (h : t.label.1 ∈ taken) :
    prune t taken = (.leaf { t.label.2 with kind := .root }, taken) := by
  cases t with
  | leaf p => rw [prune, if_pos (show p.1 ∈ taken from h)]; rfl
  | node p ts => rw [prune, if_pos (show p.1 ∈ taken from h)]; rfl

theorem prune_leaf {p : NodeId × Content} (h : p.1 ∉ taken) :
    prune (.leaf p) taken = (.leaf p.2, insert p.1 taken) := by rw [prune, if_neg h]

theorem prune_node {p : NodeId × Content} (h : p.1 ∉ taken) : prune (.node p ts) taken =
    (.node p.2 (pruneAll ts (insert p.1 taken)).1, (pruneAll ts (insert p.1 taken)).2) := by
  rw [prune, if_neg h]

@[simp] theorem pruneAll_nil : pruneAll [] taken = ([], taken) := by rw [pruneAll]

@[simp] theorem pruneAll_cons : pruneAll (t :: ts) taken =
    ((prune t taken).1 :: (pruneAll ts (prune t taken).2).1,
      (pruneAll ts (prune t taken).2).2) := by
  rw [pruneAll]

/-- What is true of the nodes that are taken stays so if each node of the trees keeps it true. -/
theorem pruneAll_keeps {P : Finset NodeId → Prop}
    (hts : ∀ t ∈ ts, ∀ taken, P taken → P (prune t taken).2) (htaken : P taken) :
    P (pruneAll ts taken).2 := by
  induction ts generalizing taken with
  | nil => simpa using htaken
  | cons t ts ih =>
    rw [List.forall_mem_cons] at hts
    rw [pruneAll_cons]
    exact ih hts.2 (hts.1 taken htaken)

theorem prune_keeps {P : Finset NodeId → Prop}
    (h : ∀ i ∈ t.ids, ∀ taken, P taken → P (insert i taken)) (htaken : P taken) :
    P (prune t taken).2 := by
  induction t using Tree.induct generalizing taken with
  | leaf p =>
    by_cases hmem : p.1 ∈ taken
    · rwa [prune_of_mem hmem]
    · rw [prune_leaf hmem]
      exact h p.1 (by simp [Tree.ids]) taken htaken
  | node p ts ih =>
    by_cases hmem : p.1 ∈ taken
    · rwa [prune_of_mem hmem]
    · rw [Tree.ids_node, List.forall_mem_cons] at h
      rw [prune_node hmem]
      refine pruneAll_keeps (fun t ht taken => ih t ht fun i hi => ?_) (h.1 taken htaken)
      exact h.2 i (List.mem_flatMap.mpr ⟨t, ht, hi⟩)

theorem subset_prune (t : Tree (NodeId × Content)) (taken : Finset NodeId) :
    taken ⊆ (prune t taken).2 :=
  prune_keeps (P := (taken ⊆ ·)) (fun _ _ _ hsub => hsub.trans (Finset.subset_insert _ _))
    (Finset.Subset.refl _)

theorem subset_pruneAll (ts : List (Tree (NodeId × Content))) (taken : Finset NodeId) :
    taken ⊆ (pruneAll ts taken).2 :=
  pruneAll_keeps (P := (taken ⊆ ·)) (fun t _ taken' hsub => hsub.trans (subset_prune t taken'))
    (Finset.Subset.refl _)

theorem mem_prune {i : NodeId} (h : i ∈ (prune t taken).2) : i ∈ taken ∨ i ∈ t.ids := by
  refine prune_keeps (P := fun taken' => ∀ i ∈ taken', i ∈ taken ∨ i ∈ t.ids) ?_
    (fun _ => .inl) i h
  intro j hj taken' htaken' k hk
  rcases Finset.mem_insert.mp hk with rfl | hk
  · exact .inr hj
  · exact htaken' k hk

theorem root_mem_prune (t : Tree (NodeId × Content)) (taken : Finset NodeId) :
    t.label.1 ∈ (prune t taken).2 := by
  by_cases hmem : t.label.1 ∈ taken
  · exact subset_prune t taken hmem
  · cases t with
    | leaf p =>
      rw [Tree.label_leaf] at hmem
      rw [prune_leaf hmem]
      exact Finset.mem_insert_self _ _
    | node p ts =>
      rw [Tree.label_node] at hmem
      rw [prune_node hmem]
      exact subset_pruneAll ts _ (Finset.mem_insert_self _ _)

/-- It only matters which nodes of the tree were taken before. -/
theorem pruneAll_congr {S : NodeId → Prop}
    (hts : ∀ t ∈ ts, ∀ taken taken', (∀ i, S i → (i ∈ taken ↔ i ∈ taken')) →
      (prune t taken).1 = (prune t taken').1 ∧
        ∀ i, S i → (i ∈ (prune t taken).2 ↔ i ∈ (prune t taken').2))
    (h : ∀ i, S i → (i ∈ taken ↔ i ∈ taken')) :
    (pruneAll ts taken).1 = (pruneAll ts taken').1 ∧
      ∀ i, S i → (i ∈ (pruneAll ts taken).2 ↔ i ∈ (pruneAll ts taken').2) := by
  induction ts generalizing taken taken' with
  | nil => simpa using h
  | cons t ts ih =>
    rw [List.forall_mem_cons] at hts
    obtain ⟨hfirst, hnext⟩ := hts.1 taken taken' h
    obtain ⟨hrest, hlast⟩ := ih hts.2 hnext
    rw [pruneAll_cons, pruneAll_cons]
    exact ⟨by rw [hfirst, hrest], hlast⟩

theorem prune_congr {S : NodeId → Prop} (ht : ∀ i ∈ t.ids, S i)
    (h : ∀ i, S i → (i ∈ taken ↔ i ∈ taken')) : (prune t taken).1 = (prune t taken').1 ∧
      ∀ i, S i → (i ∈ (prune t taken).2 ↔ i ∈ (prune t taken').2) := by
  induction t using Tree.induct generalizing taken taken' with
  | leaf p =>
    have hp := h p.1 (ht p.1 (by simp [Tree.ids]))
    by_cases hmem : p.1 ∈ taken
    · rw [prune_of_mem hmem, prune_of_mem (hp.mp hmem)]
      exact ⟨rfl, h⟩
    · rw [prune_leaf hmem, prune_leaf (mt hp.mpr hmem)]
      exact ⟨rfl, fun i hi => by rw [Finset.mem_insert, Finset.mem_insert, h i hi]⟩
  | node p ts ih =>
    rw [Tree.ids_node, List.forall_mem_cons] at ht
    have hp := h p.1 ht.1
    by_cases hmem : p.1 ∈ taken
    · rw [prune_of_mem hmem, prune_of_mem (hp.mp hmem)]
      exact ⟨rfl, h⟩
    · have hinsert : ∀ i, S i → (i ∈ insert p.1 taken ↔ i ∈ insert p.1 taken') :=
        fun i hi => by rw [Finset.mem_insert, Finset.mem_insert, h i hi]
      have hbelow := pruneAll_congr (fun t hmem _ _ => ih t hmem fun i hi =>
        ht.2 i (List.mem_flatMap.mpr ⟨t, hmem, hi⟩)) hinsert
      rw [prune_node hmem, prune_node (mt hp.mpr hmem)]
      exact ⟨by rw [hbelow.1], hbelow.2⟩

/-- A tree in which no number comes twice is taken as it stands. -/
theorem prune_of_nodup (hnodup : t.ids.Nodup) (h : ∀ i ∈ t.ids, i ∉ taken) :
    (prune t taken).1 = t.map Prod.snd := by
  induction t using Tree.induct generalizing taken with
  | leaf p =>
    rw [prune_leaf (h p.1 (by simp [Tree.ids])), Tree.map_leaf]
  | node p ts ih =>
    rw [Tree.ids_node, List.nodup_cons] at hnodup
    rw [Tree.ids_node, List.forall_mem_cons] at h
    have hbelow : ∀ i ∈ ts.flatMap Tree.ids, i ∉ insert p.1 taken := by
      intro i hi hmem
      rcases Finset.mem_insert.mp hmem with rfl | hmem
      · exact hnodup.1 hi
      · exact h.2 i hi hmem
    have hall : (pruneAll ts (insert p.1 taken)).1 = ts.map (Tree.map Prod.snd) := by
      clear h
      generalize insert p.1 taken = taken' at hbelow
      obtain ⟨-, hnodup⟩ := hnodup
      induction ts generalizing taken' with
      | nil => simp
      | cons t ts ihts =>
        rw [List.flatMap_cons, List.nodup_append'] at hnodup
        rw [List.flatMap_cons] at hbelow
        have hfirst := ih t List.mem_cons_self hnodup.1 fun i hi =>
          hbelow i (List.mem_append_left _ hi)
        have hrest := ihts (fun u hu => ih u (List.mem_cons_of_mem _ hu)) _ (fun i hi hmem => by
          rcases mem_prune hmem with hmem | hmem
          · exact hbelow i (List.mem_append_right _ hi) hmem
          · exact hnodup.2.2 hmem hi) hnodup.2.1
        rw [pruneAll_cons, hfirst, hrest, List.map_cons]
    rw [prune_node h.1, hall, Tree.map_node]

/-- A harvest takes what is left of a tree that stands in the store. -/
def Harvests (s : Store) (height : Nat) (t : Tree (NodeId × Content)) : Prop :=
  ∀ s' taken, s.Spoiled s' taken → s.left taken < height →
    ∃ s'', harvestFrom height t.label.1 s' = .ok ((prune t taken).1, s'') ∧
      s.Spoiled s'' (prune t taken).2

theorem harvestAll_eq_ok (hts : ∀ t ∈ ts, s.Harvests height t) {s' : Store}
    (hs : s.Spoiled s' taken) (hheight : s.left taken < height) :
    ∃ s'', harvestAll (harvestFrom height) (ts.map fun t => t.label.1) s' =
        .ok ((pruneAll ts taken).1, s'') ∧ s.Spoiled s'' (pruneAll ts taken).2 := by
  induction ts generalizing s' taken with
  | nil => exact ⟨s', by simp [harvestAll], by simpa using hs⟩
  | cons t ts ih =>
    rw [List.forall_mem_cons] at hts
    obtain ⟨mid, hmid, hspoiled⟩ := hts.1 s' taken hs hheight
    obtain ⟨s'', hs'', hspoiled'⟩ :=
      ih hts.2 hspoiled (Nat.lt_of_le_of_lt (left_mono (subset_prune t taken)) hheight)
    rw [pruneAll_cons]
    refine ⟨s'', ?_, hspoiled'⟩
    simp only [List.map_cons, harvestAll, hmid, hs'', bind, Except.bind, pure, Except.pure]

theorem Bears.harvests (h : s.Bears t) (height : Nat) : s.Harvests height t := by
  induction t using Tree.induct generalizing height with
  | leaf p =>
    intro s' taken hs hheight
    obtain ⟨height, rfl⟩ : ∃ k, height = k + 1 := ⟨height - 1, by omega⟩
    obtain ⟨n, hn, hcontent, hnone⟩ := bears_leaf.mp h
    have hnode := hs p.1
    have htake := hs.take p.1
    by_cases hmem : p.1 ∈ taken
    · rw [if_pos hmem, hn] at hnode
      rw [Finset.insert_eq_self.mpr hmem] at htake
      refine ⟨_, ?_, by rw [prune_of_mem hmem]; exact htake⟩
      rw [prune_of_mem hmem]
      simp [harvestFrom, node_eq_ok hnode, ← hcontent, bind, Except.bind, pure, Except.pure]
    · rw [if_neg hmem, hn] at hnode
      refine ⟨_, ?_, by rw [prune_leaf hmem]; exact htake⟩
      rw [prune_leaf hmem]
      simp [harvestFrom, node_eq_ok hnode, hnone, hcontent, bind, Except.bind, pure, Except.pure]
  | node p ts ih =>
    intro s' taken hs hheight
    obtain ⟨height, rfl⟩ : ∃ k, height = k + 1 := ⟨height - 1, by omega⟩
    obtain ⟨⟨n, hn, hcontent, hids⟩, hts⟩ := bears_node.mp h
    have hnode := hs p.1
    have htake := hs.take p.1
    by_cases hmem : p.1 ∈ taken
    · rw [if_pos hmem, hn] at hnode
      rw [Finset.insert_eq_self.mpr hmem] at htake
      refine ⟨_, ?_, by rw [prune_of_mem hmem]; exact htake⟩
      rw [prune_of_mem hmem]
      simp [harvestFrom, node_eq_ok hnode, ← hcontent, bind, Except.bind, pure, Except.pure]
    · rw [if_neg hmem, hn] at hnode
      have hleft := left_insert_lt (lt_size_of_node? hn) hmem
      obtain ⟨s'', hs'', hspoiled⟩ :=
        harvestAll_eq_ok (fun t ht => ih t ht (hts t ht) height) htake (by omega)
      rw [prune_node hmem]
      refine ⟨s'', ?_, hspoiled⟩
      simp only [Tree.label_node, harvestFrom, node_eq_ok hnode, hids, hs'', hcontent, bind,
        Except.bind, pure, Except.pure]

theorem Bears.harvest_eq (h : s.Bears t) : s.harvest t.label.1 = .ok (prune t ∅).1 := by
  have hheight : s.left ∅ < s.size + 1 := by simp [left]
  obtain ⟨s', hs', -⟩ := h.harvests (s.size + 1) s ∅ (spoiled_refl s) hheight
  rw [Store.harvest, hs']
  rfl

theorem Bears.harvest (h : s.Bears t) (hnodup : t.ids.Nodup) :
    s.harvest t.label.1 = .ok (t.map Prod.snd) := by
  rw [h.harvest_eq, prune_of_nodup hnodup (by simp)]

end Prune

section Move

variable {s' : Store} {d : Doc} {ds : List Doc} {e : Error} {id : NodeId} {ids : List NodeId}

/-- A document is moved from `s` to the end of `out`: it is laid out there, and what `out` held
stays. -/
structure Moved (out out' : Store) (parent : Option NodeId) (d : Doc) : Prop where
  size : out'.size = out.size + d.size
  before : ∀ i < out.size, out'.node? i = out.node? i
  sits : out'.Sits parent none none out.size d

/-- What is moved is what is harvested, whatever it is moved to. -/
def MovesAs (height : Nat) : Prop :=
  ∀ (parent : Option NodeId) (id : NodeId) (s out : Store),
    (∃ e, harvestFrom height id s = .error e ∧ moveFrom height parent id s out = .error e) ∨
      ∃ d s' out', harvestFrom height id s = .ok (d, s') ∧
        moveFrom height parent id s out = .ok (s', out', out.size) ∧ Moved out out' parent d

theorem inTurn_moveFrom (h : MovesAs height) (parent : Option NodeId) (ids : List NodeId)
    (s out : Store) :
    (∃ e, harvestAll (harvestFrom height) ids s = .error e ∧
        inTurn (moveFrom height parent) ids s out = .error e) ∨
      ∃ ds s' out', harvestAll (harvestFrom height) ids s = .ok (ds, s') ∧
        inTurn (moveFrom height parent) ids s out = .ok (s', out', rootIds out.size ds) ∧
        out'.size = out.size + Tree.sizeAll ds ∧ (∀ i < out.size, out'.node? i = out.node? i) ∧
        out'.StandsAll out.size ds := by
  induction ids generalizing s out with
  | nil => exact .inr ⟨[], s, out, rfl, rfl, by simp, fun _ _ => rfl, trivial⟩
  | cons id ids ih =>
    rcases h parent id s out with ⟨e, he, hmove⟩ | ⟨d, mid, out₁, hd, hmove, hmoved⟩
    · exact .inl ⟨e, by simp only [harvestAll, he, bind, Except.bind],
        by simp only [inTurn, hmove, bind, Except.bind]⟩
    · rcases ih mid out₁ with ⟨e, he, hmoves⟩ | ⟨ds, s', out', hds, hmoves, hsize, hbefore, hstand⟩
      · exact .inl ⟨e, by simp only [harvestAll, hd, he, bind, Except.bind],
          by simp only [inTurn, hmove, hmoves, bind, Except.bind]⟩
      · refine .inr ⟨d :: ds, s', out', ?_, ?_, ?_, ?_, ?_⟩
        · simp only [harvestAll, hd, hds, bind, Except.bind, pure, Except.pure]
        · simp only [inTurn, hmove, hmoves, bind, Except.bind, pure, Except.pure, rootIds,
            hmoved.size]
        · rw [hsize, hmoved.size, Tree.sizeAll_cons, Nat.add_assoc]
        · intro i hi
          have hlt : i < out₁.size := by
            rw [hmoved.size]
            exact Nat.lt_add_right _ hi
          rw [hbefore i hlt, hmoved.before i hi]
        · refine ⟨⟨parent, none, none, hmoved.sits.frame fun i _ hlt => hbefore i ?_⟩, ?_⟩
          · rwa [hmoved.size]
          · rwa [← hmoved.size]

theorem movesAs (height : Nat) : MovesAs height := by
  induction height with
  | zero => exact fun _ _ _ _ => .inl ⟨_, rfl, rfl⟩
  | succ height ih =>
    intro parent id s out
    cases hn : s.node? id with
    | none =>
      refine .inl ⟨.missingNode id, ?_, ?_⟩ <;>
        simp [harvestFrom, moveFrom, node, hn, bind, Except.bind]
    | some n =>
      cases hids : n.children with
      | none =>
        refine .inr ⟨.leaf n.toContent,
          s.adjust id fun n => { n with kind := .root, children := none },
          (out.alloc { n.toContent with parent, children := none }).1, ?_, ?_, ?_,
          fun i hi => node?_alloc_of_lt hi _, sits_leaf.mpr (node?_alloc_self _ _)⟩
        · simp only [harvestFrom, node_eq_ok hn, hids, bind, Except.bind, pure, Except.pure]
        · simp only [moveFrom, node_eq_ok hn, hids, Option.map_none, alloc_snd, bind, Except.bind,
            pure, Except.pure]
        · rw [Tree.size_leaf, size_alloc]
      | some ids =>
        rcases inTurn_moveFrom ih (some out.size) ids
          (s.adjust id fun n => { n with kind := .root, children := none })
          (out.alloc { n.toContent with parent, children := some [] }).1 with
          ⟨e, he, hmove⟩ | ⟨ds, s', out', hds, hmove, hsize', hbefore', hstand⟩
        · refine .inl ⟨e, ?_, ?_⟩
          · simp only [harvestFrom, node_eq_ok hn, hids, he, bind, Except.bind]
          · simp only [moveFrom, node_eq_ok hn, hids, Option.map_some, alloc_snd, hmove, bind,
              Except.bind]
        · rw [size_alloc] at hmove hsize' hbefore' hstand
          have hroom : ∀ i ∈ rootIds (out.size + 1) ds, i < out'.size := by
            intro i hi
            rw [hsize']
            exact (mem_rootIds hi).2
          have hlt : out.size < out'.size := by rw [hsize']; omega
          refine .inr ⟨.node n.toContent ds, s', out'.relist out.size (rootIds (out.size + 1) ds),
            ?_, ?_, ?_, ?_, ?_⟩
          · simp only [harvestFrom, node_eq_ok hn, hids, hds, bind, Except.bind, pure, Except.pure]
          · simp only [moveFrom, node_eq_ok hn, hids, Option.map_some, alloc_snd, hmove,
              setChildren_eq_ok hroom hlt, bind, Except.bind, pure, Except.pure]
          · rw [size_relist, hsize', Tree.size_node]
            omega
          · intro i hi
            rw [node?_relist_of_notMem (Nat.ne_of_lt hi), hbefore' i (Nat.lt_succ_of_lt hi),
              node?_alloc_of_lt hi]
            intro hmem
            have := (mem_rootIds hmem).1
            exact absurd hi (by omega)
          · have hcopy := hbefore' out.size (Nat.lt_succ_self _)
            exact hstand.sits_relist (hcopy.trans (node?_alloc_self _ _))

/-- A store is compacted by harvesting what stands at a node and laying it out anew. -/
theorem compact_eq (s : Store) (root : NodeId) : s.compact root = (s.harvest root).map ofDoc := by
  rw [compact, harvest]
  rcases movesAs (s.size + 1) none root s ⟨#[]⟩ with ⟨e, he, hmove⟩ |
    ⟨d, s', out, hd, hmove, hmoved⟩
  · rw [he, hmove]
    rfl
  · have hsize : out.size = d.size := hmoved.size.trans (Nat.zero_add _)
    have hout : out = ofDoc d := eq_ofDoc_of_sits hmoved.sits hsize
    rw [hd, hmove, hout]
    rfl

end Move

end Markup.Store
