import Markup.Proofs.Harvesting
import Markup.Store.Rewrite

/-! Rewriting a store is reshaping its document. While a store is rebuilt, fresh copies of a
document stand at the end of the new store, and nothing before them is touched. If an editor does to
the copies of a child list what a function does to the documents that they stand for, it does so
everywhere, and what is harvested in the end is the reshaped document. -/
namespace Markup

/-- A tree of contents with the numbers of their nodes. -/
abbrev Plant := Tree (NodeId × Content)

namespace Store

abbrev roots (ts : List Plant) : List NodeId := ts.map fun t => t.label.1

variable {σ : Type} {s s' out : Store} {state next : σ} {left : Store}

section Rebuild

mutual
/-- Copy a document into the store `out`, children before parents. The visitor sees each copy with
the nodes that it returned for the children as its child list. -/
def rebuildDoc (f : Visitor σ) : Doc → σ → Store → Except Error (σ × Store × NodeId)
  | .leaf c, state, out =>
    let (out, id) := out.alloc { c with }
    f state out id
  | .node c ts, state, out => do
    let (state, out, ids) ← rebuildDocs f ts state out
    let (out, id) := out.alloc { c with children := some [] }
    f state (← out.setChildren id ids) id
def rebuildDocs (f : Visitor σ) : List Doc → σ → Store → Except Error (σ × Store × List NodeId)
  | [], state, out => .ok (state, out, [])
  | t :: ts, state, out => do
    let (state, out, id) ← rebuildDoc f t state out
    let (state, out, ids) ← rebuildDocs f ts state out
    return (state, out, id :: ids)
end

theorem rebuildFrom_of_unfoldFrom {f : Visitor σ} {height : Nat} {id : NodeId}
    {t : Tree (NodeId × Node)} (h : s.unfoldFrom height id = .ok t) :
    s.rebuildFrom f height id state out =
      rebuildDoc f (t.map fun p => p.2.toContent) state out := by
  induction height generalizing id t state out with
  | zero => simp [unfoldFrom] at h
  | succ height ih =>
    obtain ⟨n, hn, ⟨hnone, rfl⟩ | ⟨ids, ts, hids, hts, rfl⟩⟩ := unfoldFrom_succ_eq_ok.mp h
    · simp only [rebuildFrom, node_eq_ok hn, hnone, bind, Except.bind, Tree.map_leaf, rebuildDoc]
    · have hturn : inTurn (s.rebuildFrom f height) ids state out =
          rebuildDocs f (ts.map (Tree.map fun p => p.2.toContent)) state out := by
        clear hids h
        induction hts generalizing state out with
        | nil => rw [List.map_nil, rebuildDocs]; rfl
        | cons hj _ ihts =>
          simp only [List.map_cons, rebuildDocs, inTurn, ih hj]
          congr 1
          funext r
          rw [ihts]
      simp only [rebuildFrom, node_eq_ok hn, hids, hturn, Tree.map_node, rebuildDoc, bind,
        Except.bind]

theorem rebuild_of_toDoc {d : Doc} (hd : s.toDoc = .ok d) (f : Visitor σ) (state : σ) :
    s.rebuild f state = rebuildDoc f d state ⟨#[]⟩ := by
  obtain ⟨t, ht, rfl⟩ := exists_unfold_of_toDoc hd
  exact rebuildFrom_of_unfoldFrom ht

/-- The result is what stands at the number that is returned for the root. -/
theorem map_of_rebuild {f : Visitor σ} {root : NodeId}
    (hrun : s.rebuild f state = .ok (next, left, root)) :
    s.map f state = (left.harvest root).map fun d => (next, ofDoc d) := by
  simp only [Store.map, hrun, compact_eq, bind, Except.bind]
  cases left.harvest root <;> rfl

end Rebuild

section Strung

variable {parent : NodeId} {prev : Option NodeId} {ids : List NodeId}

/-- The nodes of a list name each other as siblings. -/
def Strung (s : Store) : Option NodeId → List NodeId → Prop
  | _, [] => True
  | prev, id :: ids =>
    (∃ n, s.node? id = some n ∧ n.prev = prev ∧ n.next = ids.head?) ∧ s.Strung (some id) ids

theorem Strung.frame (h : s.Strung prev ids) (hs : ∀ id ∈ ids, s'.node? id = s.node? id) :
    s'.Strung prev ids := by
  induction ids generalizing prev with
  | nil => trivial
  | cons id ids ih =>
    obtain ⟨⟨n, hn, hprev, hnext⟩, hrest⟩ := h
    rw [List.forall_mem_cons] at hs
    exact ⟨⟨n, hs.1.trans hn, hprev, hnext⟩, ih hrest hs.2⟩

theorem strung_linkFrom (hids : ∀ id ∈ ids, id < s.size) (hnodup : ids.Nodup) :
    (linkFrom parent prev ids s).Strung prev ids := by
  induction ids generalizing s prev with
  | nil => trivial
  | cons id ids ih =>
    rw [List.forall_mem_cons] at hids
    rw [List.nodup_cons] at hnodup
    obtain ⟨n, hn⟩ := exists_node?_of_lt hids.1
    refine ⟨⟨{ n with parent := some parent, prev, next := ids.head? }, ?_, rfl, rfl⟩, ?_⟩
    · rw [linkFrom, node?_linkFrom_of_notMem hnodup.1, node?_adjust_self, hn]
      rfl
    · exact ih (by simpa using hids.2) hnodup.2

theorem strung_relist (hids : ∀ id ∈ ids, id < s.size) (hnodup : ids.Nodup)
    (hparent : parent ∉ ids) :
    (s.relist parent ids).Strung none ids := by
  have hlinked : (linkFrom parent none ids s).Strung none ids := strung_linkFrom hids hnodup
  refine hlinked.frame fun id hid => ?_
  rw [relist, node?_adjust_of_ne]
  rintro rfl
  exact hparent hid

end Strung

section Bears

variable {t : Plant} {ts : List Plant} {p : NodeId × Content} {parent : NodeId} {ids : List NodeId}

theorem Bears.node_eq_ok (h : s.Bears t) : ∃ n, s.node t.label.1 = .ok n ∧
    n.toContent = t.label.2 ∧ n.children = t.children?.map roots := by
  obtain ⟨n, hn, hcontent, hchildren⟩ := h.self
  exact ⟨n, Store.node_eq_ok hn, hcontent, hchildren⟩

theorem Bears.root_lt (h : s.Bears t) : t.label.1 < s.size := by
  obtain ⟨n, hn, -⟩ := h.self
  exact lt_size_of_node? hn

theorem root_mem_ids (t : Plant) : t.label.1 ∈ t.ids :=
  Tree.mem_ids_iff.mpr ⟨t, t.self_mem_subtrees, rfl⟩

theorem mem_roots {i : NodeId} (h : i ∈ roots ts) : i ∈ ts.flatMap Tree.ids := by
  obtain ⟨t, ht, rfl⟩ := List.mem_map.mp h
  exact List.mem_flatMap.mpr ⟨t, ht, root_mem_ids t⟩

theorem Bears.relist (h : s.Bears t) (hparent : parent ∉ t.ids) :
    (s.relist parent ids).Bears t := by
  refine h.congr fun i hi n hn => ?_
  have hlinked : s.Retained (linkFrom parent none ids s) := retained_linkFrom
  obtain ⟨m, hm, hcontent, hchildren⟩ := hlinked.nodes i n hn
  refine ⟨m, ?_, hcontent, hchildren⟩
  rw [Store.relist, node?_adjust_of_ne _ (by rintro rfl; exact hparent hi)]
  exact hm

/-- A node takes over plants that stand apart from it. -/
theorem bears_relist {n : Node} (hn : s.node? p.1 = some n) (hcontent : n.toContent = p.2)
    (hchildren : n.children.isSome = true) (hts : ∀ t ∈ ts, s.Bears t)
    (hfresh : p.1 ∉ ts.flatMap Tree.ids) : (s.relist p.1 (roots ts)).Bears (.node p ts) := by
  obtain ⟨old, hold⟩ := Option.isSome_iff_exists.mp hchildren
  have hnotMem : p.1 ∉ roots ts := fun hmem => hfresh (mem_roots hmem)
  refine bears_node.mpr ⟨⟨{ n with children := some (roots ts) }, ?_, hcontent, rfl⟩, ?_⟩
  · rw [node?_relist_self hnotMem, hn, Option.map_some, hold]
    rfl
  · exact fun t ht => (hts t ht).relist fun hmem => hfresh (List.mem_flatMap.mpr ⟨t, ht, hmem⟩)

end Bears

section Follow

variable {R : Plant → Doc → Prop} {f : Content → List Doc → Content × List Doc}
  {g : Content → List Doc → List Event} {w : Editor} {lo : Nat} {id : NodeId} {c : Content}
  {ts : List Plant} {ds : List Doc}

/-- The fresh copy of a container in a store where its children are rebuilt. The plants at its
children stand for documents; they are apart from each other, and no number below `lo` is used. -/
structure Stage (R : Plant → Doc → Prop) (out : Store) (lo : Nat) (id : NodeId) (c : Content)
    (ts : List Plant) (ds : List Doc) : Prop where
  copy : out.node? id = some { c with children := some (roots ts) }
  bears : ∀ t ∈ ts, out.Bears t
  strung : out.Strung none (roots ts)
  related : List.Forall₂ R ts ds
  apart : ts.Pairwise fun t u => t.ids.Disjoint u.ids
  fresh : id ∉ ts.flatMap Tree.ids
  low : ∀ i ∈ id :: ts.flatMap Tree.ids, lo ≤ i

/-- What an editor leaves of the container: it has the content `c` and is to have the plants `ts` as
its children, which together stand for a document with the children `ds`. -/
structure Rewritten (R : Plant → Doc → Prop) (out out' : Store) (lo : Nat) (id : NodeId)
    (c : Content) (children? : Option (List NodeId)) (ts : List Plant) (ds : List Doc) : Prop where
  size : out.size ≤ out'.size
  before : ∀ i < lo, out'.node? i = out.node? i
  copy : ∃ n ids, out'.node? id = some n ∧ n.toContent = c ∧ n.children = some ids ∧
    children?.getD ids = roots ts
  bears : ∀ t ∈ ts, out'.Bears t
  related : R (.node (id, c) ts) (.node c ds)
  fresh : id ∉ ts.flatMap Tree.ids
  low : ∀ i ∈ ts.flatMap Tree.ids, lo ≤ i

/-- The editor does to copies what `f` does to documents, and reports what `g` says. -/
def Editor.Follows (w : Editor) (R : Plant → Doc → Prop)
    (f : Content → List Doc → Content × List Doc) (g : Content → List Doc → List Event) : Prop :=
  ∀ out lo id c ts ds, Stage R out lo id c ts ds → ∃ out' children? ts',
    w out id = .ok (out', g c ds, children?) ∧
      Rewritten R out out' lo id (f c ds).1 children? ts' (f c ds).2

/-- A document was copied to the end of `out`. -/
structure Copied (R : Plant → Doc → Prop) (out out' : Store) (t : Plant) (d : Doc) : Prop where
  size : out.size ≤ out'.size
  before : ∀ i < out.size, out'.node? i = out.node? i
  bears : out'.Bears t
  related : R t d
  low : ∀ i ∈ t.ids, out.size ≤ i

/-- Documents were copied to the end of `out`, one after another. -/
structure CopiedAll (R : Plant → Doc → Prop) (out out' : Store) (ts : List Plant) (ds : List Doc) :
    Prop where
  size : out.size ≤ out'.size
  before : ∀ i < out.size, out'.node? i = out.node? i
  bears : ∀ t ∈ ts, out'.Bears t
  related : List.Forall₂ R ts ds
  apart : ts.Pairwise fun t u => t.ids.Disjoint u.ids
  low : ∀ i ∈ ts.flatMap Tree.ids, out.size ≤ i

theorem CopiedAll.nil : CopiedAll R out out [] [] where
  size := Nat.le_refl _
  before _ _ := rfl
  bears := by simp
  related := .nil
  apart := .nil
  low := by simp

theorem Copied.cons {mid out' : Store} {t : Plant} {d : Doc} (h : Copied R out mid t d)
    (h' : CopiedAll R mid out' ts ds) : CopiedAll R out out' (t :: ts) (d :: ds) where
  size := h.size.trans h'.size
  before i hi := (h'.before i (Nat.lt_of_lt_of_le hi h.size)).trans (h.before i hi)
  bears := by
    refine List.forall_mem_cons.mpr ⟨h.bears.frame fun i hi => ?_, h'.bears⟩
    exact h'.before i (h.bears.lt_size i hi)
  related := .cons h.related h'.related
  apart := by
    refine List.pairwise_cons.mpr ⟨fun u hu i hi hiu => ?_, h'.apart⟩
    have hlt := h.bears.lt_size i hi
    have hle := h'.low i (List.mem_flatMap.mpr ⟨u, hu, hiu⟩)
    exact absurd hle (Nat.not_le_of_lt hlt)
  low := by
    rw [List.flatMap_cons]
    intro i hi
    rcases List.mem_append.mp hi with hi | hi
    · exact h.low i hi
    · exact h.size.trans (h'.low i hi)

theorem CopiedAll.stage {out' : Store} (h : CopiedAll R out out' ts ds) (c : Content) :
    ∃ s, (out'.alloc { c with children := some [] }).1.setChildren out'.size (roots ts) = .ok s ∧
      s.size = out'.size + 1 ∧ (∀ i < out.size, s.node? i = out.node? i) ∧
      Stage R s out.size out'.size c ts ds := by
  have hlt : ∀ i ∈ ts.flatMap Tree.ids, i < out'.size := by
    intro i hi
    obtain ⟨t, ht, hit⟩ := List.mem_flatMap.mp hi
    exact (h.bears t ht).lt_size i hit
  have hfresh : out'.size ∉ ts.flatMap Tree.ids := fun hmem => Nat.lt_irrefl _ (hlt _ hmem)
  have hnotMem : out'.size ∉ roots ts := fun hmem => hfresh (mem_roots hmem)
  have hroots : ∀ i ∈ roots ts, i < (out'.alloc { c with children := some [] }).1.size := by
    intro i hi
    rw [size_alloc]
    exact Nat.lt_succ_of_lt (hlt i (mem_roots hi))
  have hself := node?_alloc_self out' { c with children := some [] }
  have hbears : ∀ t ∈ ts, (out'.alloc { c with children := some [] }).1.Bears t := by
    intro t ht
    exact (h.bears t ht).frame fun i hi => node?_alloc_of_lt ((h.bears t ht).lt_size i hi) _
  have hnodup : (roots ts).Nodup := by
    refine List.pairwise_map.mpr (h.apart.imp fun {t u} hdisjoint heq => ?_)
    exact hdisjoint (root_mem_ids t) (heq ▸ root_mem_ids u)
  refine ⟨_, setChildren_eq_ok hroots (lt_size_of_node? hself), by rw [size_relist, size_alloc],
    ?_, ?_, ?_, strung_relist hroots hnodup hnotMem, h.related, h.apart, hfresh, ?_⟩
  · intro i hi
    have hlt : i < out'.size := Nat.lt_of_lt_of_le hi h.size
    have hout : i ∉ roots ts := fun hmem => Nat.not_le_of_lt hi (h.low i (mem_roots hmem))
    rw [node?_relist_of_notMem (Nat.ne_of_lt hlt) hout, node?_alloc_of_lt hlt, h.before i hi]
  · rw [node?_relist_self hnotMem, hself]
    rfl
  · exact fun t ht => (hbears t ht).relist fun hmem => hfresh (List.mem_flatMap.mpr ⟨t, ht, hmem⟩)
  · exact List.forall_mem_cons.mpr ⟨h.size, h.low⟩

/-- After an editor was called, the plants that it is to have stand below the container. -/
theorem Editor.Follows.visit (hw : w.Follows R f g) (h : Stage R s lo id c ts ds)
    (log : List Event) : ∃ out' ts', w.visitor log s id = .ok (log ++ g c ds, out', id) ∧
      s.size ≤ out'.size ∧ (∀ i < lo, out'.node? i = s.node? i) ∧
      out'.Bears (.node (id, (f c ds).1) ts') ∧
      R (.node (id, (f c ds).1) ts') (.node (f c ds).1 (f c ds).2) ∧
      ∀ i ∈ id :: ts'.flatMap Tree.ids, lo ≤ i := by
  obtain ⟨out', children?, ts', hrun, hout⟩ := hw s lo id c ts ds h
  obtain ⟨n, ids, hn, hcontent, hids, hroots⟩ := hout.copy
  have hid : lo ≤ id := h.low id List.mem_cons_self
  have hlow : ∀ i ∈ id :: ts'.flatMap Tree.ids, lo ≤ i := List.forall_mem_cons.mpr ⟨hid, hout.low⟩
  cases children? with
  | none =>
    refine ⟨out', ts', ?_, hout.size, hout.before, ?_, hout.related, hlow⟩
    · simp [Editor.visitor, node_eq_ok h.copy, hrun, bind, Except.bind, pure, Except.pure]
    · exact bears_node.mpr ⟨⟨n, hn, hcontent, hids.trans (congrArg some hroots)⟩, hout.bears⟩
  | some news =>
    obtain rfl : news = roots ts' := hroots
    have hlt : ∀ i ∈ roots ts', i < out'.size := by
      intro i hi
      obtain ⟨t, ht, rfl⟩ := List.mem_map.mp hi
      exact (hout.bears t ht).root_lt
    refine ⟨out'.relist id (roots ts'), ts', ?_, by rw [size_relist]; exact hout.size, ?_, ?_,
      hout.related, hlow⟩
    · simp [Editor.visitor, node_eq_ok h.copy, hrun, setChildren_eq_ok hlt (lt_size_of_node? hn),
        bind, Except.bind, pure, Except.pure]
    · intro i hi
      rw [node?_relist_of_notMem, hout.before i hi]
      · rintro rfl
        exact Nat.not_le_of_lt hi hid
      · exact fun hmem => Nat.not_le_of_lt hi (hout.low i (mem_roots hmem))
    · exact bears_relist hn hcontent (by rw [hids]; rfl) hout.bears hout.fresh

/-- A document is copied as `f` reshapes it. -/
def Copies (w : Editor) (R : Plant → Doc → Prop) (f : Content → List Doc → Content × List Doc)
    (g : Content → List Doc → List Event) (d : Doc) : Prop :=
  ∀ log out, ∃ out' t,
    rebuildDoc w.visitor d log out = .ok (log ++ d.collect f g, out', t.label.1) ∧
      Copied R out out' t (d.reshape f)

theorem copies_list (hds : ∀ d ∈ ds, Copies w R f g d) (log : List Event) (out : Store) :
    ∃ out' ts, rebuildDocs w.visitor ds log out =
        .ok (log ++ ds.flatMap (Tree.collect f g), out', roots ts) ∧
      CopiedAll R out out' ts (ds.map (Tree.reshape f)) := by
  induction ds generalizing log out with
  | nil => exact ⟨out, [], by simp [rebuildDocs], .nil⟩
  | cons d ds ih =>
    rw [List.forall_mem_cons] at hds
    obtain ⟨mid, t, hrun, ht⟩ := hds.1 log out
    obtain ⟨out', ts, hruns, hts⟩ := ih hds.2 (log ++ d.collect f g) mid
    refine ⟨out', t :: ts, ?_, ht.cons hts⟩
    simp only [rebuildDocs, hrun, hruns, bind, Except.bind, pure, Except.pure, List.flatMap_cons,
      List.append_assoc, List.map_cons]

theorem Editor.Follows.copies (hw : w.Follows R f g) (hleaf : ∀ p, R (.leaf p) (.leaf p.2))
    (d : Doc) : Copies w R f g d := by
  induction d using Tree.induct with
  | leaf c =>
    intro log out
    have hself := node?_alloc_self out { c with }
    refine ⟨(out.alloc { c with }).1, .leaf (out.size, c), ?_, ?_, ?_, ?_, ?_, ?_⟩
    · simp [rebuildDoc, Editor.visitor, node_eq_ok hself, bind, Except.bind, pure, Except.pure]
    · rw [size_alloc]
      exact Nat.le_succ _
    · exact fun i hi => node?_alloc_of_lt hi _
    · exact bears_leaf.mpr ⟨_, hself, rfl, rfl⟩
    · rw [Tree.reshape_leaf]
      exact hleaf (out.size, c)
    · simp [Tree.ids]
  | node c ds ih =>
    intro log out
    obtain ⟨mid, ts, hruns, hts⟩ := copies_list ih log out
    obtain ⟨s, hs, hsize, hbefore, hstage⟩ := hts.stage c
    obtain ⟨out', ts', hvisit, hgrows, hframe, hbears, hrelated, hlow⟩ :=
      hw.visit hstage (log ++ ds.flatMap (Tree.collect f g))
    refine ⟨out', .node (mid.size, _) ts', ?_, ?_, ?_, hbears, ?_, ?_⟩
    · simp only [rebuildDoc, hruns, alloc_snd, hs, hvisit, bind, Except.bind, Tree.collect_node,
        List.append_assoc, Tree.label_node]
    · have hmid := hts.size
      omega
    · intro i hi
      rw [hframe i hi, hbefore i hi]
    · rw [Tree.reshape_node]
      exact hrelated
    · rwa [Tree.ids_node]

/-- The relation is one of plants and the documents that are harvested from them. -/
structure Ripe (R : Plant → Doc → Prop) : Prop where
  leaf : ∀ p, R (.leaf p) (.leaf p.2)
  harvest : ∀ (out : Store) (t : Plant) (d : Doc),
    out.Bears t → R t d → out.harvest t.label.1 = .ok d

/-- Rewriting child lists reshapes the document and lays it out anew. -/
theorem rewriteChildren_of_toDoc {d : Doc} (hR : Ripe R) (hw : w.Follows R f g)
    (hd : s.toDoc = .ok d) :
    s.rewriteChildren w = .ok (d.collect f g, ofDoc (d.reshape f)) := by
  obtain ⟨out, t, hrun, ht⟩ := hw.copies hR.leaf d [] ⟨#[]⟩
  rw [← rebuild_of_toDoc hd] at hrun
  rw [rewriteChildren, map_of_rebuild hrun, hR.harvest _ _ _ ht.bears ht.related, List.nil_append]
  rfl

end Follow

end Store

end Markup
