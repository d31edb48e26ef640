import Markup.Proofs.Copying
import Mathlib.Data.List.Flatten

/-! Editing copies in place. An editor that only changes, drops and joins the copies it is offered
never makes two of them share a node, so it is enough to follow the plants at the children, and
each of them can be changed without regard to the others. -/
namespace Markup

namespace Tree

variable {α β : Type}

theorem map_setLabel (f : α → β) (a : α) (t : Tree α) :
    (t.setLabel a).map f = (t.map f).setLabel (f a) := by
  cases t <;> simp [setLabel]

theorem setLabel_setLabel (a b : α) (t : Tree α) : (t.setLabel a).setLabel b = t.setLabel b := by
  cases t <;> rfl

theorem children_map (f : α → β) (t : Tree α) : (t.map f).children = t.children.map (map f) := by
  cases t <;> simp

theorem ids_setLabel (t : Plant) (c : Content) : (t.setLabel (t.label.1, c)).ids = t.ids := by
  cases t <;> simp [setLabel, ids]

end Tree

namespace Store

abbrev docs (ts : List Plant) : List Doc := ts.map (Tree.map Prod.snd)

theorem roots_cons (t : Plant) (ts : List Plant) : roots (t :: ts) = t.label.1 :: roots ts := rfl

theorem docs_cons (t : Plant) (ts : List Plant) :
    docs (t :: ts) = t.map Prod.snd :: docs ts := rfl

variable {out mid out' : Store} {t t' u : Plant} {ts us a b : List Plant} {id : NodeId}
  {c : Content} {scope scope' : List NodeId}

/-- The plant has no number twice and stands for the document as it is. -/
def Plain (t : Plant) (d : Doc) : Prop := t.ids.Nodup ∧ t.map Prod.snd = d

theorem ripe_plain : Ripe Plain where
  leaf p := ⟨by simp [Tree.ids], by simp⟩
  harvest out t d hbears h := by rw [hbears.harvest h.1, h.2]

/-- No node but those of `scope` differs. -/
structure Touches (out out' : Store) (scope : List NodeId) : Prop where
  size : out'.size = out.size
  frame : ∀ i, i ∉ scope → out'.node? i = out.node? i

theorem Touches.refl (out : Store) (scope : List NodeId) : Touches out out scope :=
  ⟨rfl, fun _ _ => rfl⟩

theorem Touches.trans (h : Touches out mid scope) (h' : Touches mid out' scope')
    (hscope : scope' ⊆ scope) :
    Touches out out' scope where
  size := h'.size.trans h.size
  frame i hi := (h'.frame i fun hmem => hi (hscope hmem)).trans (h.frame i hi)

theorem Touches.mono (h : Touches out out' scope) (hscope : scope ⊆ scope') :
    Touches out out' scope' :=
  ⟨h.size, fun i hi => h.frame i fun hmem => hi (hscope hmem)⟩

theorem touches_adjust (out : Store) (f : Node → Node) (hid : id ∈ scope) :
    Touches out (out.adjust id f) scope := by
  refine ⟨size_adjust out id f, fun i hi => node?_adjust_of_ne out ?_ f⟩
  rintro rfl
  exact hi hid

/-- Plants that have no number in common. -/
structure Garden (out : Store) (ts : List Plant) : Prop where
  bears : ∀ t ∈ ts, out.Bears t
  nodup : (ts.flatMap Tree.ids).Nodup

theorem Garden.tail (h : Garden out (t :: ts)) : Garden out ts := by
  have hnodup := h.nodup
  rw [List.flatMap_cons, List.nodup_append'] at hnodup
  exact ⟨(List.forall_mem_cons.mp h.bears).2, hnodup.2.1⟩

/-- The plant `t'` takes the place of `t`, and nothing else changes. -/
structure Turns (out out' : Store) (t t' : Plant) : Prop where
  touches : Touches out out' t.ids
  bears : out'.Bears t'
  sublist : t'.ids.Sublist t.ids
  root : t'.label.1 = t.label.1

theorem Turns.trans {t'' : Plant} (h : Turns out mid t t') (h' : Turns mid out' t' t'') :
    Turns out out' t t'' where
  touches := h.touches.trans h'.touches h.sublist.subset
  bears := h'.bears
  sublist := h'.sublist.trans h.sublist
  root := h'.root.trans h.root

theorem flatMap_ids_middle (a b : List Plant) (t : Plant) :
    (a ++ t :: b).flatMap Tree.ids =
      a.flatMap Tree.ids ++ (t.ids ++ b.flatMap Tree.ids) := by
  rw [List.flatMap_append, List.flatMap_cons]

theorem Turns.sublist_middle (ht : Turns out out' t t') (a b : List Plant) :
    ((a ++ t' :: b).flatMap Tree.ids).Sublist ((a ++ t :: b).flatMap Tree.ids) := by
  rw [flatMap_ids_middle, flatMap_ids_middle]
  exact (List.Sublist.refl _).append (ht.sublist.append (.refl _))

theorem sublist_middle (t : Plant) (a b : List Plant) :
    ((a ++ b).flatMap Tree.ids).Sublist ((a ++ t :: b).flatMap Tree.ids) :=
  ((List.Sublist.refl a).append (List.sublist_cons_self t b)).flatMap _

/-- A plant in a garden is changed without regard to the others. -/
theorem Garden.turn (h : Garden out (a ++ t :: b)) (ht : Turns out out' t t') :
    Garden out' (a ++ t' :: b) := by
  have hnodup := h.nodup
  have hbears := h.bears
  rw [flatMap_ids_middle, List.nodup_append', List.nodup_append', List.disjoint_append_right]
    at hnodup
  obtain ⟨-, ⟨-, -, htbs⟩, hast, -⟩ := hnodup
  have hframe : ∀ u, (∀ i ∈ u.ids, i ∉ t.ids) → out.Bears u → out'.Bears u :=
    fun u hu hb => hb.frame fun i hi => ht.touches.frame i (hu i hi)
  constructor
  · intro u hu
    rcases List.mem_append.mp hu with hu | hu
    · refine hframe u (fun i hi hit => hast (List.mem_flatMap.mpr ⟨u, hu, hi⟩) hit) ?_
      exact hbears u (List.mem_append_left _ hu)
    · rcases List.mem_cons.mp hu with rfl | hu
      · exact ht.bears
      · refine hframe u (fun i hi hit => htbs hit (List.mem_flatMap.mpr ⟨u, hu, hi⟩)) ?_
        exact hbears u (List.mem_append_right _ (List.mem_cons_of_mem _ hu))
  · exact h.nodup.sublist (ht.sublist_middle a b)

theorem Garden.drop (h : Garden out (a ++ t :: b)) : Garden out (a ++ b) where
  bears u hu := h.bears u <| by
    rcases List.mem_append.mp hu with hu | hu
    · exact List.mem_append_left _ hu
    · exact List.mem_append_right _ (List.mem_cons_of_mem _ hu)
  nodup := h.nodup.sublist (sublist_middle t a b)

/-- In the place of the plants `ts` stand the plants `us`, and nothing else changes. -/
structure Tended (out out' : Store) (ts us : List Plant) : Prop where
  touches : Touches out out' (ts.flatMap Tree.ids)
  bears : ∀ u ∈ us, out'.Bears u
  sublist : (us.flatMap Tree.ids).Sublist (ts.flatMap Tree.ids)

theorem Garden.tended (h : Garden out ts) : Tended out out ts ts := ⟨.refl out _, h.bears, .refl _⟩

theorem tended_nil (out : Store) (ts : List Plant) : Tended out out ts [] :=
  ⟨.refl out _, by simp, List.nil_sublist _⟩

theorem Tended.trans {vs : List Plant} (h : Tended out mid ts us) (h' : Tended mid out' us vs) :
    Tended out out' ts vs where
  touches := h.touches.trans h'.touches h.sublist.subset
  bears := h'.bears
  sublist := h'.sublist.trans h.sublist

theorem Tended.garden (h : Tended out out' ts us) (hts : Garden out ts) : Garden out' us :=
  ⟨h.bears, hts.nodup.sublist h.sublist⟩

/-- A plant is changed first, and then all of them are. -/
theorem Turns.tended (ht : Turns out mid t t') (h : Tended mid out' (a ++ t' :: b) us) :
    Tended out out' (a ++ t :: b) us := by
  have hsublist := ht.sublist_middle a b
  refine ⟨?_, h.bears, h.sublist.trans hsublist⟩
  refine (ht.touches.mono ?_).trans h.touches hsublist.subset
  rw [flatMap_ids_middle]
  exact fun i hi => List.mem_append_right _ (List.mem_append_left _ hi)

theorem Tended.drop (h : Tended out out' (a ++ b) us) : Tended out out' (a ++ t :: b) us :=
  ⟨h.touches.mono (sublist_middle t a b).subset, h.bears, h.sublist.trans (sublist_middle t a b)⟩

/-- A plant that is done stays while the plants behind it are changed. -/
theorem Tended.cons (h : Tended out out' ts us) (ht : out.Bears t)
    (hdisjoint : t.ids.Disjoint (ts.flatMap Tree.ids)) : Tended out out' (t :: ts) (t :: us) where
  touches := h.touches.mono (by rw [List.flatMap_cons]; exact List.subset_append_right _ _)
  bears := List.forall_mem_cons.mpr
    ⟨ht.frame fun i hi => h.touches.frame i fun hmem => hdisjoint hi hmem, h.bears⟩
  sublist := by
    rw [List.flatMap_cons, List.flatMap_cons]
    exact (List.Sublist.refl _).append h.sublist

theorem Garden.disjoint (h : Garden out (t :: ts)) : t.ids.Disjoint (ts.flatMap Tree.ids) := by
  have hnodup := h.nodup
  rw [List.flatMap_cons, List.nodup_append'] at hnodup
  exact hnodup.2.2

theorem Garden.tended_append (h : Garden out (a ++ b))
    (hts : Tended out mid a ts) (hus : Tended mid out' b us) :
    Tended out out' (a ++ b) (ts ++ us) := by
  have hnodup := h.nodup
  rw [List.flatMap_append, List.nodup_append'] at hnodup
  refine ⟨?_, ?_, ?_⟩
  · rw [List.flatMap_append]
    exact (hts.touches.mono (List.subset_append_left _ _)).trans hus.touches
      (List.subset_append_right _ _)
  · intro v hv
    rcases List.mem_append.mp hv with hv | hv
    · refine (hts.bears v hv).frame fun i hi => hus.touches.frame i fun hmem => ?_
      exact hnodup.2.2 (hts.sublist.subset (List.mem_flatMap.mpr ⟨v, hv, hi⟩)) hmem
    · exact hus.bears v hv
  · rw [List.flatMap_append, List.flatMap_append]
    exact hts.sublist.append hus.sublist

theorem Garden.right (h : Garden out (a ++ b)) (hts : Tended out mid a ts) :
    Garden mid b := by
  have hnodup := h.nodup
  rw [List.flatMap_append, List.nodup_append'] at hnodup
  refine ⟨fun u hu => ?_, hnodup.2.1⟩
  refine (h.bears u (List.mem_append_right _ hu)).frame fun i hi => hts.touches.frame i
    fun hmem => ?_
  exact hnodup.2.2 hmem (List.mem_flatMap.mpr ⟨u, hu, hi⟩)

theorem Turns.tended_singleton (h : Turns out out' t t') : Tended out out' [t] [t'] where
  touches := by simpa using h.touches
  bears := by simpa using h.bears
  sublist := by simpa using h.sublist

theorem Garden.tended_cons (h : Garden out (t :: ts)) (ht : Turns out mid t t')
    (hts : Tended mid out' ts us) : Tended out out' (t :: ts) (t' :: us) :=
  h.tended_append (a := [t]) ht.tended_singleton hts

theorem Bears.edit (h : out.Bears t) (hnodup : t.ids.Nodup) (f : Content → Content) :
    ∃ out', out.edit t.label.1 f = .ok out' ∧
      Turns out out' t (t.setLabel (t.label.1, f t.label.2)) := by
  obtain ⟨n, hn, hcontent, hchildren⟩ := h.self
  refine ⟨_, by rw [Store.edit, Store.node_eq_ok hn]; rfl,
    touches_adjust out _ (root_mem_ids t), ?_, by rw [Tree.ids_setLabel], by simp⟩
  have hself : (out.adjust t.label.1 fun n => { n with toContent := f n.toContent }).node?
      t.label.1 = some { n with toContent := f t.label.2 } := by
    rw [node?_adjust_self, hn, Option.map_some, hcontent]
  cases t with
  | leaf p => exact bears_leaf.mpr ⟨_, hself, rfl, hchildren⟩
  | node p ts =>
    rw [Tree.ids_node, List.nodup_cons] at hnodup
    refine bears_node.mpr ⟨⟨_, hself, rfl, hchildren⟩, fun u hu => ?_⟩
    refine ((bears_node.mp h).2 u hu).frame fun i hi => node?_adjust_of_ne out ?_ _
    rintro rfl
    exact hnodup.1 (List.mem_flatMap.mpr ⟨u, hu, hi⟩)

theorem Bears.children_eq_ok (h : out.Bears t) :
    out.children t.label.1 = .ok (roots t.children) := by
  obtain ⟨n, hn, -, hchildren⟩ := h.node_eq_ok
  rw [Store.children, hn, Except.map, hchildren]
  cases t <;> rfl

theorem Bears.of_mem_children (h : out.Bears t) (hu : u ∈ t.children) : out.Bears u :=
  Tree.Everywhere.of_mem_children h hu

theorem Bears.firstChild?_eq_ok (h : out.Bears t) :
    out.firstChild? t.label.1 = .ok (roots t.children).head? := by
  rw [Store.firstChild?, h.children_eq_ok]
  rfl

theorem Bears.setChildren {p : NodeId × Content} (h : out.Bears (.node p ts))
    (hnodup : (Tree.node p ts).ids.Nodup) (hus : us.Sublist ts) :
    ∃ out', out.setChildren p.1 (roots us) = .ok out' ∧
      Turns out out' (.node p ts) (.node p us) := by
  obtain ⟨⟨n, hn, hcontent, hchildren⟩, hts⟩ := bears_node.mp h
  have hbears : ∀ u ∈ us, out.Bears u := fun u hu => hts u (hus.subset hu)
  have hids : (us.flatMap Tree.ids).Sublist (ts.flatMap Tree.ids) := hus.flatMap _
  rw [Tree.ids_node, List.nodup_cons] at hnodup
  have hlt : ∀ i ∈ roots us, i < out.size := by
    intro i hi
    obtain ⟨u, hu, rfl⟩ := List.mem_map.mp hi
    exact (hbears u hu).root_lt
  refine ⟨_, setChildren_eq_ok hlt (lt_size_of_node? hn),
    ⟨size_relist, fun i hi => ?_⟩, ?_, ?_, rfl⟩
  · rw [Tree.ids_node, List.mem_cons, not_or] at hi
    exact node?_relist_of_notMem hi.1 fun hmem => hi.2 (hids.subset (mem_roots hmem))
  · exact bears_relist hn hcontent (by rw [hchildren]; rfl) hbears fun hmem =>
      hnodup.1 (hids.subset hmem)
  · rw [Tree.ids_node, Tree.ids_node]
    exact hids.cons_cons _

theorem Garden.edit (h : Garden out (a ++ t :: b)) (f : Content → Content) :
    ∃ out' t', out.edit t.label.1 f = .ok out' ∧ Turns out out' t t' ∧
      t'.map Prod.snd = (t.map Prod.snd).setLabel (f t.label.2) := by
  have hmem : t ∈ a ++ t :: b := List.mem_append_right _ List.mem_cons_self
  obtain ⟨out', hedit, hturns⟩ :=
    (h.bears t hmem).edit ((List.nodup_flatMap.mp h.nodup).1 t hmem) f
  exact ⟨out', _, hedit, hturns, Tree.map_setLabel _ _ t⟩

section Tidy

variable {f : Content → List Doc → Content × List Doc} {g : Content → List Doc → List Event}
  {w : Editor} {children? : Option (List NodeId)}

/-- The fresh copy of a container, with its children linked below it. -/
structure Held (out : Store) (id : NodeId) (c : Content) (ts : List Plant) : Prop where
  copy : out.node? id = some { c with children := some (roots ts) }
  garden : Garden out ts
  strung : out.Strung none (roots ts)
  fresh : id ∉ ts.flatMap Tree.ids

theorem Held.node_eq_ok (h : Held out id c ts) :
    out.node id = .ok { c with children := some (roots ts) } := Store.node_eq_ok h.copy

theorem Held.firstChild?_eq_ok (h : Held out id c ts) :
    out.firstChild? id = .ok (roots ts).head? := by
  rw [Store.firstChild?, Store.children, h.node_eq_ok]
  rfl

theorem Held.children_eq_ok (h : Held out id c ts) : out.children id = .ok (roots ts) := by
  rw [Store.children, h.node_eq_ok]
  rfl

/-- What is left of the container and its children. -/
structure Tidied (out out' : Store) (id : NodeId) (ts : List Plant) (c : Content)
    (children? : Option (List NodeId)) (us : List Plant) : Prop where
  touches : Touches out out' (id :: ts.flatMap Tree.ids)
  copy : ∃ n, out'.node? id = some n ∧ n.toContent = c ∧ n.children = some (roots ts)
  listed : children?.getD (roots ts) = roots us
  bears : ∀ u ∈ us, out'.Bears u
  sublist : (us.flatMap Tree.ids).Sublist (ts.flatMap Tree.ids)

/-- Where only the children are changed, the container keeps its content. -/
theorem Held.tidied (h : Held out id c ts) (hus : Tended out out' ts us)
    (hids : children?.getD (roots ts) = roots us) : Tidied out out' id ts c children? us where
  touches := hus.touches.mono (List.subset_cons_self _ _)
  copy := ⟨_, (hus.touches.frame id h.fresh).trans h.copy, rfl, rfl⟩
  listed := hids
  bears := hus.bears
  sublist := hus.sublist

/-- The content of the container is changed when its children are done. -/
theorem Held.tidied_edit (h : Held out id c ts) (hus : Tended out mid ts us) (e : Content → Content)
    (hids : children?.getD (roots ts) = roots us) :
    ∃ out', mid.edit id e = .ok out' ∧ Tidied out out' id ts (e c) children? us := by
  have hcopy : mid.node? id = some { c with children := some (roots ts) } :=
    (hus.touches.frame id h.fresh).trans h.copy
  refine ⟨_, by rw [Store.edit, Store.node_eq_ok hcopy]; rfl, ?_, ?_, hids, ?_, hus.sublist⟩
  · exact (hus.touches.mono (List.subset_cons_self _ _)).trans
      (touches_adjust mid _ (List.mem_singleton_self id)) (by simp)
  · exact ⟨_, by rw [node?_adjust_self, hcopy]; rfl, rfl, rfl⟩
  · intro u hu
    refine (hus.bears u hu).frame fun i hi => node?_adjust_of_ne mid ?_ _
    rintro rfl
    exact h.fresh (hus.sublist.subset (List.mem_flatMap.mpr ⟨u, hu, hi⟩))

theorem Held.kept (h : Held out id c ts) : Tidied out out id ts c none ts :=
  h.tidied h.garden.tended rfl

/-- The editor does to a container what `f` does to the documents that its children stand for. -/
def Editor.TidiesAt (w : Editor) (f : Content → List Doc → Content × List Doc)
    (g : Content → List Doc → List Event) (out : Store) (id : NodeId) (c : Content)
    (ts : List Plant) : Prop :=
  ∃ out' children? us, w out id = .ok (out', g c (docs ts), children?) ∧
    Tidied out out' id ts (f c (docs ts)).1 children? us ∧ docs us = (f c (docs ts)).2

/-- The editor does so wherever it is called. -/
def Editor.Tidies (w : Editor) (f : Content → List Doc → Content × List Doc)
    (g : Content → List Doc → List Event) : Prop :=
  ∀ out id c ts, Held out id c ts → w.TidiesAt f g out id c ts

/-- The editor leaves a container alone that `f` leaves as it is. -/
theorem Held.stays (h : Held out id c ts) (hrun : w out id = .ok (out, [], none))
    (hf : f c (docs ts) = (c, docs ts)) (hg : g c (docs ts) = []) :
    w.TidiesAt f g out id c ts := by
  rw [Editor.TidiesAt, hf, hg]
  exact ⟨out, none, ts, hrun, h.kept, rfl⟩

theorem forall₂_plain {ds : List Doc} (h : List.Forall₂ Plain ts ds) :
    (∀ t ∈ ts, t.ids.Nodup) ∧ docs ts = ds := by
  induction h with
  | nil => exact ⟨by simp, rfl⟩
  | cons ht _ ih =>
    exact ⟨List.forall_mem_cons.mpr ⟨ht.1, ih.1⟩, by simp only [docs, List.map_cons, ht.2, ← ih.2]⟩

theorem Editor.Tidies.follows (h : w.Tidies f g) : w.Follows Plain f g := by
  intro out lo id c ts ds hstage
  obtain ⟨hnodup, rfl⟩ := forall₂_plain hstage.related
  have hgarden : Garden out ts := ⟨hstage.bears, List.nodup_flatMap.mpr ⟨hnodup, hstage.apart⟩⟩
  have hheld : Held out id c ts := ⟨hstage.copy, hgarden, hstage.strung, hstage.fresh⟩
  obtain ⟨out', children?, us, hrun, htidied, hdocs⟩ := h out id c ts hheld
  obtain ⟨n, hn, hcontent, hchildren⟩ := htidied.copy
  have hsubset := htidied.sublist.subset
  refine ⟨out', children?, us, hrun, ?_⟩
  refine ⟨Nat.le_of_eq htidied.touches.size.symm, ?_, ⟨n, _, hn, hcontent, hchildren,
    htidied.listed⟩, htidied.bears, ⟨?_, ?_⟩, fun hmem => hstage.fresh (hsubset hmem), ?_⟩
  · intro i hi
    exact htidied.touches.frame i fun hmem => Nat.not_le_of_lt hi (hstage.low i hmem)
  · rw [Tree.ids_node, List.nodup_cons]
    exact ⟨fun hmem => hstage.fresh (hsubset hmem), hgarden.nodup.sublist htidied.sublist⟩
  · rw [Tree.map_node]
    exact congrArg _ hdocs
  · exact fun i hi => hstage.low i (List.mem_cons_of_mem _ (hsubset hi))

end Tidy

end Store

end Markup
