import Markup.Pipeline
import Markup.Proofs.Rewriting

/-! The annotation passes as functions of documents. Each visits a store node by node and looks at
the neighbours that links name; on a store laid out from a document it sets every content anew from
what stands around it in the document. So all passes are functions of documents. -/
namespace Markup

/-- What stands around a node of a document. -/
structure Surroundings where
  parent : Option Content := none
  isTop : Bool := false
  prev : Option Content := none
  next : Option Content := none
deriving DecidableEq, Repr

def Surroundings.place (a : Surroundings) (c : Content) : Place :=
  { self := c, parent := a.parent, prev := a.prev, next := a.next }

namespace Tree

mutual
/-- Set every content of a document anew from its surroundings and the tree below it. The function
sees all contents as they were. -/
def decorate (g : Surroundings → Doc → Content) (a : Surroundings) : Doc → Doc
  | leaf c => leaf (g a (leaf c))
  | node c ts => node (g a (node c ts)) (decorateAll g c a.parent.isNone none ts)
def decorateAll (g : Surroundings → Doc → Content) (parent : Content) (isTop : Bool)
    (prev : Option Content) : List Doc → List Doc
  | [] => []
  | t :: ts =>
    decorate g { parent := some parent, isTop, prev, next := ts.head?.map label } t ::
      decorateAll g parent isTop (some t.label) ts
end

@[simp] theorem decorate_leaf (g : Surroundings → Doc → Content) (a : Surroundings) (c : Content) :
    decorate g a (leaf c) = leaf (g a (leaf c)) := by
  rw [decorate]

@[simp] theorem decorate_node (g : Surroundings → Doc → Content) (a : Surroundings) (c : Content)
    (ts : List Doc) :
    decorate g a (node c ts) =
      node (g a (node c ts)) (decorateAll g c a.parent.isNone none ts) := by
  rw [decorate]

@[simp] theorem decorateAll_nil (g : Surroundings → Doc → Content) (parent : Content) (isTop : Bool)
    (prev : Option Content) : decorateAll g parent isTop prev [] = [] := by
  rw [decorateAll]

@[simp] theorem decorateAll_cons (g : Surroundings → Doc → Content) (parent : Content)
    (isTop : Bool) (prev : Option Content) (t : Doc) (ts : List Doc) :
    decorateAll g parent isTop prev (t :: ts) =
      decorate g { parent := some parent, isTop, prev, next := ts.head?.map label } t ::
        decorateAll g parent isTop (some t.label) ts := by
  rw [decorateAll]

@[simp] theorem label_decorate (g : Surroundings → Doc → Content) (a : Surroundings) (t : Doc) :
    (decorate g a t).label = g a t := by
  cases t <;> simp

theorem mem_decorateAll {g : Surroundings → Doc → Content} {parent : Content} {isTop : Bool}
    {prev : Option Content} {ts : List Doc} {u : Doc} (h : u ∈ decorateAll g parent isTop prev ts) :
    ∃ t ∈ ts, ∃ a : Surroundings, a.parent = some parent ∧ u = decorate g a t := by
  induction ts generalizing prev with
  | nil => simp at h
  | cons t ts ih =>
    rw [decorateAll_cons] at h
    rcases List.mem_cons.mp h with hu | h
    · exact ⟨t, List.mem_cons_self, _, rfl, hu⟩
    · obtain ⟨v, hv, a, ha, hu⟩ := ih h
      exact ⟨v, List.mem_cons_of_mem _ hv, a, ha, hu⟩

mutual
/-- Decorated documents have the shape of the original, with contents related as `g` relates
them. -/
theorem related_decorate {R : Content → Content → Prop} {g : Surroundings → Doc → Content}
    (hg : ∀ a t, R t.label (g a t)) : ∀ (a : Surroundings) (t : Doc), Related R t (decorate g a t)
  | a, leaf c => by simpa using hg a (leaf c)
  | a, node c ts => by
    rw [decorate_node, related_node]
    exact ⟨hg a (node c ts), relatedAll_decorateAll hg c a.parent.isNone none ts⟩
theorem relatedAll_decorateAll {R : Content → Content → Prop} {g : Surroundings → Doc → Content}
    (hg : ∀ a t, R t.label (g a t)) (parent : Content) (isTop : Bool) :
    ∀ (prev : Option Content) (ts : List Doc),
      List.Forall₂ (Related R) ts (decorateAll g parent isTop prev ts)
  | _, [] => by simp
  | prev, t :: ts => by
    rw [decorateAll_cons]
    exact .cons (related_decorate hg _ t) (relatedAll_decorateAll hg parent isTop (some t.label) ts)
end

mutual
theorem size_decorate (g : Surroundings → Doc → Content) :
    ∀ (a : Surroundings) (t : Doc), (decorate g a t).size = t.size
  | a, leaf c => by simp
  | a, node c ts => by simp [sizeAll_decorateAll g c a.parent.isNone none ts]
theorem sizeAll_decorateAll (g : Surroundings → Doc → Content) (parent : Content) (isTop : Bool) :
    ∀ (prev : Option Content) (ts : List Doc),
      sizeAll (decorateAll g parent isTop prev ts) = sizeAll ts
  | _, [] => by simp
  | prev, t :: ts => by
    simp [size_decorate g, sizeAll_decorateAll g parent isTop (some t.label) ts]
end

end Tree

namespace Store

theorem rootIds_decorateAll (g : Surroundings → Doc → Content) (parent : Content) (isTop : Bool)
    (prev : Option Content) (id : NodeId) (ts : List Doc) :
    rootIds id (Tree.decorateAll g parent isTop prev ts) = rootIds id ts := by
  induction ts generalizing prev id with
  | nil => simp
  | cons t ts ih => simp [rootIds, Tree.size_decorate, ih]

/-- The store shows at the node `id` what stands around the root of `t`. The last two facts are what
the siblings of the node see of their own surroundings. -/
structure Seen (s : Store) (id : NodeId) (n : Node) (a : Surroundings) (t : Doc) : Prop where
  node : s.node? id = some n
  content : n.toContent = t.label
  children : n.children = t.children?.map (rootIds (id + 1))
  parent : s.linked n.parent = .ok a.parent
  prev : s.linked n.prev = .ok a.prev
  next : s.linked n.next = .ok a.next
  top : n.parent = some 0 ↔ a.isTop = true
  before : ∀ i, n.prev = some i →
    ∃ c x, a.prev = some c ∧ s.place i = .ok ⟨c, a.parent, x, some t.label⟩
  behind : ∀ i, n.next = some i →
    ∃ c x, a.next = some c ∧ s.place i = .ok ⟨c, a.parent, some t.label, x⟩

theorem Seen.place {s : Store} {id : NodeId} {n : Node} {a : Surroundings} {t : Doc}
    (h : s.Seen id n a t) : s.place id = .ok (a.place t.label) := by
  rw [place_eq_ok h.node h.parent h.prev h.next, h.content]
  rfl

theorem Sits.congr {s s' : Store} {t : Doc} {id : NodeId} {parent prev next : Option NodeId}
    (h : s.Sits parent prev next id t)
    (hs : ∀ i, id ≤ i → i < id + t.size → s'.node? i = s.node? i) :
    s'.Sits parent prev next id t := by
  apply sits_of_layout t
  intro k hk
  rw [hs (id + k) (Nat.le_add_right _ _) (Nat.add_lt_add_left hk _), h.layout k hk]

/-- One step of an annotation: set the content of one node. -/
def annotateAt (f : NodeId → Node → Except Error Content) (out : Store) (id : NodeId) :
    Except Error Store := do
  let c ← f id (← out.node id)
  return out.adjust id fun n => { n with toContent := c }

theorem annotate_eq (s : Store) (f : NodeId → Node → Except Error Content) :
    s.annotate f = s.dfs.bind fun ids => ids.foldlM (annotateAt f) s := rfl

theorem annotateAt_eq_ok {f : NodeId → Node → Except Error Content} {out : Store} {id : NodeId}
    {n : Node} {c : Content} (hn : out.node? id = some n) (hc : f id n = .ok c) :
    annotateAt f out id = .ok (out.adjust id fun n => { n with toContent := c }) := by
  simp [annotateAt, node_eq_ok hn, hc, bind, Except.bind, pure, Except.pure]

/-- What `f` finds out at the nodes of the store is what `g` says of documents. -/
def Follows (s : Store) (f : NodeId → Node → Except Error Content)
    (g : Surroundings → Doc → Content) : Prop :=
  ∀ {id : NodeId} {n : Node} {a : Surroundings} {t : Doc}, s.Seen id n a t → f id n = .ok (g a t)

section
variable {s : Store} {f : NodeId → Node → Except Error Content} {g : Surroundings → Doc → Content}

mutual
theorem Sits.foldlM_annotateAt (hf : s.Follows f g) :
    ∀ {t : Doc} {id : Nat} {n : Node} {parent prev next : Option NodeId} {a : Surroundings}
      {out : Store}, s.Sits parent prev next id t → s.Seen id n a t → (id = 0 ↔ a.parent = none) →
      (∀ i, id ≤ i → out.node? i = s.node? i) →
        ∃ out', (List.range' id t.size).foldlM (annotateAt f) out = .ok out' ∧
          out'.size = out.size ∧ out'.Sits parent prev next id (t.decorate g a) ∧
          ∀ i, i < id ∨ id + t.size ≤ i → out'.node? i = out.node? i
  | .leaf c, id, n, parent, prev, next, a, out, h, hseen, _, hout => by
    have hn := (hout id (Nat.le_refl id)).trans hseen.node
    have hnode := Option.some.inj (hseen.node.symm.trans (sits_leaf.mp h))
    refine ⟨out.adjust id fun n => { n with toContent := g a (.leaf c) }, ?_, by simp, ?_, ?_⟩
    · simp [annotateAt_eq_ok hn (hf hseen), pure, Except.pure, bind, Except.bind]
    · rw [Tree.decorate_leaf, sits_leaf, node?_adjust_self, hn, hnode]
      rfl
    · intro i hi
      rw [Tree.size_leaf] at hi
      have hne : id ≠ i := by omega
      exact node?_adjust_of_ne out hne _
  | .node c ts, id, n, parent, prev, next, a, out, h, hseen, hroot, hout => by
    have hn := (hout id (Nat.le_refl id)).trans hseen.node
    obtain ⟨hnode, hts⟩ := sits_node.mp h
    have hnode' := Option.some.inj (hseen.node.symm.trans hnode)
    let mid := out.adjust id fun n => { n with toContent := g a (.node c ts) }
    have hmid : ∀ i, id + 1 ≤ i → mid.node? i = s.node? i := by
      intro i hi
      have hne : id ≠ i := by omega
      rw [node?_adjust_of_ne out hne _]
      exact hout i (by omega)
    obtain ⟨out', hfold, hsize, hsits, hframe⟩ :=
      hts.foldlM_annotateAt hf hnode rfl (by simp) (hroot.trans Option.isNone_iff_eq_none.symm)
        (Nat.succ_pos id) hmid
    have hself : out'.node? id = some { n with toContent := g a (.node c ts) } := by
      rw [hframe id (Or.inl (Nat.lt_succ_self id)), node?_adjust_self, hn]
      rfl
    refine ⟨out', ?_, by simpa [mid] using hsize, ?_, ?_⟩
    · rw [Tree.size_node, List.range'_succ, List.foldlM_cons, annotateAt_eq_ok hn (hf hseen)]
      exact hfold
    · rw [Tree.decorate_node, sits_node, rootIds_decorateAll, hself, hnode']
      exact ⟨rfl, hsits⟩
    · intro i hi
      rw [Tree.size_node] at hi
      have hne : id ≠ i := by omega
      rw [hframe i (by omega)]
      exact node?_adjust_of_ne out hne _
theorem SitsAll.foldlM_annotateAt (hf : s.Follows f g) :
    ∀ {ts : List Doc} {parent id : Nat} {n : Node} {prev : Option NodeId}
      {prevContent : Option Content} {isTop : Bool} {out : Store},
      s.SitsAll parent prev id ts → s.node? parent = some n → s.linked prev = .ok prevContent →
      (∀ i, prev = some i → ∀ t ∈ ts.head?, ∃ c x, prevContent = some c ∧
        s.place i = .ok ⟨c, some n.toContent, x, some t.label⟩) →
      (parent = 0 ↔ isTop = true) → 0 < id → (∀ i, id ≤ i → out.node? i = s.node? i) →
        ∃ out', (List.range' id (Tree.sizeAll ts)).foldlM (annotateAt f) out = .ok out' ∧
          out'.size = out.size ∧
          out'.SitsAll parent prev id (Tree.decorateAll g n.toContent isTop prevContent ts) ∧
          ∀ i, i < id ∨ id + Tree.sizeAll ts ≤ i → out'.node? i = out.node? i
  | [], _, _, _, _, _, _, out, _, _, _, _, _, _, _ =>
    ⟨out, by simp [pure, Except.pure], rfl, by simp, fun _ _ => rfl⟩
  | t :: ts, parent, id, n, prev, prevContent, isTop, out, h, hparent, hprev, hbefore, htop, hid,
      hout => by
    obtain ⟨ht, hts⟩ := sitsAll_cons.mp h
    have hplace := h.place hparent hprev
    have hseen : s.Seen id _ ⟨some n.toContent, isTop, prevContent, ts.head?.map Tree.label⟩ t :=
      { node := ht.node?
        content := rfl
        children := rfl
        parent := linked_eq_ok hparent
        prev := hprev
        next := by
          cases ts with
          | nil => rfl
          | cons u us => exact linked_eq_ok (sitsAll_cons.mp hts).1.node?
        top := by simpa using htop
        before := fun i hi => hbefore i hi t rfl
        behind := by
          intro i hi
          cases ts with
          | nil => simp at hi
          | cons u us =>
            obtain rfl : id + t.size = i := by simpa using hi
            exact ⟨u.label, _, rfl, hts.place hparent (linked_eq_ok ht.node?)⟩ }
    obtain ⟨mid, hfold, hsize, hsits, hframe⟩ :=
      ht.foldlM_annotateAt hf hseen (by simp; omega) hout
    have hmid : ∀ i, id + t.size ≤ i → mid.node? i = s.node? i := by
      intro i hi
      rw [hframe i (Or.inr hi)]
      exact hout i (by omega)
    -- The siblings are seen in `s`, not in `mid`, where the content of `t` is new already.
    have hbehind : ∀ i, some id = some i → ∀ u ∈ ts.head?, ∃ c x, some t.label = some c ∧
        s.place i = .ok ⟨c, some n.toContent, x, some u.label⟩ := by
      intro i hi u hu
      obtain rfl := Option.some.inj hi
      rw [Option.mem_def] at hu
      exact ⟨t.label, prevContent, rfl, by rw [hplace, hu]; rfl⟩
    obtain ⟨out', hfold', hsize', hsits', hframe'⟩ :=
      hts.foldlM_annotateAt hf hparent (linked_eq_ok ht.node?) hbehind htop (by omega) hmid
    refine ⟨out', ?_, hsize'.trans hsize, ?_, ?_⟩
    · rw [Tree.sizeAll_cons, ← List.range'_append_1, List.foldlM_append, hfold]
      exact hfold'
    · rw [Tree.decorateAll_cons, sitsAll_cons, Tree.size_decorate]
      refine ⟨?_, hsits'⟩
      have hempty : (Tree.decorateAll g n.toContent isTop (some t.label) ts).isEmpty =
          ts.isEmpty := by
        cases ts <;> simp
      rw [hempty]
      apply hsits.congr
      intro i _ hi
      rw [Tree.size_decorate] at hi
      exact hframe' i (Or.inl hi)
    · intro i hi
      rw [Tree.sizeAll_cons] at hi
      rw [hframe' i (by omega), hframe i (by omega)]
end

end

theorem isNone_of_linked {s : Store} {link : Option NodeId} {c : Option Content}
    (h : s.linked link = .ok c) : link.isNone = c.isNone := by
  cases link with
  | none =>
    rw [← Except.ok.inj h]
    rfl
  | some i =>
    rw [linked] at h
    cases hi : s.node i with
    | error e => simp [hi, Except.map] at h
    | ok n =>
      rw [hi, Except.map] at h
      rw [← Except.ok.inj h]
      rfl

/-- Annotating the store of a document is decorating the document. -/
theorem annotate_ofDoc {f : NodeId → Node → Except Error Content}
    {g : Surroundings → Doc → Content} {d : Doc} (hf : (ofDoc d).Follows f g) :
    (ofDoc d).annotate f = .ok (ofDoc (d.decorate g {})) := by
  have hsits := sits_ofDoc d
  have hseen : (ofDoc d).Seen 0 _ {} d :=
    { node := hsits.node?
      content := rfl
      children := rfl
      parent := rfl
      prev := rfl
      next := rfl
      top := by simp
      before := fun i hi => nomatch hi
      behind := fun i hi => nomatch hi }
  obtain ⟨out, hfold, hsize, hout, -⟩ :=
    hsits.foldlM_annotateAt hf hseen (by simp) fun i _ => rfl
  rw [annotate_eq, dfs_ofDoc, List.range_eq_range']
  simp only [Except.bind, hfold]
  rw [eq_ofDoc_of_sits hout (by rw [hsize, size_ofDoc, Tree.size_decorate])]

end Store

namespace Annotate

def rootNode (t : Doc) : Node := { t.label with children := t.children?.map (Store.rootIds 1) }

def displayContent (o : Options) (a : Surroundings) (t : Doc) : Content :=
  { t.label with notes := { t.label.notes with
      display := some (displayOf o t.label a.isTop a.prev) } }

def selfClosingContent (_ : Surroundings) (t : Doc) : Content :=
  { t.label with
    notes := { t.label.notes with isSelfClosing := some (isSelfClosing (rootNode t)) } }

def componentContent (src : Source) (_ : Surroundings) (t : Doc) : Content :=
  match t.label.kind with
  | .element e =>
    { t.label with
      kind := .element { e with hasComponentClosing := some (hasComponentClosing src e) } }
  | _ => t.label

/-- Whitespace between two neighbours below `parent` shows for both of them. -/
def keepsBetween (parent : Option Content) (c d : Content) : Bool :=
  Place.keepsTrailing { self := c, parent, next := some d } &&
    Place.keepsLeading { self := d, parent, prev := some c }

def boundaryContent (a : Surroundings) (t : Doc) : Content :=
  if a.parent.isNone then { t.label with notes := noteDangling (rootNode t) }
  else
    { t.label with notes := { noteDangling (rootNode t) with
        isLeadingSensitive := some <| match a.prev with
          | none => (a.place t.label).keepsLeading
          | some c => keepsBetween a.parent c t.label
        isTrailingSensitive := some <| match a.next with
          | none => (a.place t.label).keepsTrailing
          | some c => keepsBetween a.parent t.label c } }

theorem display_ofDoc (o : Options) (d : Doc) :
    display o (.ofDoc d) = .ok (.ofDoc (d.decorate (displayContent o) {})) := by
  apply Store.annotate_ofDoc
  intro id n a t h
  have htop : decide (n.parent = some 0) = a.isTop := by
    rw [Bool.eq_iff_iff, decide_eq_true_iff]
    exact h.top
  simp [h.prev, h.content, htop, displayContent, bind, Except.bind, pure, Except.pure]

theorem selfClosing_ofDoc (d : Doc) :
    selfClosing (.ofDoc d) = .ok (.ofDoc (d.decorate selfClosingContent {})) := by
  apply Store.annotate_ofDoc
  intro id n a t h
  have hclosing : isSelfClosing n = isSelfClosing (rootNode t) := by
    simp [isSelfClosing, rootNode, h.children, h.content]
  simp [hclosing, h.content, selfClosingContent]

theorem componentClosing_ofDoc (src : Source) (d : Doc) :
    componentClosing src (.ofDoc d) = .ok (.ofDoc (d.decorate (componentContent src) {})) := by
  apply Store.annotate_ofDoc
  intro id n a t h
  cases hkind : n.kind <;> simp [componentContent, ← h.content, hkind]

theorem noteDangling_eq {s : Store} {id : NodeId} {n : Node} {a : Surroundings} {t : Doc}
    (h : s.Seen id n a t) : noteDangling n = noteDangling (rootNode t) := by
  have hempty : n.children = some [] ↔ (rootNode t).children = some [] := by
    rw [h.children, rootNode, Store.map_rootIds_eq_nil, Store.map_rootIds_eq_nil]
  simp only [noteDangling, hempty, h.content]
  rfl

theorem boundary_ofDoc (d : Doc) :
    boundary (.ofDoc d) = .ok (.ofDoc (d.decorate boundaryContent {})) := by
  apply Store.annotate_ofDoc
  intro id n a t h
  have hbefore : forLinked (keepsBy (Checked.entry (preLikeTable (.ofDoc d))) .trailing (.ofDoc d))
      n.prev =
      .ok (a.prev.all fun c => Place.keepsTrailing ⟨c, a.parent, none, some t.label⟩) := by
    cases hp : n.prev with
    | none =>
      rw [Option.isNone_iff_eq_none.mp ((Store.isNone_of_linked h.prev).symm.trans (by simp [hp]))]
      rfl
    | some i =>
      obtain ⟨c, x, hc, hplace⟩ := h.before i hp
      simp only [forLinked, keepsBy_table_trailing hplace, hc]
      rfl
  have hbehind : forLinked (keepsBy (Checked.entry (preLikeTable (.ofDoc d))) .leading (.ofDoc d))
      n.next =
      .ok (a.next.all fun c => Place.keepsLeading ⟨c, a.parent, some t.label, none⟩) := by
    cases hp : n.next with
    | none =>
      rw [Option.isNone_iff_eq_none.mp ((Store.isNone_of_linked h.next).symm.trans (by simp [hp]))]
      rfl
    | some i =>
      obtain ⟨c, x, hc, hplace⟩ := h.behind i hp
      simp only [forLinked, keepsBy_table_leading hplace, hc]
      rfl
  simp only [Store.isNone_of_linked h.parent, noteDangling_eq h, h.content,
    keepsBy_table_leading h.place, keepsBy_table_trailing h.place, hbefore, hbehind, both_eq_ok,
    boundaryContent, bind, Except.bind, pure, Except.pure]
  by_cases hroot : a.parent.isNone = true
  case pos => simp only [hroot, ↓reduceIte]
  case neg =>
    have hleading : ((a.place t.label).keepsLeading &&
        a.prev.all fun c => Place.keepsTrailing ⟨c, a.parent, none, some t.label⟩) =
        match a.prev with
        | none => (a.place t.label).keepsLeading
        | some c => keepsBetween a.parent c t.label := by
      cases hprev : a.prev with
      | none => simp
      | some c =>
        rw [Option.all_some, Bool.and_comm, Surroundings.place, hprev]
        rfl
    have htrailing : ((a.place t.label).keepsTrailing &&
        a.next.all fun c => Place.keepsLeading ⟨c, a.parent, some t.label, none⟩) =
        match a.next with
        | none => (a.place t.label).keepsTrailing
        | some c => keepsBetween a.parent t.label c := by
      cases hnext : a.next with
      | none => simp
      | some c =>
        rw [Option.all_some, Surroundings.place, hnext]
        rfl
    simp only [hroot, Bool.false_eq_true, ↓reduceIte, hleading, htrailing]

end Annotate

namespace Pass

def apply (o : Options) : Pass → Doc → Doc
  | linefeed => Reshape.linefeed o.source
  | conditional => Reshape.conditional
  | cdata => Reshape.cdata
  | interpolation => if o.dialect.hasInterpolation then Reshape.interpolation o.source else id
  | whitespace => Reshape.whitespace o.source
  | display => Tree.decorate (Annotate.displayContent o) {}
  | selfClosing => Tree.decorate Annotate.selfClosingContent {}
  | componentClosing => Tree.decorate (Annotate.componentContent o.source) {}
  | boundary => Tree.decorate Annotate.boundaryContent {}
  | simpleElement => Reshape.simpleElement

def applyAll (o : Options) (ps : List Pass) (d : Doc) : Doc := ps.foldl (fun d p => p.apply o d) d

/-- The pass changes child lists under these options. -/
def rewrites (o : Options) : Pass → Bool
  | interpolation => o.dialect.hasInterpolation
  | linefeed | conditional | cdata | whitespace | simpleElement => true
  | display | selfClosing | componentClosing | boundary => false

/-- A pass that changes child lists does to any store what it does to the document in it. -/
theorem run_of_toDoc {o : Options} {s : Store} {p : Pass} {d : Doc} (hd : s.toDoc = .ok d)
    (hp : p.rewrites o = true) : p.run o s = .ok (.ofDoc (p.apply o d)) := by
  cases p with
  | linefeed => rw [run, exec, Store.rewrite_linefeed hd]; rfl
  | conditional => rw [run, exec, Store.rewrite_conditional hd]; rfl
  | cdata => rw [run, exec, Store.rewrite_cdata hd]; rfl
  | interpolation =>
    rw [rewrites] at hp
    rw [run, exec, if_pos hp, Store.rewrite_interpolation hd, apply, if_pos hp]
    rfl
  | whitespace => rw [run, exec, Store.rewrite_whitespace hd]; rfl
  | simpleElement => rw [run, exec, Store.rewrite_simpleElement hd]; rfl
  | _ => cases hp

section Annotations

variable (o : Options) (s : Store)

theorem map_silent {r : Except Error Store} :
    (r.map fun out => (([] : List Event), out)).map (·.2) = r := by
  cases r <;> rfl

theorem run_display : display.run o s = Annotate.display o s := map_silent
theorem run_selfClosing : selfClosing.run o s = Annotate.selfClosing s := map_silent
theorem run_componentClosing :
    componentClosing.run o s = Annotate.componentClosing o.source s := map_silent
theorem run_boundary : boundary.run o s = Annotate.boundary s := map_silent

theorem run_interpolation (h : ¬ o.dialect.hasInterpolation = true) :
    interpolation.run o s = .ok s := by
  rw [run, exec, if_neg h]
  rfl

end Annotations

theorem run_ofDoc (o : Options) (p : Pass) (d : Doc) :
    p.run o (.ofDoc d) = .ok (.ofDoc (p.apply o d)) := by
  by_cases hp : p.rewrites o = true
  · exact run_of_toDoc (Store.toDoc_ofDoc d) hp
  · cases p with
    | display => rw [run_display, Annotate.display_ofDoc]; rfl
    | selfClosing => rw [run_selfClosing, Annotate.selfClosing_ofDoc]; rfl
    | componentClosing => rw [run_componentClosing, Annotate.componentClosing_ofDoc]; rfl
    | boundary => rw [run_boundary, Annotate.boundary_ofDoc]; rfl
    | interpolation =>
      rw [rewrites] at hp
      rw [run_interpolation o _ hp, apply, if_neg hp]
      rfl
    | _ => exact absurd rfl hp

/-- Passes never fail on a laid out store, and what they do is what they do to its document. -/
theorem runAll_ofDoc (o : Options) (ps : List Pass) (d : Doc) :
    runAll o (.ofDoc d) ps = .ok (.ofDoc (applyAll o ps d)) := by
  induction ps generalizing d with
  | nil => rfl
  | cons p ps ih =>
    have hcons : runAll o (.ofDoc d) (p :: ps) = (p.run o (.ofDoc d)).bind (runAll o · ps) := rfl
    rw [hcons, run_ofDoc]
    exact ih (p.apply o d)

/-- What `f` tells of the document that a pass makes, node by node. -/
def shown {α : Type} (p : Pass) (o : Options) (s : Store) (f : Content → α) : List α :=
  ((p.run o s).toOption.bind fun out => out.toDoc.toOption).elim [] fun d => d.preorder.map f

theorem shown_eq {α : Type} {p : Pass} {o : Options} {s out : Store} {d : Doc}
    (hout : p.run o s = .ok out) (hd : out.toDoc = .ok d) (f : Content → α) :
    d.preorder.map f = p.shown o s f := by
  simp [shown, hout, hd, Except.toOption]

/-- The first pass lays the store out anew, so passes behind it are functions of the document. -/
theorem runAll_linefeed {s : Store} {d : Doc} (hd : s.toDoc = .ok d) (o : Options)
    (ps : List Pass) :
    runAll o s (linefeed :: ps) = .ok (.ofDoc (applyAll o (linefeed :: ps) d)) := by
  have hfirst : runAll o s (linefeed :: ps) = (linefeed.run o s).bind (runAll o · ps) := rfl
  rw [hfirst, run_of_toDoc hd rfl]
  exact runAll_ofDoc o ps (linefeed.apply o d)

end Pass

theorem prepare_eq (o : Options) (s : Store) :
    prepare o s = (s.checkSpans o.source).bind fun _ =>
      s.toDoc.map fun d => .ofDoc (Pass.applyAll o Pass.all d) := by
  cases hcheck : s.checkSpans o.source with
  | error e => rw [prepare, hcheck]; rfl
  | ok u =>
    obtain ⟨ids, hids, -⟩ := Checked.bind_eq_ok.mp hcheck
    obtain ⟨t, ht, -⟩ := Checked.bind_eq_ok.mp hids
    have hd : s.toDoc = .ok (t.map fun p => p.2.toContent) := by rw [Store.toDoc, ht]; rfl
    rw [prepare, hcheck, hd]
    exact Pass.runAll_linefeed hd o Pass.all.tail

/-- A document that is accepted is prepared by the passes on documents, whatever the store looked
like that held it. -/
theorem prepare_eq_ok {o : Options} {s out : Store} (h : prepare o s = .ok out) :
    ∃ d, s.toDoc = .ok d ∧ out = .ofDoc (Pass.applyAll o Pass.all d) := by
  rw [prepare_eq] at h
  cases hcheck : s.checkSpans o.source with
  | error e => simp [hcheck, Except.bind] at h
  | ok u =>
    cases hdoc : s.toDoc with
    | error e => simp [hcheck, hdoc, Except.bind, Except.map] at h
    | ok d =>
      simp only [hcheck, hdoc, Except.bind, Except.map, Except.ok.injEq] at h
      exact ⟨d, rfl, h.symm⟩

end Markup
