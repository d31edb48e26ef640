import Markup.Proofs.Conditions
import Markup.Proofs.WellFormed

/-! Passes in any order. Each of them keeps a store well formed: those that reshape the document lay
it out anew, and those that annotate it leave links and child lists alone and find all neighbours
that they look at. -/
namespace Markup

open Content Markup.Tree

theorem Kind.Similar.trans {k l m : Kind} (h : Similar k l) (h' : Similar l m) : Similar k m := by
  rcases h with rfl | ⟨x, y, rfl, rfl⟩ | ⟨e, closing, rfl, rfl⟩
  · exact h'
  · rcases h' with rfl | ⟨-, z, -, rfl⟩ | ⟨e, closing, he, -⟩
    · exact .inr (.inl ⟨x, y, rfl, rfl⟩)
    · exact .inr (.inl ⟨x, z, rfl, rfl⟩)
    · simp at he
  · rcases h' with rfl | ⟨y, z, hy, -⟩ | ⟨e', closing', he, rfl⟩
    · exact .inr (.inr ⟨e, closing, rfl, rfl⟩)
    · simp at hy
    · obtain rfl := Kind.element.inj he
      exact .inr (.inr ⟨e, closing', rfl, rfl⟩)

theorem Kind.Similar.root {k l : Kind} (h : Similar k l) (hk : k = .root) : l = .root := by
  rcases h with rfl | ⟨x, y, rfl, -⟩ | ⟨e, closing, rfl, -⟩
  · exact hk
  · simp at hk
  · simp at hk

theorem Kind.Similar.isContainer {k l : Kind} (h : Similar k l) : l.isContainer = k.isContainer :=
  h.congr (fun _ _ => rfl) fun _ _ => rfl

/-- What each step of a loop can do and keeps, the loop can do and keeps. -/
theorem exists_foldlM_eq_ok {α β ε : Type} {f : β → α → Except ε β} {P : β → Prop} {xs : List α}
    (hstep : ∀ x ∈ xs, ∀ b, P b → ∃ b', f b x = .ok b' ∧ P b') {b : β} (hb : P b) :
    ∃ b', xs.foldlM f b = .ok b' ∧ P b' := by
  induction xs generalizing b with
  | nil => exact ⟨b, rfl, hb⟩
  | cons x xs ih =>
    rw [List.forall_mem_cons] at hstep
    obtain ⟨next, hnext, hP⟩ := hstep.1 b hb
    rw [List.foldlM_cons, hnext]
    exact ih hstep.2 hP

namespace Store

variable {s out : Store} {id : NodeId} {f : NodeId → Node → Except Error Content}

/-- Contents are set anew with similar kinds. Links and child lists stay. -/
structure Revised (s out : Store) : Prop where
  size : out.size = s.size
  nodes : ∀ id n, s.node? id = some n →
    ∃ c, out.node? id = some { n with toContent := c } ∧ n.kind.Similar c.kind

theorem Revised.refl (s : Store) : s.Revised s := ⟨rfl, fun _ n hn => ⟨n.toContent, hn, .inl rfl⟩⟩

theorem Revised.exists_node (h : s.Revised out) {m : Node} (hm : out.node? id = some m) :
    ∃ n c, s.node? id = some n ∧ n.kind.Similar c.kind ∧ m = { n with toContent := c } := by
  obtain ⟨n, hn⟩ := exists_node?_of_lt (h.size ▸ lt_size_of_node? hm)
  obtain ⟨c, hc, hsimilar⟩ := h.nodes id n hn
  exact ⟨n, c, hn, hsimilar, Option.some.inj (hm.symm.trans hc)⟩

theorem Revised.lists (h : s.Revised out) : out.Lists = s.Lists := by
  funext i j
  apply propext
  constructor
  · rintro ⟨m, ids, hm, hids, hj⟩
    obtain ⟨n, c, hn, -, rfl⟩ := h.exists_node hm
    exact ⟨n, ids, hn, hids, hj⟩
  · rintro ⟨n, ids, hn, hids, hj⟩
    obtain ⟨c, hc, -⟩ := h.nodes i n hn
    exact ⟨_, ids, hc, hids, hj⟩

theorem Revised.placed (h : s.Revised out) {a b c : Option NodeId} (hid : s.Placed id a b c) :
    out.Placed id a b c := by
  obtain ⟨n, hn, hlinks⟩ := hid
  obtain ⟨d, hd, -⟩ := h.nodes id n hn
  exact ⟨_, hd, hlinks⟩

theorem Revised.wellFormed (h : s.Revised out) (hs : s.WellFormed) : out.WellFormed where
  root := by
    obtain ⟨n, hn, hkind⟩ := hs.root
    obtain ⟨c, hc, hsimilar⟩ := h.nodes 0 n hn
    exact ⟨_, hc, hsimilar.root hkind⟩
  rootFree := h.placed hs.rootFree
  planted := by
    refine ⟨?_, ?_, ?_, ?_⟩
    · rw [Reaches, h.lists, h.size]
      exact hs.planted.allocated
    · rw [Reaches, h.lists]
      intro i m ids hi hm hids
      obtain ⟨n, c, hn, -, rfl⟩ := h.exists_node hm
      exact hs.planted.nodup i n ids hi hn hids
    · rw [Reaches, h.lists]
      exact hs.planted.single
    · rw [Reaches, h.lists]
      exact hs.planted.unlisted
  linked := by
    intro i m before c after hm hids
    obtain ⟨n, d, hn, -, rfl⟩ := h.exists_node hm
    exact h.placed (hs.linked i n before c after hn hids)
  sorted := by
    intro i m hm
    obtain ⟨n, c, hn, hsimilar, rfl⟩ := h.exists_node hm
    exact (hs.sorted i n hn).trans hsimilar.isContainer.symm

theorem Revised.annotateAt (h : s.Revised out) {n : Node} (hn : s.node? id = some n)
    (hf : ∀ c, ∃ c', f id { n with toContent := c } = .ok c' ∧ c.kind.Similar c'.kind) :
    ∃ out', annotateAt f out id = .ok out' ∧ s.Revised out' := by
  obtain ⟨c, hc, hsimilar⟩ := h.nodes id n hn
  obtain ⟨c', hf', hsimilar'⟩ := hf c
  refine ⟨_, annotateAt_eq_ok hc hf', ?_, ?_⟩
  · rw [size_adjust, h.size]
  · intro i m hm
    rw [node?_adjust]
    split
    case isTrue hi =>
      subst hi
      obtain rfl : n = m := Option.some.inj (hn.symm.trans hm)
      exact ⟨c', by rw [hc]; rfl, hsimilar.trans hsimilar'⟩
    case isFalse => exact h.nodes i m hm

/-- Annotating a well-formed store revises it, if `f` answers below the root. -/
theorem WellFormed.annotate (h : s.WellFormed)
    (hf : ∀ id n, s.Reaches 0 id → s.node? id = some n →
      ∀ c, ∃ c', f id { n with toContent := c } = .ok c' ∧ c.kind.Similar c'.kind) :
    ∃ out, s.annotate f = .ok out ∧ out.WellFormed := by
  obtain ⟨d, ids, -, -, -, hdfs, hids⟩ := h.exists_toDoc
  have hstep : ∀ id ∈ ids, ∀ out, s.Revised out →
      ∃ out', Store.annotateAt f out id = .ok out' ∧ s.Revised out' := by
    intro id hid out hout
    obtain ⟨n, hn⟩ := exists_node?_of_lt (h.planted.allocated id (hids id hid))
    exact hout.annotateAt hn (hf id n (hids id hid) hn)
  obtain ⟨out, hout, hrevised⟩ := exists_foldlM_eq_ok hstep (Revised.refl s)
  refine ⟨out, ?_, hrevised.wellFormed h⟩
  rw [annotate_eq, hdfs]
  exact hout

end Store

namespace Annotate

variable {s : Store}

theorem wellFormed_display (o : Options) (h : s.WellFormed) :
    ∃ out, display o s = .ok out ∧ out.WellFormed := by
  apply h.annotate
  intro id n hid hn c
  obtain ⟨prev, hprev⟩ := h.exists_linked fun i hi => h.reaches_link hid hn (.inr (.inl hi))
  simp only [hprev, bind, Except.bind, pure, Except.pure, Except.ok.injEq, exists_eq_left']
  exact .inl rfl

theorem wellFormed_selfClosing (h : s.WellFormed) :
    ∃ out, selfClosing s = .ok out ∧ out.WellFormed :=
  h.annotate fun _ _ _ _ _ => ⟨_, rfl, .inl rfl⟩

theorem wellFormed_componentClosing (src : Source) (h : s.WellFormed) :
    ∃ out, componentClosing src s = .ok out ∧ out.WellFormed := by
  apply h.annotate
  intro id n _ _ c
  refine ⟨_, rfl, ?_⟩
  split
  case h_1 e hkind => exact .inr (.inr ⟨e, _, hkind, rfl⟩)
  case h_2 => exact .inl rfl

/-- Both neighbours of a node have their own neighbours, so all that a boundary depends on is
there. -/
theorem wellFormed_boundary (h : s.WellFormed) : ∃ out, boundary s = .ok out ∧ out.WellFormed := by
  apply h.annotate
  intro id n hid hn c
  have hkeeps : ∀ {link}, (∀ i, link = some i → s.Reaches 0 i) →
      (∃ b, forLinked (keepsBy (Checked.entry (preLikeTable s)) .leading s) link = .ok b) ∧
        ∃ b, forLinked (keepsBy (Checked.entry (preLikeTable s)) .trailing s) link = .ok b := by
    intro link hlink
    cases link with
    | none => exact ⟨⟨true, rfl⟩, true, rfl⟩
    | some i =>
      obtain ⟨p, hp⟩ := h.exists_place (hlink i rfl)
      simp [forLinked, keepsBy_table_leading hp, keepsBy_table_trailing hp]
  obtain ⟨p, hp⟩ := h.exists_place hid
  obtain ⟨-, b, hb⟩ := hkeeps fun i hi => h.reaches_link hid hn (.inr (.inl hi))
  obtain ⟨⟨a, ha⟩, -⟩ := hkeeps fun i hi => h.reaches_link hid hn (.inr (.inr hi))
  by_cases hparent : n.parent.isNone = true
  · simp only [hparent, ↓reduceIte, pure, Except.pure, Except.ok.injEq, exists_eq_left']
    exact .inl rfl
  · simp only [hparent, Bool.false_eq_true, ↓reduceIte, keepsBy_table_leading hp,
      keepsBy_table_trailing hp, hb, ha, both_eq_ok, bind, Except.bind, pure, Except.pure,
      Except.ok.injEq, exists_eq_left']
    exact .inl rfl

end Annotate

namespace Pass

variable {o : Options} {p : Pass} {s : Store} {d : Doc}

theorem shaped_apply (h : Everywhere Shaped d) : Everywhere Shaped (p.apply o d) := by
  by_cases hconditional : p = conditional
  case pos =>
    subst hconditional
    exact Reshape.shaped_conditional h
  case neg =>
    by_cases hsimple : p = simpleElement
    case pos =>
      subst hsimple
      exact Reshape.shaped_simpleElement h
    case neg => exact (carries_apply hconditional hsimple h).shaped _ List.mem_cons_self

theorem kind_label_reshape {f : Content → List Doc → Content × List Doc}
    (hkind : ∀ c us, (f c us).1.kind = c.kind) (d : Doc) :
    (d.reshape f).label.kind = d.label.kind := by
  cases d <;> simp [hkind]

theorem similar_label_apply (o : Options) (p : Pass) (d : Doc) :
    d.label.kind.Similar (p.apply o d).label.kind := by
  cases p with
  | linefeed => exact .inl (kind_label_reshape (fun _ _ => by rw [Reshape.fst_linefeedStep]) d)
  | conditional => exact .inl (kind_label_reshape (fun _ _ => rfl) d)
  | cdata => exact .inl (kind_label_reshape (fun _ _ => rfl) d)
  | interpolation =>
    rw [apply]
    split
    case isTrue => exact .inl (kind_label_reshape (fun _ _ => rfl) d)
    case isFalse => exact .inl rfl
  | whitespace =>
    refine .inl (kind_label_reshape (fun c us => ?_) d)
    obtain ⟨notes, hfst⟩ := Reshape.fst_whitespaceStep o.source c us
    rw [hfst]
  | display => exact (related_decorate (Annotate.alike_displayContent o) {} d).label.similar
  | selfClosing => exact (related_decorate Annotate.alike_selfClosingContent {} d).label.similar
  | componentClosing =>
    exact (related_decorate (Annotate.alike_componentContent o.source) {} d).label.similar
  | boundary => exact (related_decorate Annotate.alike_boundaryContent {} d).label.similar
  | simpleElement => exact .inl (kind_label_reshape (fun _ _ => rfl) d)

theorem wellFormed_apply (h : Everywhere Shaped d) (hroot : d.label.kind = .root) :
    (Store.ofDoc (p.apply o d)).WellFormed :=
  Store.wellFormed_ofDoc (shaped_apply h) ((similar_label_apply o p d).root hroot)

theorem wellFormed_run (o : Options) (p : Pass) (h : s.WellFormed) :
    ∃ out, p.run o s = .ok out ∧ out.WellFormed := by
  obtain ⟨d, -, hdoc, hroot, hshaped, -⟩ := h.exists_toDoc
  by_cases hp : p.rewrites o = true
  · exact ⟨_, run_of_toDoc hdoc hp, wellFormed_apply hshaped hroot⟩
  · cases p with
    | display => rw [run_display]; exact Annotate.wellFormed_display o h
    | selfClosing => rw [run_selfClosing]; exact Annotate.wellFormed_selfClosing h
    | componentClosing =>
      rw [run_componentClosing]
      exact Annotate.wellFormed_componentClosing o.source h
    | boundary => rw [run_boundary]; exact Annotate.wellFormed_boundary h
    | interpolation => exact ⟨s, run_interpolation o s hp, h⟩
    | _ => exact absurd rfl hp

theorem wellFormed_runAll (o : Options) (ps : List Pass) (h : s.WellFormed) :
    ∃ out, runAll o s ps = .ok out ∧ out.WellFormed :=
  exists_foldlM_eq_ok (fun p _ _ hs => wellFormed_run o p hs) h

end Pass

/-- Passes keep a built store well formed, in whatever order they run and however often. What is
prepared for printing has moreover no detached nodes, and is numbered in document order. -/
theorem passes_keep_wellFormed (o : Options) (s : Store) (hbuilt : s.Built) :
    (∀ ps, ∃ out, Pass.runAll o s ps = .ok out ∧ out.WellFormed) ∧
      (s.checkSpans o.source = .ok () → ∃ out, prepare o s = .ok out) ∧
      ∀ out, prepare o s = .ok out → out.WellFormed ∧ out.LaidOut := by
  have hruns := fun ps => Pass.wellFormed_runAll o ps hbuilt.wellFormed
  obtain ⟨out, hrun, hwell⟩ := hruns Pass.all
  refine ⟨hruns, ?_, ?_⟩
  · intro hcheck
    refine ⟨out, ?_⟩
    rw [prepare, hcheck]
    exact hrun
  · intro out' hout'
    obtain ⟨d, hdoc, rfl⟩ := prepare_eq_ok hout'
    have hsame := Pass.runAll_linefeed hdoc o Pass.all.tail
    obtain rfl := Except.ok.inj (hrun.symm.trans hsame)
    exact ⟨hwell, Store.laidOut_ofDoc _⟩

/-- The guarded element again, with a detached text and a node that hangs below itself. -/
def circledStore : Store :=
  guardedStore.growAll [(7, { kind := .interpolation }), (9, { kind := .text "y" })]

theorem passes_keep_wellFormed_circledStore :
    circledStore.Built ∧
      (∃ out, Pass.runAll { source := .ofString guardedText, dialect := .vue } circledStore
        [.boundary, .simpleElement, .display, .whitespace, .conditional, .interpolation, .boundary,
          .simpleElement, .linefeed] = .ok out ∧ out.WellFormed) ∧
      ∃ out, prepare { source := .ofString guardedText } circledStore = .ok out ∧
        out.WellFormed ∧ out.LaidOut := by
  have hbuilt : circledStore.Built := built_guardedStore.growAll _
  have hcheck : circledStore.checkSpans (.ofString guardedText) = .ok () := by decide +kernel
  refine ⟨hbuilt, (passes_keep_wellFormed _ _ hbuilt).1 _, ?_⟩
  obtain ⟨-, hprepared, hlaidOut⟩ :=
    passes_keep_wellFormed { source := .ofString guardedText } _ hbuilt
  obtain ⟨out, hout⟩ := hprepared hcheck
  exact ⟨out, hout, hlaidOut out hout⟩

end Markup
