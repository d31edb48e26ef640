import Markup.Proofs.Conditions
import Markup.Proofs.Independence
import Markup.Proofs.Planting

/-! What is refused. A document is refused for the first of its spans that does not fit the source,
and for nothing else. No pass fails on a document that is accepted, and no pass finds a closing tag
that cannot be read, since passes make up no closing tags. -/
namespace Markup

open Content Markup.Tree

namespace Source

variable {src : Source} {span : Span} {offset : Nat}

/-- The offset lies between two characters, or at an end of the text. -/
def IsBoundary (src : Source) (offset : Nat) : Prop :=
  ∃ before after, src.chars = before ++ after ∧ Text.byteLength before = offset

/-- The span lies in the text, and no character is cut by its ends. -/
structure Fits (src : Source) (span : Span) : Prop where
  ordered : span.start.offset ≤ span.stop.offset
  inside : span.stop.offset ≤ src.size
  start : src.IsBoundary span.start.offset
  stop : src.IsBoundary span.stop.offset

/-- The first of the spans that does not fit. -/
def FirstMisfit (src : Source) (spans : List Span) (bad : Span) : Prop :=
  ∃ before after, spans = before ++ bad :: after ∧ (∀ span ∈ before, src.Fits span) ∧ ¬ src.Fits bad

theorem isBoundary_iff_reads : src.IsBoundary offset ↔ src.Reads offset [] offset := by
  constructor
  · rintro ⟨before, after, hsrc, rfl⟩
    exact ⟨before, after, by simpa using hsrc, rfl, rfl⟩
  · rintro ⟨before, after, hsrc, rfl, -⟩
    exact ⟨before, after, by simpa using hsrc, rfl⟩

theorem fits_iff_holds : src.Fits span ↔ src.Holds span := by
  constructor
  · intro h
    have hstart := isBoundary_iff_reads.mp h.start
    exact hstart.between (isBoundary_iff_reads.mp h.stop) h.ordered
  · rintro ⟨cs, h⟩
    exact ⟨h.le, h.le_size, isBoundary_iff_reads.mpr h.start, isBoundary_iff_reads.mpr h.stop⟩

theorem exists_slice_iff_fits : (∃ text, src.slice span = .ok text) ↔ src.Fits span := by
  rw [fits_iff_holds]
  constructor
  · rintro ⟨text, htext⟩
    exact ⟨text.toList, slice_eq_ok_iff.mp htext⟩
  · rintro ⟨cs, hcs⟩
    exact exists_slice_eq_ok hcs

theorem slice_of_not_fits (h : ¬ src.Fits span) : src.slice span =
    .error (.spanOutOfBounds span.start.offset span.stop.offset src.size) := by
  rw [← exists_slice_iff_fits, not_exists] at h
  rw [slice] at h ⊢
  split
  case h_1 text htext => simp [htext] at h
  case h_2 => rfl

theorem forM_slice_cases (src : Source) (spans : List Span) :
    ((∀ span ∈ spans, src.Fits span) ∧
        spans.forM (fun span => (src.slice span).map fun _ => ()) = .ok ()) ∨
      ∃ bad, src.FirstMisfit spans bad ∧
        spans.forM (fun span => (src.slice span).map fun _ => ()) =
          .error (.spanOutOfBounds bad.start.offset bad.stop.offset src.size) := by
  induction spans with
  | nil => exact .inl ⟨by simp, rfl⟩
  | cons span spans ih =>
    by_cases hspan : src.Fits span
    case neg =>
      refine .inr ⟨span, ⟨[], spans, rfl, by simp, hspan⟩, ?_⟩
      simp only [List.forM, slice_of_not_fits hspan]
      rfl
    case pos =>
      obtain ⟨text, htext⟩ := exists_slice_iff_fits.mpr hspan
      have hcons : (span :: spans).forM (fun span => (src.slice span).map fun _ => ()) =
          spans.forM (fun span => (src.slice span).map fun _ => ()) := by
        simp only [List.forM, htext]
        rfl
      rw [hcons]
      rcases ih with ⟨hall, hforM⟩ | ⟨bad, ⟨before, after, rfl, hbefore, hbad⟩, hforM⟩
      · exact .inl ⟨List.forall_mem_cons.mpr ⟨hspan, hall⟩, hforM⟩
      · have hspans := List.forall_mem_cons.mpr ⟨hspan, hbefore⟩
        exact .inr ⟨bad, ⟨span :: before, after, rfl, hspans, hbad⟩, hforM⟩

end Source

theorem forM_flatMap {α β ε : Type} {g : α → List β} {f : β → Except ε Unit} (xs : List α) :
    (xs.forM fun x => (g x).forM f) = (xs.flatMap g).forM f := by
  induction xs with
  | nil => rfl
  | cons x xs ih =>
    rw [List.flatMap_cons]
    calc (g x).forM f >>= (fun _ => xs.forM fun x => (g x).forM f)
        = (g x).forM f >>= (fun _ => (xs.flatMap g).forM f) := by rw [ih]
      _ = (g x ++ xs.flatMap g).forM f := List.forM_append.symm

namespace Store

variable {s : Store}

theorem exists_nodes_of_toDoc {d : Doc} (h : s.toDoc = .ok d) :
    ∃ ids ns, s.dfs = .ok ids ∧ ids.mapM s.node = .ok ns ∧ ns.map (·.toContent) = d.preorder := by
  obtain ⟨t, ht, rfl⟩ := exists_unfold_of_toDoc h
  refine ⟨_, t.preorder.map Prod.snd, dfs_of_unfold ht, ?_, ?_⟩
  · rw [mapM_eq_ok_iff, List.forall₂_map_left_iff, List.forall₂_map_right_iff, List.forall₂_same]
    exact fun p hp => node_eq_ok (node?_of_unfoldFrom ht p hp)
  · rw [preorder_map, List.map_map]
    rfl

end Store

/-- All nodes of the document have kinds with this property. -/
abbrev Throughout (Q : Kind → Prop) : Doc → Prop := Everywhere fun t => Q t.label.kind

/-- A property of kinds that passes keep: texts and expressions have it, and so does an element
with a new opening tag or condition if it had it before. -/
structure Kind.Lasting (Q : Kind → Prop) : Prop where
  root : Q .root
  text : ∀ v, Q (.text v)
  interpolation : Q .interpolation
  similar : ∀ {k l}, k.Similar l → Q k → Q l
  guarded : ∀ {e : Element} openTag condition,
    Q (.element e) → Q (.element { e with openTag, condition })

section Lasting

variable {Q : Kind → Prop} {src : Source} {t u : Doc} {us : List Doc} {d : Doc}

theorem Kind.Lasting.setLabel (hQ : Lasting Q) {c : Content} (hkind : t.label.kind.Similar c.kind)
    (h : Throughout Q t) :
    Throughout Q (t.setLabel c) := by
  refine h.setLabel ?_
  rw [label_setLabel]
  exact hQ.similar hkind h.self

theorem everywhere_kind_reshape {f : Content → List Doc → Content × List Doc}
    (hkind : ∀ c us, (f c us).1.kind = c.kind)
    (hstep : ∀ c us, (∀ u ∈ us, Throughout Q u) →
      ∀ u ∈ (f c us).2, Throughout Q u)
    (h : Throughout Q d) :
    Throughout Q (d.reshape f) := by
  refine Everywhere.reshape (fun _ hc => hc) ?_ h
  intro c ts hself _ hus
  refine everywhere_node.mpr ⟨?_, hstep c _ hus⟩
  rw [label_node, hkind]
  exact hself

namespace Reshape

theorem lasting_linefeed (hQ : Kind.Lasting Q) (h : Throughout Q d) :
    Throughout Q (linefeed src d) := by
  refine everywhere_kind_reshape (fun c us => by rw [fst_linefeedStep]) ?_ h
  intro c us hus
  rcases snd_linefeedStep src c us with hsame | hdrop
  · rwa [hsame]
  · rw [hdrop]
    rcases dropLinefeed_cases src us with hsame |
      ⟨t, vs, v, rest, rfl, hkind, -, ⟨-, hdrop⟩ | hdrop⟩
    · rwa [hsame]
    · rw [hdrop]
      exact fun u hu => hus u (List.mem_cons_of_mem _ hu)
    · rw [List.forall_mem_cons] at hus
      rw [hdrop, List.forall_mem_cons]
      exact ⟨hQ.setLabel (.inr (.inl ⟨v, _, hkind, rfl⟩)) hus.1, hus.2⟩

theorem lasting_guard (hQ : Kind.Lasting Q) {g : Guard} (hguard : guard? t u = some g)
    (hu : Throughout Q u) :
    Throughout Q (g.fold u) := by
  obtain ⟨e, first, rest, -, -, -, helement, hchildren, -⟩ := guard?_eq_some hguard
  cases u with
  | leaf c => simp at hchildren
  | node c ts =>
    obtain rfl : ts = first :: rest := hchildren
    obtain ⟨hself, hts⟩ := everywhere_node.mp hu
    rw [label_node] at helement hself
    rw [helement] at hself
    rw [Guard.fold_node, take_element helement]
    exact everywhere_node.mpr ⟨hQ.guarded _ _ hself, (List.forall_mem_cons.mp hts).2⟩

theorem lasting_conditional (hQ : Kind.Lasting Q) (h : Throughout Q d) :
    Throughout Q (conditional d) := by
  refine everywhere_kind_reshape (fun _ _ => rfl) ?_ h
  intro c us hus
  change ∀ u ∈ foldGuards us, _
  fun_induction foldGuards us with
  | case1 => exact hus
  | case2 t => exact hus
  | case3 t u ts g hguard ih =>
    simp only [List.forall_mem_cons] at hus ⊢
    exact ⟨lasting_guard hQ hguard hus.2.1, ih hus.2.2⟩
  | case4 t u ts hguard ih =>
    rw [List.forall_mem_cons] at hus ⊢
    exact ⟨hus.1, ih hus.2⟩

theorem lasting_literal (hQ : Kind.Lasting Q) (h : Throughout Q t) :
    Throughout Q (literal t) := by
  rw [literal]
  split
  case h_1 => exact everywhere_leaf.mpr (hQ.text _)
  case h_2 => exact h

theorem lasting_coalesce (hQ : Kind.Lasting Q)
    (hus : ∀ u ∈ us, Throughout Q u) :
    ∀ u ∈ coalesce us, Throughout Q u :=
  forall_coalesce (fun _ v _ _ hv ht => hQ.setLabel (.inr (.inl ⟨v, _, hv, rfl⟩)) ht) hus

theorem lasting_cdata (hQ : Kind.Lasting Q) (h : Throughout Q d) :
    Throughout Q (cdata d) := by
  refine everywhere_kind_reshape (fun _ _ => rfl) ?_ h
  intro c us hus
  rw [cdataStep]
  split
  case isFalse => exact hus
  case isTrue =>
    apply lasting_coalesce hQ
    exact List.forall_mem_map.mpr fun u hu => lasting_literal hQ (hus u hu)

theorem lasting_textPiece (hQ : Kind.Lasting Q) {isFirst : Bool} {cs : List Char} {span : Span}
    (h : Throughout Q t) :
    Throughout Q (textPiece t isFirst cs span) := by
  cases t with
  | leaf c => exact everywhere_leaf.mpr (hQ.text _)
  | node c ts =>
    refine everywhere_node.mpr ⟨hQ.text _, ?_⟩
    split
    case isTrue => exact (everywhere_node.mp h).2
    case isFalse => exact List.forall_mem_map.mpr fun t _ => everywhere_leaf.mpr hQ.root

theorem lasting_pieces (hQ : Kind.Lasting Q) {isFirst : Bool} {cursor : Location}
    {segs : List Segment} (h : Throughout Q t) :
    ∀ u ∈ pieces src t isFirst cursor segs, Throughout Q u := by
  induction segs generalizing isFirst cursor with
  | nil => simp [pieces]
  | cons seg segs ih =>
    cases seg with
    | text cs =>
      rw [pieces]
      split
      case isTrue => exact ih
      case isFalse => exact List.forall_mem_cons.mpr ⟨lasting_textPiece hQ h, ih⟩
    | expression cs =>
      rw [pieces, List.forall_mem_cons]
      refine ⟨everywhere_node.mpr ⟨hQ.interpolation, ?_⟩, ih⟩
      simpa using hQ.text _

theorem lasting_interpolation (hQ : Kind.Lasting Q) (h : Throughout Q d) :
    Throughout Q (interpolation src d) := by
  refine everywhere_kind_reshape (fun _ _ => rfl) ?_ h
  intro c us hus
  rw [interpolationStep]
  split
  case isTrue => exact hus
  case isFalse =>
    intro v hv
    obtain ⟨u, hu, hvu⟩ := List.mem_flatMap.mp hv
    rw [splitText] at hvu
    split at hvu
    case h_2 => exact List.mem_singleton.mp hvu ▸ hus u hu
    case h_1 =>
      split at hvu
      case h_1 => exact List.mem_singleton.mp hvu ▸ hus u hu
      case h_2 => exact lasting_pieces hQ (hus u hu) v hvu

theorem lasting_whitespace (hQ : Kind.Lasting Q) (h : Throughout Q d) :
    Throughout Q (whitespace src d) := by
  refine everywhere_kind_reshape ?_ ?_ h
  · intro c us
    obtain ⟨notes, hfst⟩ := fst_whitespaceStep src c us
    rw [hfst]
  · intro c us hus
    rw [whitespaceStep]
    split
    case isTrue => simp
    case isFalse =>
      intro u hu
      obtain ⟨v, leading, trailing, hv, rfl⟩ := mem_settle hu
      obtain ⟨t, ht, rfl | hvt⟩ := mem_pieces hv
      · exact hQ.setLabel (.inl rfl) (hus v ht)
      · obtain ⟨c, rfl, hkind, -⟩ := exists_setLabel_of_mem_cut hvt
        exact hQ.setLabel (.inl rfl) (hQ.setLabel hkind (hus t ht))

theorem lasting_simpleElement (hQ : Kind.Lasting Q) (h : Throughout Q d) :
    Throughout Q (simpleElement d) :=
  everywhere_simpleElement (fun _ _ _ _ ht => ht)
    (fun _ _ _ hsimple ht => hQ.similar (similar_joinAcross hsimple).1 ht) h

end Reshape

theorem lasting_decorate (hQ : Kind.Lasting Q) {g : Surroundings → Doc → Content}
    (hg : ∀ a t, Alike t.label (g a t)) (h : Throughout Q d) :
    Throughout Q (d.decorate g {}) :=
  (related_decorate hg {} d).everywhere (fun _ _ htu ht => hQ.similar htu.label.similar ht) h

theorem Pass.lasting_apply (hQ : Kind.Lasting Q) (o : Options) (p : Pass)
    (h : Throughout Q d) :
    Throughout Q (p.apply o d) := by
  cases p with
  | linefeed => exact Reshape.lasting_linefeed hQ h
  | conditional => exact Reshape.lasting_conditional hQ h
  | cdata => exact Reshape.lasting_cdata hQ h
  | interpolation =>
    rw [apply]
    split
    case isTrue => exact Reshape.lasting_interpolation hQ h
    case isFalse => exact h
  | whitespace => exact Reshape.lasting_whitespace hQ h
  | display => exact lasting_decorate hQ (Annotate.alike_displayContent o) h
  | selfClosing => exact lasting_decorate hQ Annotate.alike_selfClosingContent h
  | componentClosing => exact lasting_decorate hQ (Annotate.alike_componentContent o.source) h
  | boundary => exact lasting_decorate hQ Annotate.alike_boundaryContent h
  | simpleElement => exact Reshape.lasting_simpleElement hQ h

theorem Pass.lasting_applyAll (hQ : Kind.Lasting Q) (o : Options) (ps : List Pass)
    (h : Throughout Q d) :
    Throughout Q (applyAll o ps d) := by
  induction ps generalizing d with
  | nil => exact h
  | cons p ps ih => exact ih (lasting_apply hQ o p h)

end Lasting

/-- The closing tag of an element of this kind can be read. -/
def Kind.Closes (src : Source) (k : Kind) : Prop :=
  ∀ e tag, k = .element e → e.closeTag = some tag → src.Fits tag

theorem Kind.lasting_closes (src : Source) : Lasting (Closes src) where
  root e tag hkind := by simp at hkind
  text v e tag hkind := by simp at hkind
  interpolation e tag hkind := by simp at hkind
  similar h hk := by
    rcases h with rfl | ⟨x, y, rfl, rfl⟩ | ⟨e, closing, rfl, rfl⟩
    · exact hk
    · intro e tag hkind
      simp at hkind
    · intro e' tag hkind
      obtain rfl := Kind.element.inj hkind
      exact hk e tag rfl
  guarded {e} openTag condition hk e' tag hkind := by
    obtain rfl := Kind.element.inj hkind
    exact hk e tag rfl

theorem Store.kind_of_reaches {Q : Kind → Prop} {s : Store} {d : Doc} {id : NodeId} {n : Node}
    (h : s.toDoc = .ok d) (hd : Throughout Q d) (hid : s.Reaches 0 id) (hn : s.node? id = some n) :
    Q n.kind := by
  obtain ⟨t, ht, rfl⟩ := exists_unfold_of_toDoc h
  obtain ⟨hbears, hlabel⟩ := bears_of_unfoldFrom ht
  have hreaches : s.Reaches (t.map fun p => (p.1, p.2.toContent)).label.1 id := by
    rwa [label_map, hlabel]
  have hmem := hbears.mem_ids_of_reaches hreaches
  rw [ids, preorder_map, List.map_map, List.mem_map] at hmem
  obtain ⟨p, hp, rfl⟩ := hmem
  obtain rfl := Option.some.inj (hn.symm.trans (node?_of_unfoldFrom ht p hp))
  have hcontent : p.2.toContent ∈ (t.map fun p => p.2.toContent).preorder := by
    rw [preorder_map]
    exact List.mem_map_of_mem hp
  rw [← map_label_subtrees] at hcontent
  obtain ⟨u, hu, hlabel⟩ := List.mem_map.mp hcontent
  exact hlabel ▸ hd u hu

/-- The passes up to any one of them succeed on a store that has a document. -/
theorem Pass.exists_runAll_take {s : Store} {d : Doc} (h : s.toDoc = .ok d) (o : Options)
    (k : Nat) :
    ∃ out, runAll o s (all.take k) = .ok out ∧ out.toDoc = .ok (applyAll o (all.take k) d) := by
  cases k with
  | zero => exact ⟨s, rfl, h⟩
  | succ k =>
    have htake : all.take (k + 1) = linefeed :: all.tail.take k := rfl
    refine ⟨_, ?_, Store.toDoc_ofDoc _⟩
    rw [htake, runAll_linefeed h]

/-- A store whose child lists are all there and run in no circle is prepared if all spans of its
document fit the source, and refused for the first one that does not. If all fit, every pass
succeeds and finds no closing tag that cannot be read. -/
theorem prepare_refuses_first_misfit (o : Options) (s : Store) (h : s.Rooted) :
    ∃ ids ns, s.dfs = .ok ids ∧ ids.mapM s.node = .ok ns ∧
      (((∀ span ∈ ns.flatMap fun n => n.spans, o.source.Fits span) ∧
          (∃ out, prepare o s = .ok out) ∧
          ∀ k, ∃ out, Pass.runAll o s (Pass.all.take k) = .ok out ∧
            ∀ id n, out.Reaches 0 id → out.node? id = some n → n.kind.Closes o.source) ∨
        ∃ bad, o.source.FirstMisfit (ns.flatMap fun n => n.spans) bad ∧ prepare o s =
          .error (.spanOutOfBounds bad.start.offset bad.stop.offset o.source.size)) := by
  obtain ⟨d, hd⟩ := Store.exists_toDoc_iff_rooted.mpr h
  obtain ⟨ids, ns, hdfs, hns, hcontents⟩ := Store.exists_nodes_of_toDoc hd
  have hspans : (ns.flatMap fun n => n.spans) = d.preorder.flatMap spans := by
    rw [← hcontents, List.flatMap_map]
  have hcheck := Store.checkSpans_of_toDoc hd o.source
  rw [forM_flatMap] at hcheck
  refine ⟨ids, ns, hdfs, hns, ?_⟩
  rw [hspans, prepare_eq, hcheck, hd]
  rcases o.source.forM_slice_cases (d.preorder.flatMap spans) with
    ⟨hall, hforM⟩ | ⟨bad, hbad, hforM⟩
  · left
    refine ⟨hall, ⟨_, by rw [hforM]; rfl⟩, ?_⟩
    intro k
    have hcloses : Throughout (Kind.Closes o.source) d := by
      intro t ht e tag hkind htag
      apply hall
      refine List.mem_flatMap.mpr ⟨t.label, ?_, ?_⟩
      · rw [← map_label_subtrees]
        exact List.mem_map_of_mem ht
      · simp [spans, hkind, htag]
    obtain ⟨out, hrun, hdoc⟩ := Pass.exists_runAll_take hd o k
    have hlast := Pass.lasting_applyAll (Kind.lasting_closes o.source) o (Pass.all.take k) hcloses
    exact ⟨out, hrun, fun id n hid hn => Store.kind_of_reaches hdoc hlast hid hn⟩
  · right
    refine ⟨bad, hbad, ?_⟩
    rw [hforM]
    rfl

/-- An element that is listed twice and whose closing tag begins inside a character. -/
def cutStore : Store :=
  let span (start stop : Nat) : Span := ⟨.ofOffset start, .ofOffset stop⟩
  let element : Element := { name := "b", openTag := span 0 1, closeTag := some (span 2 3) }
  ⟨#[{ kind := .root, span := span 0 3, children := some [1, 1, 2] },
     { kind := .element element, span := span 0 3, children := some [] },
     { kind := .text "\n", span := span 3 7 }]⟩

theorem prepare_refuses_first_misfit_cutStore :
    cutStore.Rooted ∧
      prepare { source := .ofString "aé" } cutStore = .error (.spanOutOfBounds 2 3 3) ∧
      ∃ ids ns bad, cutStore.dfs = .ok ids ∧ ids.mapM cutStore.node = .ok ns ∧
        (Source.ofString "aé").FirstMisfit (ns.flatMap fun n => n.spans) bad ∧
        bad.start.offset = 2 ∧ bad.stop.offset = 3 := by
  have hrooted : cutStore.Rooted := Store.exists_toDoc_iff_rooted.mp ⟨_, rfl⟩
  have hrefused : prepare { source := .ofString "aé" } cutStore =
      .error (.spanOutOfBounds 2 3 3) := by
    decide +kernel
  obtain ⟨ids, ns, hids, hns, ⟨-, ⟨out, hout⟩, -⟩ | ⟨bad, hbad, hout⟩⟩ :=
    prepare_refuses_first_misfit { source := .ofString "aé" } cutStore hrooted
  · simp [hrefused] at hout
  · rw [hrefused, Except.error.injEq, Error.spanOutOfBounds.injEq] at hout
    exact ⟨hrooted, hrefused, ids, ns, bad, hids, hns, hbad, hout.1.symm, hout.2.1.symm⟩

end Markup
