import Markup.Proofs.Numbering
import Markup.Proofs.Stages
import Markup.Proofs.WellFormed

/-! Drafts read back. A drafted document is written again from the slices of its text: leaves from
their spans, elements from their tags with their children in between. The slices follow one another,
so together they are the whole text. -/
namespace Markup

open Content Markup.Tree

theorem Text.fit_of_byteLength_le {cs : List Char} {n : Nat} (h : byteLength cs ≤ n) :
    fit n cs = cs := by
  induction cs generalizing n with
  | nil => rfl
  | cons c cs ih =>
    rw [byteLength_cons] at h
    rw [fit, if_pos (by omega), ih (by omega)]

namespace Source

theorem location_of_size_le {src : Source} {offset : Nat} (h : src.size ≤ offset) :
    src.location offset = src.location src.size := by
  have hlocate : src.locate offset = src.locate src.size := by
    simp only [locate, Nat.min_eq_right h, Nat.min_self]
  rw [locate_eq_ok, locate_eq_ok] at hlocate
  exact Except.ok.inj hlocate

/-- Lines and columns of the span are those of its offsets. -/
structure Locates (src : Source) (span : Span) : Prop where
  start : span.start = src.location span.start.offset
  stop : span.stop = src.location span.stop.offset

theorem location_offset_location (src : Source) (offset : Nat) :
    src.location (src.location offset).offset = src.location offset := by
  rw [location_offset]
  rcases Nat.le_total offset src.size with h | h
  · rw [Nat.min_eq_left h]
  · rw [Nat.min_eq_right h, location_of_size_le h]

theorem locates_span (src : Source) (start stop : Nat) : src.Locates (src.span start stop) :=
  ⟨(location_offset_location src start).symm, (location_offset_location src stop).symm⟩

end Source

/-- What is written behind the children of an element: its closing tag, unless its opening tag has
closed it already. -/
def Element.closing (src : Source) (e : Element) : Except Error String :=
  match e.closeTag with
  | some tag => if tag = e.openTag then .ok "" else src.slice tag
  | none => .ok ""

mutual
/-- Write a document from the slices of its source, in document order. -/
def emit (src : Source) : Doc → Except Error String
  | .leaf c => src.slice c.span
  | .node c ts =>
    match c.kind with
    | .element e => do
      let opening ← src.slice e.openTag
      let content ← emitAll src ts
      let closing ← e.closing src
      return opening ++ content ++ closing
    | _ => emitAll src ts
def emitAll (src : Source) : List Doc → Except Error String
  | [] => .ok ""
  | t :: ts => do
    let first ← emit src t
    let rest ← emitAll src ts
    return first ++ rest
end

/-- The children of a node follow one another through its content region without gap or overlap.
Where there is no such region there are no children. -/
structure Tiled (src : Source) (t : Doc) : Prop where
  filled : ∀ lo hi, t.label.region? src = some (lo, hi) → Chained Eq lo (t.children.map label) hi
  empty : t.label.region? src = none → t.children = []

/-- Children stand below elements only. -/
def Elemental (t : Doc) : Prop := t.children?.isSome = true → ∃ e, t.label.kind = .element e

section Emit

variable {src : Source} {a b : Nat} {t : Doc} {ts : List Doc} {c : Content} {e : Element}

theorem Packed.tiled {guarded : Bool} (h : Packed src [[]] guarded t) : Tiled src t where
  filled := by
    intro lo hi hregion
    obtain ⟨lead, hlead, mid, hreads, hchain⟩ := h.filled lo hi hregion
    obtain rfl := List.mem_singleton.mp hlead
    obtain rfl : mid = lo := hreads.stop_eq
    exact hchain
  empty := h.empty

theorem Source.Holds.slice {span : Span} (h : src.Holds span) : ∃ text,
    src.slice span = .ok text ∧ src.Reads span.start.offset text.toList span.stop.offset := by
  obtain ⟨cs, hcs⟩ := h
  obtain ⟨text, htext⟩ := Source.exists_slice_eq_ok hcs
  exact ⟨text, htext, Source.slice_eq_ok_iff.mp htext⟩

/-- Documents that follow one another are written as what stands between their ends. -/
theorem exists_emitAll (hts : ∀ t ∈ ts, ∃ text, emit src t = .ok text ∧
      src.Reads t.label.span.start.offset text.toList t.label.span.stop.offset)
    (hchain : Chained Eq a (ts.map label) b) (ha : src.Reads a [] a) :
    ∃ text, emitAll src ts = .ok text ∧ src.Reads a text.toList b := by
  induction ts generalizing a with
  | nil =>
    obtain rfl : a = b := hchain
    exact ⟨"", by rw [emitAll], ha⟩
  | cons t ts ih =>
    rw [List.forall_mem_cons] at hts
    obtain ⟨⟨first, hfirst, hreads⟩, hts⟩ := hts
    obtain ⟨rfl, hrest⟩ := hchain
    obtain ⟨rest, hemit, hreads'⟩ := ih hts hrest hreads.stop
    refine ⟨first ++ rest, by rw [emitAll, hfirst, hemit]; rfl, ?_⟩
    rw [String.toList_append]
    exact hreads.append hreads'

theorem exists_closing (h : e.Framed src c.span) (hc : src.Holds c.span)
    (hne : e.closeTag ≠ some e.openTag) : ∃ text, e.closing src = .ok text ∧
      src.Reads ((e.closeTag.map fun tag => tag.start.offset).getD c.span.stop.offset) text.toList
        c.span.stop.offset := by
  rw [Element.closing]
  cases htag : e.closeTag with
  | none =>
    obtain ⟨cs, hcs⟩ := hc
    exact ⟨"", rfl, hcs.stop⟩
  | some tag =>
    obtain ⟨hholds, hstop, -⟩ := h.close tag htag
    obtain ⟨text, htext, hreads⟩ := hholds.slice
    have hother : tag ≠ e.openTag := fun hsame => hne (by rw [htag, hsame])
    exact ⟨text, by simp only [hother, ↓reduceIte, htext], hstop ▸ hreads⟩

theorem exists_emit_element (hkind : c.kind = .element e)
    (h : Packed src [[]] false (.node c ts)) (hts : ∀ t ∈ ts, ∃ text, emit src t = .ok text ∧
      src.Reads t.label.span.start.offset text.toList t.label.span.stop.offset) :
    ∃ text, emit src (.node c ts) = .ok text ∧
      src.Reads c.span.start.offset text.toList c.span.stop.offset := by
  have hframed := h.framed.element hkind
  obtain ⟨opening, hopening, hreads⟩ := hframed.holds.slice
  rw [hframed.start_eq] at hreads
  by_cases hsame : e.closeTag = some e.openTag
  case pos =>
    have hregion : c.region? src = none := by simp [region?, hkind, hsame]
    obtain rfl : ts = [] := h.tiled.empty hregion
    have hstop : e.openTag.stop.offset = c.span.stop.offset := (hframed.close _ hsame).2.1
    refine ⟨opening, ?_, hstop ▸ hreads⟩
    rw [emit, hkind]
    simp [hopening, emitAll, Element.closing, hsame, bind, Except.bind, pure, Except.pure]
  case neg =>
    have hregion : c.region? src = some (e.openTag.stop.offset,
        (e.closeTag.map fun tag => tag.start.offset).getD c.span.stop.offset) := by
      simp [region?, hkind, hsame]
    have hchain := h.tiled.filled _ _ hregion
    obtain ⟨content, hcontent, hreads'⟩ := exists_emitAll hts hchain hreads.stop
    obtain ⟨closing, hclosing, hreads''⟩ := exists_closing hframed h.framed.1 hsame
    refine ⟨opening ++ content ++ closing, ?_, ?_⟩
    · rw [emit, hkind]
      simp [hopening, hcontent, hclosing, bind, Except.bind, pure, Except.pure]
    · rw [String.toList_append, String.toList_append]
      exact (hreads.append hreads').append hreads''

theorem exists_emit (h : Everywhere (Packed src [[]] false) t)
    (helemental : Everywhere Elemental t) :
    ∃ text, emit src t = .ok text ∧
      src.Reads t.label.span.start.offset text.toList t.label.span.stop.offset := by
  induction t using Tree.induct with
  | leaf c =>
    obtain ⟨text, htext, hreads⟩ := Source.Holds.slice h.self.framed.1
    exact ⟨text, by rw [emit]; exact htext, hreads⟩
  | node c ts ih =>
    obtain ⟨hself, hts⟩ := everywhere_node.mp h
    obtain ⟨helement, helements⟩ := everywhere_node.mp helemental
    obtain ⟨e, hkind⟩ := helement rfl
    exact exists_emit_element hkind hself fun t ht => ih t ht (hts t ht) (helements t ht)

/-- What stands below the root is the whole text. -/
theorem emit_root (hkind : c.kind = .root) (h : Everywhere (Packed src [[]] false) (.node c ts))
    (helemental : ∀ t ∈ ts, Everywhere Elemental t) :
    emit src (.node c ts) = .ok (String.ofList src.chars) := by
  obtain ⟨hself, hts⟩ := everywhere_node.mp h
  have hregion : c.region? src = some (0, src.size) := by simp [region?, hkind]
  have hchain := hself.tiled.filled _ _ hregion
  obtain ⟨text, htext, hreads⟩ := exists_emitAll
    (fun t ht => exists_emit (hts t ht) (helemental t ht)) hchain src.reads_all.start
  rw [emit, hkind]
  simp only [htext]
  rw [← hreads.unique src.reads_all, String.ofList_toList]

end Emit

namespace Outline

open Draft (resolve)

variable {src : Source} {o : Outline} {t : Doc}

/-- All finished nodes with children are elements. -/
structure Elemental (o : Outline) : Prop where
  top : ∀ t ∈ o.top, Everywhere Markup.Elemental t
  frames : ∀ f ∈ o.frames, ∀ t ∈ f.children, Everywhere Markup.Elemental t

theorem Elemental.push (h : o.Elemental) (ht : Everywhere Markup.Elemental t) :
    (o.push t).Elemental := by
  rw [Outline.push]
  split
  case h_1 => exact ⟨by simpa [or_imp, forall_and] using ⟨h.top, ht⟩, h.frames⟩
  case h_2 f fs hframes =>
    have hall := h.frames
    rw [hframes, List.forall_mem_cons] at hall
    refine ⟨h.top, List.forall_mem_cons.mpr ⟨?_, hall.2⟩⟩
    simpa [or_imp, forall_and] using ⟨hall.1, ht⟩

theorem Elemental.leaf (h : o.Elemental) (kind : Kind) (markup : String) :
    (o.leaf kind markup).Elemental :=
  Elemental.push ⟨h.top, h.frames⟩ (everywhere_leaf.mpr nofun)

theorem Elemental.emptyElement (h : o.Elemental) (name markup : String) (isClosed : Bool) :
    (o.emptyElement name markup isClosed).Elemental :=
  Elemental.push ⟨h.top, h.frames⟩ (everywhere_node.mpr ⟨fun _ => ⟨_, rfl⟩, by simp⟩)

theorem Elemental.pop (h : o.Elemental) (closeTag : Option Span) : (o.pop closeTag).Elemental := by
  rw [Outline.pop]
  split
  case h_1 => exact h
  case h_2 f fs hframes =>
    have hall := h.frames
    rw [hframes, List.forall_mem_cons] at hall
    exact Elemental.push ⟨h.top, hall.2⟩ (everywhere_node.mpr ⟨fun _ => ⟨_, rfl⟩, hall.1⟩)

theorem Elemental.closeWith (h : o.Elemental) (tag : String) : (o.closeWith tag).Elemental :=
  Elemental.pop (o := (o.write tag).1) ⟨h.top, h.frames⟩ _

theorem Elemental.step (h : o.Elemental) (s : Step) : (o.step s).Elemental := by
  cases s with
  | openTag name attrs => exact ⟨h.top, List.forall_mem_cons.mpr ⟨by simp, h.frames⟩⟩
  | close => exact h.closeWith _
  | closeWith tag => exact h.closeWith tag
  | closeImplied => exact h.pop none
  | void name => exact h.emptyElement _ _ _
  | selfClosing name => exact h.emptyElement _ _ _
  | _ => exact h.leaf _ _

theorem Elemental.run (h : o.Elemental) (steps : List Step) : (o.run steps).Elemental := by
  induction steps generalizing o with
  | nil => exact h
  | cons s steps ih => exact ih (h.step s)

theorem Elemental.closeAll (h : o.Elemental) (n : Nat) : (o.closeAll n).Elemental := by
  induction n generalizing o with
  | zero => exact h
  | succ n ih => exact ih (h.pop none)

theorem elemental_resolve (h : Everywhere Markup.Elemental t) :
    Everywhere Markup.Elemental (t.map (resolve src)) := by
  induction t using Tree.induct with
  | leaf c => exact everywhere_leaf.mpr nofun
  | node c ts ih =>
    obtain ⟨hself, hts⟩ := everywhere_node.mp h
    obtain ⟨e, hkind⟩ := hself rfl
    rw [map_node, everywhere_node, List.forall_mem_map]
    exact ⟨fun _ => ⟨_, kind_resolve hkind⟩, fun t ht => ih t ht (hts t ht)⟩

theorem elemental_children_toDoc (steps : List Step) :
    ∀ t ∈ (run {} steps).toDoc.children, Everywhere Markup.Elemental t := by
  have hempty : ({} : Outline).Elemental := ⟨by simp, by simp⟩
  have hclosed := (hempty.run steps).closeAll (run {} steps).frames.length
  exact List.forall_mem_map.mpr fun t ht => elemental_resolve (hclosed.top t ht)

theorem locates_resolve (src : Source) (c : Content) :
    ∀ span ∈ (resolve src c).spans, src.Locates span := by
  cases hkind : c.kind with
  | element e =>
    intro span hspan
    rw [Content.spans, kind_resolve hkind] at hspan
    simp only [List.mem_cons, Option.mem_toList, resolveTags, Option.map_eq_some_iff] at hspan
    rcases hspan with rfl | rfl | ⟨tag, -, rfl⟩ <;> exact Source.locates_span src _ _
  | _ =>
    intro span hspan
    simp only [Content.spans, resolve, hkind, List.mem_singleton] at hspan
    rw [hspan]
    exact Source.locates_span src _ _

/-- All spans of a drafted document have their lines and columns from the finished text. -/
theorem locates_toDoc (o : Outline) : ∀ c ∈ o.toDoc.preorder, ∀ span ∈ c.spans,
    (Source.ofString o.text).Locates span := by
  rw [toDoc, text_closeAll, preorder_node, List.forall_mem_cons]
  constructor
  · intro span hspan
    rw [List.mem_singleton.mp hspan]
    exact Source.locates_span _ _ _
  · intro c hc
    obtain ⟨u, hu, hcu⟩ := List.mem_flatMap.mp hc
    obtain ⟨t, -, rfl⟩ := List.mem_map.mp hu
    rw [preorder_map] at hcu
    obtain ⟨c, -, rfl⟩ := List.mem_map.mp hcu
    exact locates_resolve _ c

end Outline

/-- A draft reads back. Its document is written as its text, children tile the content of their
parents, nodes are numbered in document order and linked as they are listed, and spans have their
lines and columns from the text and can be read in it. There is one node for each step that writes
one, and the number that the step has handed out is the number of this node. -/
theorem drafts_read_back (steps : List Step) (hsteps : Step.balanced 0 steps = true) (text : String)
    (s : Store) (hfinish : (Draft.run {} steps).finish = (text, s)) :
    (∃ d, s.toDoc = .ok d ∧ emit (.ofString text) d = .ok text ∧
      Everywhere (Tiled (.ofString text)) d ∧ s.WellFormed ∧ s.LaidOut ∧
      (∀ id n, s.node? id = some n → ∀ span ∈ n.spans, (Source.ofString text).Locates span) ∧
      s.checkSpans (.ofString text) = .ok ()) ∧
    s.size = steps.countP (fun step => step.kind?.isSome) + 1 ∧
    Draft.numbers {} steps = Step.numbers [] 1 steps ∧
    ∀ step id kind, (step, id) ∈ steps.zip (Draft.numbers {} steps) → step.kind? = some kind →
      ∃ n, s.node? id = some n ∧ n.kind.untagged = kind := by
  have hsame := (Draft.run {} steps).sameKinds_finish
  rw [hfinish] at hsame
  refine ⟨?_, ?_, Draft.numbers_eq {} steps, ?_⟩
  · rw [Draft.finish_run] at hfinish
    obtain ⟨rfl, rfl⟩ := Prod.mk.inj hfinish
    have hpacked := Outline.packed_toDoc hsteps rfl
    refine ⟨(Outline.run {} steps).toDoc, Store.toDoc_ofDoc _, ?_, ?_, ?_, Store.laidOut_ofDoc _,
      ?_, ?_⟩
    · have hemit := emit_root rfl hpacked (Outline.elemental_children_toDoc steps)
      rwa [Source.ofString, String.ofList_toList] at hemit
    · exact hpacked.mono fun t ht => ht.tiled
    · exact Store.wellFormed_ofDoc (hpacked.mono fun t ht => ht.shape) rfl
    · intro id n hn
      obtain ⟨t, ht, hcontent, -⟩ := Store.node?_ofDoc hn
      have hmem : t.label ∈ (Outline.run {} steps).toDoc.preorder := by
        rw [← map_label_subtrees]
        exact List.mem_map_of_mem ht
      rw [hcontent]
      exact Outline.locates_toDoc _ t.label hmem
    · exact checkSpans_of_housed (hpacked.mono fun t ht => ht.toHoused)
  · rw [hsame.size, Draft.size_store_run, Nat.add_comm]
    rfl
  · intro step id kind hmem hkind
    have hnode := (hsame.kinds id).trans (Draft.kindAt_of_mem_zip hmem hkind)
    exact Option.map_eq_some_iff.mp hnode

/-- A draft with elements that are closed by their own tag, by another one, by none and not
at all. -/
def openEndedSteps : List Step :=
  [.doctype "DOCTYPE html", .openTag "svg:g" [{ name := "id", value := "é" }], .text "ü\n",
   .selfClosing "use", .openTag "p" [], .void "br", .openTag "li" [], .closeImplied,
   .closeWith "</P >", .close, .closeImplied, .openTag "b" [], .text ""]

theorem drafts_read_back_openEndedSteps :
    Step.balanced 0 openEndedSteps = true ∧
      (Draft.run {} openEndedSteps).finish.1 =
        "<!DOCTYPE html><svg:g id=\"é\">ü\n<use /><p><br><li></P ></svg:g><b>" ∧
      Draft.numbers {} openEndedSteps = [1, 2, 3, 4, 5, 6, 7, 7, 5, 2, 0, 8, 9] ∧
      ∃ text s, (Draft.run {} openEndedSteps).finish = (text, s) ∧
        (∃ d, s.toDoc = .ok d ∧ emit (.ofString text) d = .ok text ∧
          Everywhere (Tiled (.ofString text)) d ∧ s.WellFormed ∧ s.LaidOut ∧
          (∀ id n, s.node? id = some n → ∀ span ∈ n.spans, (Source.ofString text).Locates span) ∧
          s.checkSpans (.ofString text) = .ok ()) ∧
        s.size = 10 ∧
        ∀ step id kind, (step, id) ∈ openEndedSteps.zip (Draft.numbers {} openEndedSteps) →
          step.kind? = some kind → ∃ n, s.node? id = some n ∧ n.kind.untagged = kind := by
  obtain ⟨hreads, hsize, hnumbers, hkinds⟩ :=
    drafts_read_back openEndedSteps (by decide) _ _ rfl
  exact ⟨by decide, by decide +kernel, hnumbers, _, _, rfl, hreads, hsize, hkinds⟩

end Markup
