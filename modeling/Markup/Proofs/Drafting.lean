import Markup.Proofs.Outline
import Markup.Proofs.Packing

/-! Drafts build packed documents. Whatever the steps, every open element reads its opening tag, its
children so far follow that tag, and the text ends behind the last of them. -/
namespace Markup

/-- No step closes an element with a tag while none is open; `depth` elements are open at first. -/
def Step.balanced : Nat → List Step → Bool
  | _, [] => true
  | depth, .openTag _ _ :: steps => balanced (depth + 1) steps
  | depth, .close :: steps | depth, .closeWith _ :: steps => depth ≠ 0 && balanced (depth - 1) steps
  | depth, .closeImplied :: steps => balanced (depth - 1) steps
  | depth, _ :: steps => balanced depth steps

namespace Outline

open Content Markup.Tree
open Draft (startTag splitName element single resolve)

/-- An element whose opening tag alone is written. -/
structure Opened (src : Source) (f : Frame) : Prop where
  openTag : f.element.openTag = f.span
  condition : f.element.condition = none
  reads : src.Reads f.span.start.offset (startTag f.element.fullName f.element.attrs ">").toList
    f.span.stop.offset

/-- Finished nodes fill the stretch from `a` to `b`. -/
def Fills (src : Source) (a : Nat) (ts : List Doc) (b : Nat) : Prop :=
  Chained Eq a (ts.map label) b ∧ ∀ t ∈ ts, Everywhere (Packed src [[]] false) t

/-- The open elements and their finished children follow one another up to `b`. -/
def Stacked (src : Source) (top : List Doc) : List Frame → Nat → Prop
  | [], b => Fills src 0 top b
  | f :: fs, b =>
    Opened src f ∧ Fills src f.span.stop.offset f.children b ∧
      Stacked src top fs f.span.start.offset

/-- The text is the front of the source, and all nodes stand where it was written. -/
structure Standing (src : Source) (o : Outline) : Prop where
  text : o.text.toList <+: src.chars
  stacked : Stacked src o.top o.frames o.size

variable {src : Source} {o : Outline} {t : Doc} {a b : Nat}

theorem size_eq (o : Outline) : o.size = Text.byteLength o.text.toList := by
  rw [size, Text.byteLength_toList]

theorem reads_write {markup : String} (h : (o.write markup).1.text.toList <+: src.chars) :
    src.Reads o.size markup.toList (o.write markup).1.size := by
  obtain ⟨rest, hrest⟩ := h
  refine ⟨o.text.toList, rest, ?_, (size_eq o).symm, ?_⟩
  · rw [← hrest, write, String.toList_append]
  · rw [size_eq, size_eq, write, String.toList_append, Text.byteLength_append]

theorem Fills.concat {ts : List Doc} (h : Fills src a ts t.label.span.start.offset)
    (ht : Everywhere (Packed src [[]] false) t) :
    Fills src a (ts ++ [t]) t.label.span.stop.offset := by
  refine ⟨?_, by simpa [or_imp, forall_and] using ⟨h.2, ht⟩⟩
  rw [List.map_append, chained_eq_append]
  exact ⟨_, h.1, rfl, rfl⟩

theorem Stacked.push (h : Stacked src o.top o.frames t.label.span.start.offset)
    (ht : Everywhere (Packed src [[]] false) t) :
    Stacked src (o.push t).top (o.push t).frames t.label.span.stop.offset := by
  rw [Outline.push]
  split
  case h_1 hframes =>
    rw [hframes] at h ⊢
    exact Fills.concat h ht
  case h_2 f fs hframes =>
    rw [hframes] at h
    exact ⟨⟨h.1.openTag, h.1.condition, h.1.reads⟩, h.2.1.concat ht, h.2.2⟩

theorem splitName_cases (name : String) : splitName name = (none, name) ∨
    ∃ front rest, splitName name = (some front, rest) ∧ front ++ ":" ++ rest = name := by
  unfold splitName
  split
  case h_1 => exact .inl rfl
  case h_2 c rest hdrop =>
    have hcolon := List.head?_dropWhile_not (fun c => decide (c ≠ ':')) name.toList
    have hname := List.takeWhile_append_dropWhile
      (p := fun c => decide (c ≠ ':')) (l := name.toList)
    rw [hdrop] at hcolon hname
    obtain rfl : c = ':' := by simpa using hcolon
    refine .inr ⟨_, _, rfl, ?_⟩
    apply String.toList_injective
    simpa using hname

theorem fullName_element (name : String) (attrs : List Attribute) (span : Span) :
    (element name attrs span).fullName = name := by
  rw [element, Element.fullName]
  rcases splitName_cases name with hsplit | ⟨front, rest, hsplit, hname⟩
  · rw [hsplit]
  · rw [hsplit, ← hname]

theorem byteLength_startTag_pos (name stop : String) (attrs : List Attribute) :
    0 < Text.byteLength (startTag name attrs stop).toList := by
  have hfirst : startTag name attrs stop = "<" ++ (name ++ String.join (attrs.map fun a =>
      " " ++ a.name ++ "=\"" ++ a.value ++ "\"") ++ stop) := by
    simp [startTag, String.append_assoc]
  have hpos : 0 < Text.byteLength "<".toList := by decide
  rw [hfirst, String.toList_append, Text.byteLength_append]
  omega

theorem Opened.lt {f : Frame} (h : Opened src f) : f.span.start.offset < f.span.stop.offset := by
  have hpos := byteLength_startTag_pos f.element.fullName ">" f.element.attrs
  have hstop := h.reads.stop_eq
  omega

/-- An element is packed once it is closed, with a tag behind its last child or without one. -/
theorem packed_close {f : Frame} {closeTag : Option Span} {stop : Location}
    (hf : Opened src f) (hfill : Fills src f.span.stop.offset f.children a)
    (hend : (closeTag.map fun tag => tag.start.offset).getD stop.offset = a)
    (htag : ∀ tag, closeTag = some tag → src.Holds tag ∧ tag.stop.offset = stop.offset)
    (hstop : src.Reads stop.offset [] stop.offset) :
    Everywhere (Packed src [[]] false)
      (.node { kind := .element { f.element with closeTag }, span := { f.span with stop } }
        f.children) := by
  have hholds : ∀ c ∈ f.children.map label, src.Holds c.span := by
    simp only [List.forall_mem_map]
    exact fun t ht => (hfill.2 t ht).self.framed.1
  have hle := hfill.1.le hholds
  have hlt := hf.lt
  have hstart : ∀ tag, closeTag = some tag → tag.start.offset = a := by
    rintro tag rfl
    exact hend
  have hlast : a ≤ stop.offset := by
    cases hclose : closeTag with
    | none =>
      rw [hclose] at hend
      exact Nat.le_of_eq hend.symm
    | some tag =>
      have htagle := (htag tag hclose).1.le
      rwa [hstart tag hclose, (htag tag hclose).2] at htagle
  have htags : closeTag ≠ some f.element.openTag := by
    intro hclose
    have hsame := hstart _ hclose
    rw [hf.openTag] at hsame
    omega
  have hframed : Element.Framed src { f.span with stop } { f.element with closeTag } := by
    refine ⟨⟨_, hf.openTag ▸ hf.reads⟩, by simp [hf.openTag], by simpa [hf.openTag] using hlt,
      by simp [hf.openTag]; omega, ?_⟩
    intro tag hclose
    refine ⟨(htag tag hclose).1, (htag tag hclose).2, .inr ?_⟩
    rw [hstart tag hclose]
    simpa [hf.openTag] using hle
  obtain ⟨cs, hspan⟩ := hf.reads.start.between hstop (by omega)
  rw [everywhere_node]
  refine ⟨⟨⟨rfl, ⟨⟨cs, hspan⟩, hframed⟩, ?_⟩, ⟨fun _ => hf.condition, ?_⟩, ?_⟩, hfill.2⟩
  · intro hregion
    simp [region?, htags] at hregion
  · have hopening : Element.opening { f.element with closeTag } =
        startTag f.element.fullName f.element.attrs ">" := by
      have hcondition : { f.element with closeTag : Element }.condition = none := hf.condition
      rw [Element.opening_of_condition hcondition, if_neg htags]
      rfl
    rw [hopening]
    exact hf.openTag ▸ hf.reads
  · intro lo hi hregion
    obtain ⟨-, rfl, rfl⟩ := (region?_element rfl).mp hregion
    refine ⟨[], by simp, _, hf.openTag ▸ hf.reads.stop, ?_⟩
    simpa [hf.openTag, hend] using hfill.1

theorem packed_selfClosing {e : Element} {span : Span} (hopen : e.openTag = span)
    (hclose : e.closeTag = some span) (hcondition : e.condition = none)
    (hreads : src.Reads span.start.offset (startTag e.fullName e.attrs " />").toList
      span.stop.offset) :
    Everywhere (Packed src [[]] false) (.node { kind := .element e, span } []) := by
  subst hopen
  have hpos := byteLength_startTag_pos e.fullName " />" e.attrs
  have hstop := hreads.stop_eq
  have hframed : Element.Framed src e.openTag e := by
    refine ⟨⟨_, hreads⟩, rfl, by omega, Nat.le_refl _, ?_⟩
    intro tag htag
    obtain rfl : e.openTag = tag := Option.some.inj (hclose.symm.trans htag)
    exact ⟨⟨_, hreads⟩, rfl, .inl rfl⟩
  rw [everywhere_node]
  refine ⟨⟨⟨rfl, ⟨⟨_, hreads⟩, hframed⟩, fun _ => rfl⟩, ⟨fun _ => hcondition, ?_⟩, ?_⟩, by simp⟩
  · rwa [Element.opening_of_condition hcondition, if_pos hclose]
  · intro lo hi hregion
    exact absurd hclose ((region?_element rfl).mp hregion).1

theorem Stacked.pop {closeTag : Option Span} (h : Stacked src o.top o.frames a)
    (hne : o.frames ≠ [])
    (hend : (closeTag.map fun tag => tag.start.offset).getD o.size = a)
    (htag : ∀ tag, closeTag = some tag → src.Holds tag ∧ tag.stop.offset = o.size)
    (hsize : src.Reads o.size [] o.size) :
    Stacked src (o.pop closeTag).top (o.pop closeTag).frames o.size := by
  rw [Outline.pop]
  split
  case h_1 hframes => exact absurd hframes hne
  case h_2 f fs hframes =>
    rw [hframes] at h
    obtain ⟨hopened, hfill, hrest⟩ := h
    have hstop : src.Reads (Location.ofOffset o.size).offset [] (Location.ofOffset o.size).offset :=
      hsize
    have hclosed := packed_close hopened hfill hend htag hstop
    exact Stacked.push (o := { o with frames := fs }) hrest hclosed

theorem Standing.reads_size (h : Standing src o) : src.Reads o.size [] o.size := by
  obtain ⟨rest, hrest⟩ := h.text
  exact ⟨o.text.toList, rest, by simp [hrest], (size_eq o).symm, rfl⟩

@[simp] theorem text_leaf (o : Outline) (kind : Kind) (markup : String) :
    (o.leaf kind markup).text = (o.write markup).1.text := by
  simp [leaf]

@[simp] theorem length_frames_leaf (o : Outline) (kind : Kind) (markup : String) :
    (o.leaf kind markup).frames.length = o.frames.length := by
  simp [leaf, write]

@[simp] theorem text_emptyElement (o : Outline) (name markup : String) (isClosed : Bool) :
    (o.emptyElement name markup isClosed).text = (o.write markup).1.text := by
  simp [emptyElement]

@[simp] theorem length_frames_emptyElement (o : Outline) (name markup : String) (isClosed : Bool) :
    (o.emptyElement name markup isClosed).frames.length = o.frames.length := by
  simp [emptyElement, write]

theorem Standing.leaf {kind : Kind} {markup : String} (h : Standing src o)
    (hmarkup : kind.markup? = some markup)
    (htext : (o.write markup).1.text.toList <+: src.chars) :
    Standing src (o.leaf kind markup) := by
  have hreads := reads_write htext
  have hkind : kind.isContainer = false := by
    cases kind <;> simp_all [Kind.markup?, Kind.isContainer]
  have hwritten : Content.Written src false { kind, span := (o.write markup).2 } := by
    cases kind <;> simp_all [Kind.markup?, Content.Written, Outline.write, Location.ofOffset]
  have hpacked : Everywhere (Packed src [[]] false)
      (.leaf { kind, span := (o.write markup).2 }) := by
    rw [everywhere_leaf, packed_leaf hkind]
    exact ⟨⟨_, hreads⟩, hwritten⟩
  have hpush := Stacked.push (o := (o.write markup).1) h.stacked hpacked
  refine ⟨?_, ?_⟩
  · simpa [Outline.leaf] using htext
  · simpa [Outline.leaf, Outline.size, Outline.write, Location.ofOffset] using hpush

theorem opened_frame {name : String} {attrs : List Attribute} {span : Span}
    (hreads : src.Reads span.start.offset (startTag name attrs ">").toList span.stop.offset) :
    Opened src { element := element name attrs span, span } := by
  refine ⟨rfl, rfl, ?_⟩
  rw [fullName_element]
  exact hreads

theorem Standing.openTag {name : String} {attrs : List Attribute} (h : Standing src o)
    (htext : (o.step (.openTag name attrs)).text.toList <+: src.chars) :
    Standing src (o.step (.openTag name attrs)) := by
  have hreads := reads_write htext
  exact ⟨htext, opened_frame hreads, ⟨rfl, by simp⟩, h.stacked⟩

theorem Standing.emptyElement {name markup : String} {isClosed : Bool} (h : Standing src o)
    (hmarkup : markup = startTag name [] (if isClosed then " />" else ">"))
    (htext : (o.write markup).1.text.toList <+: src.chars) :
    Standing src (o.emptyElement name markup isClosed) := by
  have hreads := reads_write htext
  have hpacked : Everywhere (Packed src [[]] false)
      (.node (single name isClosed (o.write markup).2) []) := by
    rw [hmarkup] at hreads ⊢
    cases isClosed with
    | true =>
      refine packed_selfClosing rfl rfl rfl ?_
      have hname := fullName_element name []
        (o.write (startTag name [] (if true then " />" else ">"))).2
      exact hname.symm ▸ hreads
    | false => exact packed_close (opened_frame hreads) ⟨rfl, by simp⟩ rfl (by simp) hreads.stop
  have hspan (span : Span) : (single name isClosed span).span = span := rfl
  have hpush := Stacked.push (o := (o.write markup).1) h.stacked hpacked
  refine ⟨?_, ?_⟩
  · simpa [Outline.emptyElement] using htext
  · simpa [Outline.emptyElement, Outline.size, Outline.write, Location.ofOffset, hspan] using hpush

theorem Standing.closeWith {tag : String} (h : Standing src o) (hne : o.frames ≠ [])
    (htext : (o.write tag).1.text.toList <+: src.chars) : Standing src (o.closeWith tag) := by
  have hreads := reads_write htext
  have htag : ∀ span, some (o.write tag).2 = some span →
      src.Holds span ∧ span.stop.offset = (o.write tag).1.size := by
    rintro span ⟨⟩
    exact ⟨⟨_, hreads⟩, rfl⟩
  have hpop := Stacked.pop (o := (o.write tag).1) h.stacked hne rfl htag hreads.stop
  refine ⟨?_, ?_⟩
  · simpa [Outline.closeWith] using htext
  · simpa [Outline.closeWith, Outline.size] using hpop

theorem Standing.closeImplied (h : Standing src o) : Standing src (o.pop none) := by
  refine ⟨by simpa using h.text, ?_⟩
  by_cases hne : o.frames = []
  · have hsame : (o.pop none) = o := by rw [Outline.pop, hne]
    rw [hsame]
    exact h.stacked
  · have hpop : Stacked src (o.pop none).top (o.pop none).frames o.size :=
      h.stacked.pop hne rfl (by simp) h.reads_size
    simpa [Outline.size] using hpop

theorem Standing.step {s : Step} {steps : List Step} (h : Standing src o)
    (hbalanced : Step.balanced o.frames.length (s :: steps) = true)
    (htext : (o.step s).text.toList <+: src.chars) : Standing src (o.step s) := by
  cases s with
  | text value => exact h.leaf rfl (by simpa [Outline.step] using htext)
  | comment value => exact h.leaf rfl (by simpa [Outline.step] using htext)
  | cdata value => exact h.leaf rfl (by simpa [Outline.step] using htext)
  | doctype value => exact h.leaf rfl (by simpa [Outline.step] using htext)
  | conditionalStart condition => exact h.leaf rfl (by simpa [Outline.step] using htext)
  | conditionalEnd => exact h.leaf rfl (by simpa [Outline.step] using htext)
  | openTag name attrs => exact h.openTag htext
  | close =>
    have hne : o.frames ≠ [] := by
      rintro hnil
      simp [Step.balanced, hnil] at hbalanced
    exact h.closeWith hne (by simpa [Outline.step, Outline.closeWith] using htext)
  | closeWith tag =>
    have hne : o.frames ≠ [] := by
      rintro hnil
      simp [Step.balanced, hnil] at hbalanced
    exact h.closeWith hne (by simpa [Outline.step, Outline.closeWith] using htext)
  | closeImplied => exact h.closeImplied
  | void name => exact h.emptyElement rfl (by simpa [Outline.step] using htext)
  | selfClosing name => exact h.emptyElement rfl (by simpa [Outline.step] using htext)

theorem balanced_step {s : Step} {steps : List Step}
    (h : Step.balanced o.frames.length (s :: steps) = true) :
    Step.balanced (o.step s).frames.length steps = true := by
  cases s <;> simp_all [Step.balanced, step, openTag, closeWith, write]

theorem text_prefix_step (o : Outline) (s : Step) : o.text.toList <+: (o.step s).text.toList := by
  cases s <;> simp [step, openTag, closeWith, write]

theorem text_prefix_run (o : Outline) (steps : List Step) :
    o.text.toList <+: (o.run steps).text.toList := by
  induction steps generalizing o with
  | nil => exact List.prefix_rfl
  | cons s steps ih => exact (text_prefix_step o s).trans (ih _)

theorem Standing.run {steps : List Step} (h : Standing src o)
    (hbalanced : Step.balanced o.frames.length steps = true)
    (htext : (o.run steps).text.toList <+: src.chars) : Standing src (o.run steps) := by
  induction steps generalizing o with
  | nil => exact h
  | cons s steps ih =>
    have hnext := (text_prefix_run (o.step s) steps).trans htext
    exact ih (h.step hbalanced hnext) (balanced_step hbalanced) htext

theorem Standing.closeAll (h : Standing src o) (n : Nat) : Standing src (o.closeAll n) := by
  induction n generalizing o with
  | zero => exact h
  | succ n ih => exact ih h.closeImplied

section Resolve

variable {c : Content} {e : Element} {span : Span}

theorem span_offsets (h : src.Holds span) :
    (src.span span.start.offset span.stop.offset).start.offset = span.start.offset ∧
      (src.span span.start.offset span.stop.offset).stop.offset = span.stop.offset := by
  obtain ⟨cs, hcs⟩ := h
  have hle := hcs.le
  have hsize := hcs.le_size
  simp only [Source.span, Source.location_offset]
  omega

theorem holds_span (h : src.Holds span) :
    src.Holds (src.span span.start.offset span.stop.offset) := by
  obtain ⟨hstart, hstop⟩ := span_offsets h
  rw [Source.Holds, hstart, hstop]
  exact h

/-- The tags of an element, resolved. -/
def resolveTags (src : Source) (e : Element) : Element :=
  { e with
    openTag := src.span e.openTag.start.offset e.openTag.stop.offset
    closeTag := e.closeTag.map fun tag => src.span tag.start.offset tag.stop.offset }

theorem kind_resolve (hkind : c.kind = .element e) :
    (resolve src c).kind = .element (resolveTags src e) := by
  simp [resolve, hkind, resolveTags]

/-- A closing tag starts behind the opening tag unless they are the same, so resolving does not
identify them. -/
theorem closeTag_resolveTags (h : e.Framed src span) :
    (resolveTags src e).closeTag = some (resolveTags src e).openTag ↔
      e.closeTag = some e.openTag := by
  constructor
  · intro hresolved
    obtain ⟨tag, htag, hsame⟩ := Option.map_eq_some_iff.mp hresolved
    obtain ⟨hholds, -, hapart⟩ := h.close tag htag
    rcases hapart with rfl | hbehind
    · exact htag
    · have hstart := (span_offsets hholds).1
      rw [hsame, resolveTags, (span_offsets h.holds).1] at hstart
      have hlt := h.nonempty
      omega
  · intro hclose
    simp [resolveTags, hclose]

theorem framed_resolveTags (h : e.Framed src c.span) (hc : src.Holds c.span) :
    (resolveTags src e).Framed src (resolve src c).span := by
  have hopen := span_offsets h.holds
  have hspan := span_offsets hc
  refine ⟨holds_span h.holds, ?_, ?_, ?_, ?_⟩
  · simpa [resolveTags, resolve, hopen, hspan] using h.start_eq
  · simpa [resolveTags, hopen] using h.nonempty
  · simpa [resolveTags, resolve, hopen, hspan] using h.stop_le
  · intro tag htag
    obtain ⟨raw, hraw, rfl⟩ := Option.map_eq_some_iff.mp htag
    obtain ⟨hholds, hstop, hapart⟩ := h.close raw hraw
    refine ⟨holds_span hholds, ?_, ?_⟩
    · simpa [resolve, span_offsets hholds, hspan] using hstop
    · rcases hapart with rfl | hbehind
      · exact .inl rfl
      · exact .inr (by simpa [resolveTags, span_offsets hholds, hopen] using hbehind)

theorem framed_resolve (h : c.Framed src) : (resolve src c).Framed src := by
  refine ⟨holds_span h.1, ?_⟩
  cases hkind : c.kind with
  | element e =>
    rw [kind_resolve hkind]
    exact framed_resolveTags (h.element hkind) h.1
  | interpolation =>
    have hbraces := h.2
    simp only [hkind] at hbraces
    simpa [resolve, hkind, span_offsets h.1] using hbraces
  | _ => simp [resolve, hkind]

theorem region?_resolve (h : c.Framed src) : (resolve src c).region? src = c.region? src := by
  have hspan := span_offsets h.1
  cases hkind : c.kind with
  | element e =>
    have hframed := h.element hkind
    have htags := closeTag_resolveTags hframed
    by_cases hsame : e.closeTag = some e.openTag
    · simp [region?, hkind, kind_resolve hkind, htags.mpr hsame, hsame]
    · have hlast : ((resolveTags src e).closeTag.map fun tag => tag.start.offset) =
          e.closeTag.map fun tag => tag.start.offset := by
        cases hclose : e.closeTag with
        | none => simp [resolveTags, hclose]
        | some tag => simp [resolveTags, hclose, span_offsets (hframed.close tag hclose).1]
      have hfirst : (resolveTags src e).openTag.stop.offset = e.openTag.stop.offset :=
        (span_offsets hframed.holds).2
      have hend : (resolve src c).span.stop.offset = c.span.stop.offset := hspan.2
      simp [region?, hkind, kind_resolve hkind, mt htags.mp hsame, hsame, hlast, hfirst, hend]
  | interpolation => simp [region?, resolve, hkind, hspan]
  | _ => simp [region?, resolve, hkind]

theorem written_resolve {guarded : Bool} (h : c.Framed src) (hw : c.Written src guarded) :
    (resolve src c).Written src guarded := by
  have hspan := span_offsets h.1
  cases hkind : c.kind with
  | element e =>
    have hopen := span_offsets (h.element hkind).holds
    have hsame : (resolveTags src e).opening = e.opening := by
      simp only [Element.opening, closeTag_resolveTags (h.element hkind)]
      rfl
    rw [Written, hkind] at hw
    rw [Written, kind_resolve hkind]
    refine ⟨hw.1, ?_⟩
    rw [hsame]
    simpa [resolveTags, hopen] using hw.2
  | _ => simpa [Written, resolve, hkind, hspan] using hw

theorem isContainer_resolve (src : Source) (c : Content) :
    (resolve src c).kind.isContainer = c.kind.isContainer := by
  cases hkind : c.kind <;> simp [resolve, hkind, Kind.isContainer]

theorem chained_resolve {R : Nat → Nat → Prop} {ts : List Doc}
    (hts : ∀ t ∈ ts, t.label.Framed src) :
    Chained R a ((ts.map (Tree.map (resolve src))).map label) b ↔ Chained R a (ts.map label) b := by
  apply chained_congr
  simp only [List.map_map]
  refine List.map_congr_left fun t ht => ?_
  obtain ⟨hstart, hstop⟩ := span_offsets (hts t ht).1
  have hlabel : (t.map (resolve src)).label = resolve src t.label := by cases t <;> simp
  simp only [Function.comp_apply, hlabel]
  exact Prod.ext hstart hstop

theorem packed_resolve {leads : List (List Char)} {guarded : Bool} {t : Doc}
    (h : Everywhere (Packed src leads guarded) t) :
    Everywhere (Packed src leads guarded) (t.map (resolve src)) := by
  induction t using Tree.induct with
  | leaf c =>
    have hself := h.self
    have hkind : c.kind.isContainer = false := by simpa using hself.shape.symm
    rw [map_leaf, everywhere_leaf, packed_leaf ((isContainer_resolve src c).trans hkind)]
    exact ⟨holds_span hself.framed.1, written_resolve hself.framed hself.written⟩
  | node c ts ih =>
    obtain ⟨hself, hbelow⟩ := everywhere_node.mp h
    have hshape : c.kind.isContainer = true := by simpa using hself.shape.symm
    have hregion : (resolve src c).region? src = c.region? src := region?_resolve hself.framed
    rw [map_node, everywhere_node]
    refine ⟨⟨⟨?_, framed_resolve hself.framed, ?_⟩,
      written_resolve hself.framed hself.written, ?_⟩, ?_⟩
    · simp [isContainer_resolve, hshape]
    · simpa [hregion] using hself.empty
    · intro lo hi hlohi
      rw [label_node, hregion] at hlohi
      obtain ⟨lead, hlead, mid, hreads, hchain⟩ := hself.filled lo hi hlohi
      refine ⟨lead, hlead, mid, hreads, ?_⟩
      exact (chained_resolve fun t ht => (hbelow t ht).self.framed).mpr hchain
    · simp only [List.forall_mem_map]
      exact fun t ht => ih t ht (hbelow t ht)

end Resolve

theorem Standing.empty (src : Source) : Standing src {} :=
  ⟨List.nil_prefix, rfl, by simp⟩

/-- Every balanced draft builds a packed document of the text it has written. -/
theorem packed_toDoc {src : Source} {steps : List Step} (h : Step.balanced 0 steps = true)
    (hsource : src = .ofString (run {} steps).text) :
    Everywhere (Packed src [[]] false) (run {} steps).toDoc := by
  obtain rfl := hsource
  have hrun : Standing (.ofString (run {} steps).text) (run {} steps) :=
    (Standing.empty _).run h List.prefix_rfl
  generalize run {} steps = o at hrun ⊢
  have hclosed := hrun.closeAll o.frames.length
  have hstacked := hclosed.stacked
  rw [frames_closeAll] at hstacked
  obtain ⟨hchain, hbelow⟩ := hstacked
  have hsize : (o.closeAll o.frames.length).size = (Source.ofString o.text).size := by
    rw [size_eq, text_closeAll]
    rfl
  rw [hsize] at hchain
  rw [toDoc, text_closeAll, everywhere_node]
  generalize Source.ofString o.text = src at hchain hbelow ⊢
  have hall : src.Reads (src.span 0 src.size).start.offset src.chars
      (src.span 0 src.size).stop.offset := by
    simpa [Source.span] using src.reads_all
  refine ⟨⟨⟨rfl, ⟨⟨_, hall⟩, trivial⟩, by simp [region?]⟩, by simp [Written, Kind.markup?], ?_⟩, ?_⟩
  · intro lo hi hregion
    obtain ⟨rfl, rfl⟩ := Prod.mk.inj (Option.some.inj hregion)
    refine ⟨[], by simp, 0, src.reads_all.start, ?_⟩
    exact (chained_resolve fun t ht => (hbelow t ht).self.framed).mpr hchain
  · simp only [List.forall_mem_map]
    exact fun t ht => packed_resolve (hbelow t ht)

end Outline

end Markup
