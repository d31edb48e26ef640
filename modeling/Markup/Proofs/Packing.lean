import Markup.Draft
import Markup.Proofs.Reading
import Markup.Proofs.Subtrees

/-! Packed documents. Every node stands in the source text where its span says, and the children of
a node fill the stretch between its tags without a gap, but for a lead in front of the first. -/
namespace Markup

/-- Some characters stand at the span. -/
def Source.Holds (src : Source) (s : Span) : Prop :=
  ∃ cs, src.Reads s.start.offset cs s.stop.offset

theorem Source.Holds.le {src : Source} {s : Span} (h : src.Holds s) :
    s.start.offset ≤ s.stop.offset := by
  obtain ⟨cs, hcs⟩ := h
  exact hcs.le

/-- The spans of the tags of an element fit the span of the element. -/
structure Element.Framed (src : Source) (span : Span) (e : Element) : Prop where
  holds : src.Holds e.openTag
  start_eq : e.openTag.start.offset = span.start.offset
  nonempty : e.openTag.start.offset < e.openTag.stop.offset
  stop_le : e.openTag.stop.offset ≤ span.stop.offset
  close : ∀ tag, e.closeTag = some tag → src.Holds tag ∧ tag.stop.offset = span.stop.offset ∧
    (tag = e.openTag ∨ e.openTag.stop.offset ≤ tag.start.offset)

/-- What is written up to the content of an element: its opening tag, between the two comments of
its condition if it has one. -/
def Element.opening (e : Element) : String :=
  let tag := Draft.startTag e.fullName e.attrs (if e.closeTag = some e.openTag then " />" else ">")
  match e.condition with
  | none => tag
  | some condition => "<!--[if " ++ condition ++ "]><!-->" ++ tag ++ "<!--<![endif]-->"

theorem Element.opening_of_condition {e : Element} (h : e.condition = none) :
    e.opening = Draft.startTag e.fullName e.attrs
      (if e.closeTag = some e.openTag then " />" else ">") := by
  rw [opening, h]

/-- What a node without children is written as. -/
def Kind.markup? : Kind → Option String
  | text value => some value
  | comment value => some ("<!--" ++ value ++ "-->")
  | cdata value => some ("<![CDATA[" ++ value ++ "]]>")
  | doctype value => some ("<!" ++ value ++ ">")
  | conditionalStart condition => some ("<!--[if " ++ condition ++ "]><!-->")
  | conditionalEnd => some "<!--<![endif]-->"
  | root | element _ | interpolation => none

namespace Content

variable {src : Source} {c : Content} {a b : Nat}

/-- The offsets between which the children of a node stand. An element of a single tag and a node
that holds no children have none. -/
def region? (src : Source) (c : Content) : Option (Nat × Nat) :=
  match c.kind with
  | .root => some (0, src.size)
  | .element e =>
    if e.closeTag = some e.openTag then none
    else
      some (e.openTag.stop.offset,
        (e.closeTag.map fun tag => tag.start.offset).getD c.span.stop.offset)
  | .interpolation => some (c.span.start.offset + 2, c.span.stop.offset - 2)
  | _ => none

/-- All spans of the node can be read, and they fit each other. -/
def Framed (src : Source) (c : Content) : Prop :=
  src.Holds c.span ∧
    match c.kind with
    | .element e => e.Framed src c.span
    | .interpolation =>
      ∃ cs, src.Reads c.span.start.offset (['\x7b', '\x7b'] ++ cs ++ ['\x7d', '\x7d'])
        c.span.stop.offset
    | _ => True

/-- The node is written in the source at its span. Where no guards have been folded yet, no element
has a condition. -/
def Written (src : Source) (guarded : Bool) (c : Content) : Prop :=
  match c.kind with
  | .element e =>
    (guarded = false → e.condition = none) ∧
      src.Reads e.openTag.start.offset e.opening.toList e.openTag.stop.offset
  | kind => ∀ m, kind.markup? = some m → src.Reads c.span.start.offset m.toList c.span.stop.offset

theorem Framed.element {e : Element} (h : c.Framed src) (hkind : c.kind = .element e) :
    e.Framed src c.span := by
  simpa [hkind] using h.2

theorem Written.text {v : String} {guarded : Bool} (h : c.Written src guarded)
    (hkind : c.kind = .text v) : src.Reads c.span.start.offset v.toList c.span.stop.offset := by
  rw [Written, hkind] at h
  exact h v rfl

theorem written_text {v : String} {guarded : Bool} (hkind : c.kind = .text v) :
    c.Written src guarded ↔ src.Reads c.span.start.offset v.toList c.span.stop.offset := by
  refine ⟨fun h => h.text hkind, fun h => ?_⟩
  rw [Written, hkind]
  intro m hm
  obtain rfl : v = m := Option.some.inj hm
  exact h

theorem Written.guard {guarded : Bool} (h : c.Written src guarded) : c.Written src true := by
  unfold Written at h ⊢
  split at h
  · exact ⟨by simp, h.2⟩
  · exact h

theorem framed_of_not_isContainer (hkind : c.kind.isContainer = false) :
    c.Framed src ↔ src.Holds c.span := by
  cases h : c.kind <;> simp_all [Framed, Kind.isContainer]

theorem region?_of_not_isContainer (hkind : c.kind.isContainer = false) :
    c.region? src = none := by
  cases h : c.kind <;> simp_all [region?, Kind.isContainer]

theorem region?_element {e : Element} {lo hi : Nat} (hkind : c.kind = .element e) :
    c.region? src = some (lo, hi) ↔ e.closeTag ≠ some e.openTag ∧ e.openTag.stop.offset = lo ∧
      (e.closeTag.map fun tag => tag.start.offset).getD c.span.stop.offset = hi := by
  by_cases htags : e.closeTag = some e.openTag <;> simp [region?, hkind, htags]

/-- The content of an element ends inside the element, in front of a closing tag. -/
theorem Framed.region?_stop_le {e : Element} {lo hi : Nat} (h : c.Framed src)
    (hkind : c.kind = .element e) (hregion : c.region? src = some (lo, hi)) :
    hi ≤ c.span.stop.offset ∧ ∀ tag, e.closeTag = some tag → tag.start.offset = hi := by
  obtain ⟨-, -, rfl⟩ := (region?_element hkind).mp hregion
  cases hclose : e.closeTag with
  | none => simp
  | some tag =>
    obtain ⟨hholds, hstop, -⟩ := (h.element hkind).close tag hclose
    have hle := hholds.le
    simpa [← hstop] using hle

/-- Consecutive nodes from `a` to `b`, with `R` between the end of each one and the start of the
next. -/
def Chained (R : Nat → Nat → Prop) : Nat → List Content → Nat → Prop
  | a, [], b => R a b
  | a, c :: cs, b => R a c.span.start.offset ∧ Chained R c.span.stop.offset cs b

@[simp] theorem chained_nil {R : Nat → Nat → Prop} : Chained R a [] b ↔ R a b := Iff.rfl

@[simp] theorem chained_cons {R : Nat → Nat → Prop} {cs : List Content} :
    Chained R a (c :: cs) b ↔ R a c.span.start.offset ∧ Chained R c.span.stop.offset cs b :=
  Iff.rfl

theorem chained_congr {R : Nat → Nat → Prop} {xs ys : List Content}
    (h : xs.map (fun c => (c.span.start.offset, c.span.stop.offset)) =
      ys.map (fun c => (c.span.start.offset, c.span.stop.offset))) :
    Chained R a xs b ↔ Chained R a ys b := by
  induction xs generalizing a ys with
  | nil =>
    obtain rfl : ys = [] := by simpa using h.symm
    rfl
  | cons x xs ih =>
    cases ys with
    | nil => simp at h
    | cons y ys =>
      obtain ⟨hspan, hrest⟩ := List.cons.inj h
      obtain ⟨hstart, hstop⟩ := Prod.mk.inj hspan
      simp [hstart, hstop, ih hrest]

theorem chained_eq_append {xs ys : List Content} :
    Chained Eq a (xs ++ ys) b ↔ ∃ m, Chained Eq a xs m ∧ Chained Eq m ys b := by
  induction xs generalizing a with
  | nil => simp
  | cons x xs ih =>
    simp only [List.cons_append, chained_cons, ih]
    constructor
    · rintro ⟨ha, m, hxs, hys⟩
      exact ⟨m, ⟨ha, hxs⟩, hys⟩
    · rintro ⟨m, ⟨ha, hxs⟩, hys⟩
      exact ⟨ha, m, hxs, hys⟩

theorem Chained.le {cs : List Content} (h : Chained Eq a cs b)
    (hcs : ∀ c ∈ cs, src.Holds c.span) : a ≤ b := by
  induction cs generalizing a with
  | nil => exact Nat.le_of_eq h
  | cons c cs ih =>
    obtain ⟨rfl, hrest⟩ := h
    have hc := (hcs c List.mem_cons_self).le
    have hle := ih hrest fun d hd => hcs d (List.mem_cons_of_mem _ hd)
    omega

end Content

open Content Markup.Tree

/-- A node whose own spans are sound, with children only where there is room for them. -/
structure Housed (src : Source) (t : Doc) : Prop where
  shape : t.children?.isSome = t.label.kind.isContainer
  framed : t.label.Framed src
  empty : t.label.region? src = none → t.children = []

/-- A node that is written in the source, with its children one right behind the other; before the
first one stands one of the `leads`. -/
structure Packed (src : Source) (leads : List (List Char)) (guarded : Bool) (t : Doc) : Prop
    extends Housed src t where
  written : t.label.Written src guarded
  filled : ∀ lo hi, t.label.region? src = some (lo, hi) → ∃ lead ∈ leads, ∃ mid,
    src.Reads lo lead mid ∧ Chained Eq mid (t.children.map label) hi

section

variable {src : Source} {leads : List (List Char)} {guarded : Bool} {c : Content} {ts us : List Doc}

theorem housed_leaf (hkind : c.kind.isContainer = false) :
    Housed src (.leaf c) ↔ src.Holds c.span := by
  refine ⟨fun h => (framed_of_not_isContainer hkind).mp h.framed, fun h => ?_⟩
  exact ⟨by simp [hkind], (framed_of_not_isContainer hkind).mpr h, fun _ => rfl⟩

theorem Housed.eq_leaf {t : Doc} (h : Housed src t) (hkind : t.label.kind.isContainer = false) :
    t = .leaf t.label := by
  cases t with
  | leaf c => rfl
  | node c ts =>
    rw [← h.shape] at hkind
    simp at hkind

theorem Housed.exists_node {t : Doc} (h : Housed src t) (hkind : t.label.kind.isContainer = true) :
    ∃ ts, t = .node t.label ts := by
  cases t with
  | leaf c =>
    rw [← h.shape] at hkind
    simp at hkind
  | node c ts => exact ⟨ts, rfl⟩

theorem Housed.exists_region {t u : Doc} (h : Housed src t) (hu : u ∈ t.children) :
    ∃ lo hi, t.label.region? src = some (lo, hi) := by
  cases hregion : t.label.region? src with
  | none =>
    rw [h.empty hregion] at hu
    simp at hu
  | some region => exact ⟨region.1, region.2, rfl⟩

theorem packed_leaf (hkind : c.kind.isContainer = false) :
    Packed src leads guarded (.leaf c) ↔ src.Holds c.span ∧ c.Written src guarded := by
  constructor
  · intro h
    exact ⟨(housed_leaf hkind).mp h.toHoused, h.written⟩
  · rintro ⟨hspan, hwritten⟩
    refine ⟨(housed_leaf hkind).mpr hspan, hwritten, ?_⟩
    simp [region?_of_not_isContainer hkind]

theorem packed_text {v : String} (hkind : c.kind = .text v)
    (hreads : src.Reads c.span.start.offset v.toList c.span.stop.offset) :
    Packed src leads guarded (.leaf c) :=
  (packed_leaf (by simp [hkind, Kind.isContainer])).mpr
    ⟨⟨_, hreads⟩, (written_text hkind).mpr hreads⟩

theorem Packed.of_labels (h : Packed src leads guarded (.node c ts))
    (hlabels : us.map label = ts.map label) : Packed src leads guarded (.node c us) := by
  refine ⟨⟨by simpa using h.shape, h.framed, fun hnone => ?_⟩, h.written, ?_⟩
  · have hts : ts = [] := h.empty hnone
    simpa [hts] using hlabels
  · intro lo hi hregion
    simpa [hlabels] using h.filled lo hi hregion

theorem Packed.leaf_mono {leads' : List (List Char)} (h : Packed src leads guarded (.leaf c)) :
    Packed src leads' guarded (.leaf c) := by
  have hkind : c.kind.isContainer = false := by simpa using h.shape.symm
  exact (packed_leaf hkind).mpr ((packed_leaf hkind).mp h)

/-- Children may be exchanged for others that fill the same stretch. -/
theorem Packed.refill {leads' : List (List Char)} {guarded' : Bool}
    (h : Packed src leads guarded (.node c ts)) (hwritten : c.Written src guarded')
    (hnil : ts = [] → us = [])
    (hfill : ∀ lead ∈ leads, ∀ lo mid hi, src.Reads lo lead mid →
      Chained Eq mid (ts.map label) hi →
      (∃ lead' ∈ leads', ∃ mid', src.Reads lo lead' mid' ∧ Chained Eq mid' (us.map label) hi) ∧
        ∀ u ∈ us, Everywhere (Packed src leads' guarded') u) :
    Everywhere (Packed src leads' guarded') (.node c us) := by
  have hempty : c.region? src = none → us = [] := fun hnone => hnil (h.empty hnone)
  rw [everywhere_node]
  refine ⟨⟨⟨by simpa using h.shape, h.framed, hempty⟩, hwritten, ?_⟩, ?_⟩
  · intro lo hi hregion
    obtain ⟨lead, hlead, mid, hreads, hts⟩ := h.filled lo hi hregion
    exact (hfill lead hlead lo mid hi hreads hts).1
  · cases hregion : c.region? src with
    | none => simp [hempty hregion]
    | some region =>
      obtain ⟨lead, hlead, mid, hreads, hts⟩ := h.filled region.1 region.2 hregion
      exact (hfill lead hlead _ mid _ hreads hts).2

theorem Packed.exchange {guarded' : Bool} (h : Packed src leads guarded (.node c ts))
    (hwritten : c.Written src guarded') (hnil : ts = [] → us = [])
    (hchain : ∀ a b, Chained Eq a (ts.map label) b → Chained Eq a (us.map label) b ∧
      ∀ u ∈ us, Everywhere (Packed src leads guarded') u) :
    Everywhere (Packed src leads guarded') (.node c us) := by
  refine h.refill hwritten hnil ?_
  intro lead hlead lo mid hi hreads hts
  obtain ⟨hus, hbelow⟩ := hchain mid hi hts
  exact ⟨⟨lead, hlead, mid, hreads, hus⟩, hbelow⟩

end

end Markup
