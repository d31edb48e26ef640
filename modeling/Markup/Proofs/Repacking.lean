import Markup.Proofs.Packing
import Markup.Reshape.Cdata
import Markup.Reshape.Conditional
import Markup.Reshape.Interpolation
import Markup.Reshape.Linefeed

/-! The passes that keep a document packed: line feeds become leads, guards are folded into opening
tags, sections become text and expressions are split out of text. -/
namespace Markup.Reshape

open Content Markup.Tree

variable {src : Source} {leads : List (List Char)} {guarded : Bool} {c : Content}
  {t u : Doc} {ts us : List Doc}

section Linefeed

theorem dropLinefeed_cases (src : Source) (ts : List Doc) :
    dropLinefeed src ts = ts ∨ ∃ t us v rest, ts = t :: us ∧ t.label.kind = .text v ∧
      v.toList = '\n' :: rest ∧ (rest = [] ∧ dropLinefeed src ts = us ∨
        dropLinefeed src ts = t.setLabel { t.label with
          kind := .text (String.ofList rest)
          span := { t.label.span with start := src.shift t.label.span.start 1 } } :: us) := by
  cases ts with
  | nil => exact .inl rfl
  | cons t us =>
    cases hdrop : t.label.kind.text?.bind afterLinefeed? with
    | none => simp [dropLinefeed, hdrop]
    | some left =>
      obtain ⟨v, hv, hafter⟩ := Option.bind_eq_some_iff.mp hdrop
      rw [afterLinefeed?] at hafter
      split at hafter
      case h_2 => simp at hafter
      case h_1 rest hrest =>
        obtain rfl := Option.some.inj hafter
        refine .inr ⟨t, us, v, rest, rfl, Kind.text?_eq_some_iff.mp hv, hrest, ?_⟩
        cases rest with
        | nil => simp [dropLinefeed, hdrop]
        | cons r rest => simp [dropLinefeed, hdrop]

theorem reads_behind_linefeed {l : Location} {rest : List Char} {b : Nat}
    (h : src.Reads l.offset ('\n' :: rest) b) :
    src.Reads l.offset ['\n'] (src.shift l 1).offset ∧
      src.Reads (src.shift l 1).offset rest b := by
  have hcons : src.Reads l.offset (['\n'] ++ rest) b := h
  obtain ⟨hfeed, hrest⟩ := hcons.divide
  have hshift : (src.shift l 1).offset = l.offset + Text.byteLength ['\n'] := hfeed.offset_shift rfl
  rw [hshift]
  exact ⟨hfeed, hrest⟩

/-- A line feed leaves the text but stays in front of what is left. -/
theorem filled_dropLinefeed {a b : Nat} (hus : ∀ u ∈ us, Packed src leads guarded u)
    (hstart : src.Reads a [] a) (hchain : Chained Eq a (us.map label) b) :
    ∃ lead ∈ [[], ['\n']], ∃ mid, src.Reads a lead mid ∧
      Chained Eq mid ((dropLinefeed src us).map label) b := by
  rcases dropLinefeed_cases src us with hsame | ⟨t, us, v, rest, rfl, hkind, hv, hdrop⟩
  · rw [hsame]
    exact ⟨[], by simp, a, hstart, hchain⟩
  · obtain ⟨rfl, hchain⟩ := hchain
    have hreads := (hus t List.mem_cons_self).written.text hkind
    rw [hv] at hreads
    obtain ⟨hfeed, hrest⟩ := reads_behind_linefeed hreads
    refine ⟨['\n'], by simp, _, hfeed, ?_⟩
    rcases hdrop with ⟨rfl, hdrop⟩ | hdrop
    · have hstop : t.label.span.stop.offset = (src.shift t.label.span.start 1).offset := by
        simpa using hrest.stop_eq
      rwa [hdrop, ← hstop]
    · rw [hdrop]
      exact ⟨by simp, by simpa using hchain⟩

theorem packed_dropLinefeed (hus : ∀ u ∈ us, Everywhere (Packed src leads guarded) u) :
    ∀ u ∈ dropLinefeed src us, Everywhere (Packed src leads guarded) u := by
  rcases dropLinefeed_cases src us with hsame | ⟨t, us, v, rest, rfl, hkind, hv, hdrop⟩
  · rwa [hsame]
  · have ht := (hus t List.mem_cons_self).self
    have htail : ∀ u ∈ us, Everywhere (Packed src leads guarded) u :=
      fun u hu => hus u (List.mem_cons_of_mem _ hu)
    rcases hdrop with ⟨-, hdrop⟩ | hdrop
    · rwa [hdrop]
    · have hreads := ht.written.text hkind
      rw [hv] at hreads
      have hleaf := ht.toHoused.eq_leaf (by simp [hkind, Kind.isContainer])
      rw [hdrop, List.forall_mem_cons]
      refine ⟨?_, htail⟩
      rw [hleaf, Tree.setLabel, everywhere_leaf]
      refine packed_text rfl ?_
      simpa using (reads_behind_linefeed hreads).2

theorem fst_linefeedStep (src : Source) (c : Content) (ts : List Doc) :
    (linefeedStep src c ts).1 = c := by
  rw [linefeedStep]
  split <;> rfl

theorem snd_linefeedStep (src : Source) (c : Content) (ts : List Doc) :
    (linefeedStep src c ts).2 = ts ∨ (linefeedStep src c ts).2 = dropLinefeed src ts := by
  rw [linefeedStep]
  split
  · split
    · exact .inr rfl
    · exact .inl rfl
  · exact .inl rfl

theorem packed_linefeed {d : Doc} (h : Everywhere (Packed src [[]] guarded) d) :
    Everywhere (Packed src [[], ['\n']] guarded) (linefeed src d) := by
  refine Everywhere.reshape (fun c hc => hc.leaf_mono) ?_ h
  intro c ts hpacked _ hus
  have hlabels := map_label_reshape (fst_linefeedStep src) ts
  generalize ts.map (reshape (linefeedStep src)) = us at hus hlabels ⊢
  have hnode := hpacked.of_labels hlabels
  rw [fst_linefeedStep]
  rcases snd_linefeedStep src c us with hstep | hstep
  · rw [hstep]
    refine hnode.refill hnode.written id ?_
    intro lead hlead lo mid hi hreads hchain
    exact ⟨⟨lead, by simp_all, mid, hreads, hchain⟩, hus⟩
  · rw [hstep]
    refine hnode.refill hnode.written (by rintro rfl; rfl) ?_
    intro lead hlead lo mid hi hreads hchain
    obtain rfl := List.mem_singleton.mp hlead
    obtain rfl : mid = lo := by simpa using hreads.stop_eq
    exact ⟨filled_dropLinefeed (fun u hu => (hus u hu).self) hreads hchain,
      packed_dropLinefeed hus⟩

end Linefeed

section Conditional

theorem guard?_eq_some {g : Guard} (h : guard? t u = some g) :
    ∃ e first rest, t.label.kind = .conditionalStart g.condition ∧ t.label.span.start = g.start ∧
      t.label.span.stop.offset = e.openTag.start.offset ∧ u.label.kind = .element e ∧
      u.children = first :: rest ∧ first.label.kind = .conditionalEnd ∧
      first.label.span.start.offset = e.openTag.stop.offset ∧ first.label.span.stop = g.stop := by
  rw [guard?] at h
  split at h
  case h_1 condition e first rest ht hu hchildren =>
    split at h
    case isTrue hall =>
      obtain rfl := Option.some.inj h
      exact ⟨e, first, rest, ht, rfl, hall.1, hu, hchildren, hall.2.1, hall.2.2, rfl⟩
    case isFalse => simp at h
  case h_2 => simp at h

theorem take_element {g : Guard} {e : Element} (hkind : c.kind = .element e) :
    g.take c = { c with
      kind := .element { e with openTag := ⟨g.start, g.stop⟩, condition := some g.condition }
      span := { c.span with start := g.start } } := by
  rw [Guard.take, hkind]

theorem Guard.fold_node (g : Guard) (c : Content) (ts : List Doc) :
    g.fold (.node c ts) = .node (g.take c) ts.tail := rfl

section

variable {g : Guard} {e : Element} {lo hi : Nat} {before tag : List Char}

/-- The closing tag stands behind the content, so it is not the tag that takes in a guard. -/
theorem closeTag_ne_guard (hframed : c.Framed src) (hkind : c.kind = .element e)
    (hregion : c.region? src = some (lo, hi)) (hle : g.stop.offset ≤ hi)
    (hlt : g.start.offset < g.stop.offset) : e.closeTag ≠ some ⟨g.start, g.stop⟩ := by
  intro htag
  have hstart := (hframed.region?_stop_le hkind hregion).2 _ htag
  simp only at hstart
  omega

theorem region?_take (hframed : c.Framed src) (hkind : c.kind = .element e)
    (hregion : c.region? src = some (lo, hi)) (hle : g.stop.offset ≤ hi)
    (hlt : g.start.offset < g.stop.offset) :
    (g.take c).region? src = some (g.stop.offset, hi) := by
  have hne := closeTag_ne_guard hframed hkind hregion hle hlt
  obtain ⟨-, -, hhi⟩ := (region?_element hkind).mp hregion
  rw [take_element hkind, region?_element rfl]
  exact ⟨hne, rfl, hhi⟩

/-- An element stays framed when its opening tag grows at both ends without reaching the content. -/
theorem framed_take (hframed : c.Framed src) (hkind : c.kind = .element e)
    (hregion : c.region? src = some (lo, hi)) (hle : g.stop.offset ≤ hi)
    (hlt : g.start.offset < g.stop.offset)
    (hbefore : src.Reads g.start.offset before c.span.start.offset)
    (htag : src.Reads g.start.offset tag g.stop.offset) : (g.take c).Framed src := by
  obtain ⟨cs, hspan⟩ := hframed.1
  obtain ⟨hstop, hclose⟩ := hframed.region?_stop_le hkind hregion
  rw [take_element hkind]
  refine ⟨⟨_, hbefore.append hspan⟩, ⟨_, htag⟩, rfl, hlt, Nat.le_trans hle hstop, ?_⟩
  intro close hc
  obtain ⟨hholds, hend, -⟩ := (hframed.element hkind).close close hc
  refine ⟨hholds, hend, .inr ?_⟩
  rw [hclose close hc]
  exact hle

theorem opening_take {condition : String} (htags : e.closeTag ≠ some e.openTag)
    (htags' : e.closeTag ≠ some ⟨g.start, g.stop⟩) (hcondition : e.condition = none) :
    { e with openTag := ⟨g.start, g.stop⟩, condition := some condition : Element }.opening =
      "<!--[if " ++ condition ++ "]><!-->" ++ e.opening ++ "<!--<![endif]-->" := by
  simp [Element.opening, htags, htags', hcondition, Element.fullName]

end

/-- Both comments of a guard are written around the opening tag, so the tag that takes them in is
written as a whole. -/
theorem packed_fold {g : Guard} (hnil : [] ∈ leads) (ht : Packed src leads true t)
    (hu : Everywhere (Packed src leads true) u) (hplain : u.label.Written src false)
    (hg : guard? t u = some g) :
    Everywhere (Packed src leads true) (g.fold u) ∧
      (g.fold u).label.span = ⟨t.label.span.start, u.label.span.stop⟩ := by
  obtain ⟨e, first, rest, htkind, hgstart, hbefore, hukind, hchildren, hfkind, hbehind, hgstop⟩ :=
    guard?_eq_some hg
  obtain ⟨ts, hnode⟩ := hu.self.toHoused.exists_node (by simp [hukind, Kind.isContainer])
  generalize u.label = c at hnode hukind hplain ⊢
  subst hnode
  obtain rfl : ts = first :: rest := hchildren
  obtain ⟨hself, hbelow⟩ := everywhere_node.mp hu
  have hfirst := (hbelow first List.mem_cons_self).self
  have hframed : c.Framed src := hself.framed
  cases hregion : c.region? src with
  | none => simpa using hself.empty hregion
  | some region =>
    obtain ⟨lo, hi⟩ := region
    obtain ⟨lead, -, mid, -, hmid, hchain⟩ := hself.filled lo hi hregion
    have hholds : ∀ d ∈ rest.map label, src.Holds d.span := by
      simp only [List.forall_mem_map]
      intro v hv
      exact (hbelow v (List.mem_cons_of_mem _ hv)).self.framed.1
    have hle := hchain.le hholds
    have hstart := ht.written
    have htag := hplain
    have hend := hfirst.written
    simp only [Written, htkind, Kind.markup?, Option.some.injEq, forall_eq'] at hstart
    simp only [Written, hukind, forall_const] at htag
    simp only [Written, hfkind, Kind.markup?, Option.some.injEq, forall_eq'] at hend
    rw [hgstart, hbefore] at hstart
    rw [hgstop, hbehind] at hend
    rw [hgstop] at hle
    have hwhole := (hstart.append htag.2).append hend
    have hlt : g.start.offset < g.stop.offset := by
      have := hstart.le
      have := (hframed.element hukind).nonempty
      have := hend.le
      omega
    have hne := closeTag_ne_guard hframed hukind hregion hle hlt
    have hregion' := region?_take hframed hukind hregion hle hlt
    rw [(hframed.element hukind).start_eq] at hstart
    rw [Guard.fold_node, everywhere_node]
    refine ⟨⟨⟨⟨?_, framed_take hframed hukind hregion hle hlt hstart hwhole, ?_⟩, ?_, ?_⟩, ?_⟩, ?_⟩
    · simp [take_element hukind, Kind.isContainer]
    · simp [hregion']
    · rw [label_node, take_element hukind]
      refine ⟨by simp, ?_⟩
      rw [opening_take ((region?_element hukind).mp hregion).1 hne htag.1]
      simpa using hwhole
    · intro a b hab
      rw [label_node, hregion'] at hab
      obtain ⟨rfl, rfl⟩ := Prod.mk.inj (Option.some.inj hab)
      exact ⟨[], hnil, _, hend.stop, hgstop ▸ hchain⟩
    · exact fun v hv => hbelow v (List.mem_cons_of_mem _ hv)
    · rw [label_node, take_element hukind, hgstart]

/-- A folded element spans its guard, so the nodes around it still touch it. -/
theorem packed_foldGuards (hnil : [] ∈ leads)
    (hus : ∀ u ∈ us, Everywhere (Packed src leads true) u)
    (hplain : ∀ u ∈ us, u.label.Written src false) :
    (∀ a b, Chained Eq a (us.map label) b → Chained Eq a ((foldGuards us).map label) b) ∧
      ∀ u ∈ foldGuards us, Everywhere (Packed src leads true) u := by
  fun_induction foldGuards us with
  | case1 => exact ⟨fun a b h => h, hus⟩
  | case2 t => exact ⟨fun a b h => h, hus⟩
  | case3 t u us g hg ih =>
    simp only [List.forall_mem_cons] at hus hplain
    obtain ⟨ht, hu, hus⟩ := hus
    obtain ⟨hchain, hbelow⟩ := ih hus hplain.2.2
    obtain ⟨hfold, hspan⟩ := packed_fold hnil ht.self hu hplain.2.1 hg
    refine ⟨fun a b h => ?_, List.forall_mem_cons.mpr ⟨hfold, hbelow⟩⟩
    obtain ⟨rfl, -, hrest⟩ := h
    simp only [List.map_cons, chained_cons, hspan, true_and]
    exact hchain _ _ hrest
  | case4 t u us hg ih =>
    rw [List.forall_mem_cons] at hus hplain
    obtain ⟨hchain, hbelow⟩ := ih hus.2 hplain.2
    exact ⟨fun a b h => ⟨h.1, hchain _ _ h.2⟩, List.forall_mem_cons.mpr ⟨hus.1, hbelow⟩⟩

theorem fst_conditionalStep (c : Content) (ts : List Doc) : (conditionalStep c ts).1 = c := rfl

theorem packed_conditional {d : Doc} (hnil : [] ∈ leads)
    (h : Everywhere (Packed src leads false) d) :
    Everywhere (Packed src leads true) (conditional d) := by
  refine Everywhere.reshape ?_ ?_ h
  · intro c hc
    have hkind : c.kind.isContainer = false := by simpa using hc.shape.symm
    rw [packed_leaf hkind] at hc ⊢
    exact ⟨hc.1, hc.2.guard⟩
  intro c ts hpacked hbelow hus
  have hlabels := map_label_reshape fst_conditionalStep ts
  have hplain : ∀ u ∈ ts.map (reshape conditionalStep), u.label.Written src false := by
    intro u hu
    obtain ⟨t, ht, rfl⟩ := List.mem_map.mp hu
    rw [label_reshape fst_conditionalStep]
    exact (hbelow t ht).self.written
  generalize ts.map (reshape conditionalStep) = us at hus hlabels hplain ⊢
  obtain ⟨hchain, hfold⟩ := packed_foldGuards hnil hus hplain
  refine (hpacked.of_labels hlabels).exchange hpacked.written.guard ?_ ?_
  · rintro rfl
    rfl
  · exact fun a b h => ⟨hchain a b h, hfold⟩

end Conditional

section Cdata

theorem span_literal (t : Doc) : (literal t).label.span = t.label.span := by
  rw [literal]
  split <;> rfl

theorem packed_literal (h : Everywhere (Packed src leads guarded) t) :
    Everywhere (Packed src leads guarded) (literal t) := by
  rw [literal]
  split
  case h_2 => exact h
  case h_1 v hkind =>
    have hreads := h.self.written
    simp only [Written, hkind, Kind.markup?, Option.some.injEq, forall_eq'] at hreads
    rw [everywhere_leaf]
    exact packed_text rfl hreads

theorem joinText_cases (t : Doc) (us : List Doc) :
    joinText t us = t :: us ∨ ∃ u vs v w, us = u :: vs ∧ t.label.kind = .text v ∧
      u.label.kind = .text w ∧ joinText t us = t.setLabel { t.label with
        kind := .text (v ++ w)
        span := { t.label.span with stop := u.label.span.stop } } :: vs := by
  unfold joinText
  split
  case h_2 => exact .inl rfl
  case h_1 v u vs hv =>
    split
    case h_2 => exact .inl rfl
    case h_1 w hw => exact .inr ⟨u, vs, v, w, rfl, hv, hw, rfl⟩

theorem forall_coalesce {P : Doc → Prop}
    (hjoin : ∀ t v w span, t.label.kind = .text v → P t →
      P (t.setLabel { t.label with kind := .text w, span }))
    (h : ∀ u ∈ us, P u) : ∀ u ∈ coalesce us, P u := by
  induction us with
  | nil => exact h
  | cons t us ih =>
    rw [List.forall_mem_cons] at h
    have hrest := ih h.2
    have hcoalesce : coalesce (t :: us) = joinText t (coalesce us) := rfl
    rw [hcoalesce]
    rcases joinText_cases t (coalesce us) with hsame | ⟨u, vs, v, w, heq, hv, -, hjoined⟩
    · rw [hsame, List.forall_mem_cons]
      exact ⟨h.1, hrest⟩
    · rw [heq, List.forall_mem_cons] at hrest
      rw [hjoined, List.forall_mem_cons]
      exact ⟨hjoin t v _ _ hv h.1, hrest.2⟩

theorem packed_joinText (ht : Everywhere (Packed src leads guarded) t)
    (hus : ∀ u ∈ us, Everywhere (Packed src leads guarded) u) {a b : Nat}
    (hchain : Chained Eq a ((t :: us).map label) b) :
    Chained Eq a ((joinText t us).map label) b ∧
      ∀ u ∈ joinText t us, Everywhere (Packed src leads guarded) u := by
  rcases joinText_cases t us with hsame | ⟨u, vs, v, w, rfl, hv, hw, hjoin⟩
  · rw [hsame]
    exact ⟨hchain, List.forall_mem_cons.mpr ⟨ht, hus⟩⟩
  · obtain ⟨rfl, hu, hrest⟩ := hchain
    rw [List.forall_mem_cons] at hus
    have hfront := ht.self.written.text hv
    have hback := hus.1.self.written.text hw
    rw [← hu] at hback
    have hleaf := ht.self.toHoused.eq_leaf (by simp [hv, Kind.isContainer])
    rw [hjoin, List.forall_mem_cons]
    refine ⟨⟨by simp, by simpa using hrest⟩, ?_, hus.2⟩
    rw [hleaf, Tree.setLabel, everywhere_leaf]
    refine packed_text rfl ?_
    simpa using hfront.append hback

theorem packed_coalesce (hus : ∀ u ∈ us, Everywhere (Packed src leads guarded) u) {a b : Nat}
    (hchain : Chained Eq a (us.map label) b) :
    Chained Eq a ((coalesce us).map label) b ∧
      ∀ u ∈ coalesce us, Everywhere (Packed src leads guarded) u := by
  induction us generalizing a with
  | nil => exact ⟨hchain, hus⟩
  | cons u us ih =>
    rw [List.forall_mem_cons] at hus
    obtain ⟨hrest, hbelow⟩ := ih hus.2 hchain.2
    exact packed_joinText hus.1 hbelow ⟨hchain.1, hrest⟩

theorem fst_cdataStep (c : Content) (ts : List Doc) : (cdataStep c ts).1 = c := rfl

theorem packed_cdata {d : Doc} (h : Everywhere (Packed src leads guarded) d) :
    Everywhere (Packed src leads guarded) (cdata d) := by
  refine Everywhere.reshape (fun c hc => hc) ?_ h
  intro c ts hpacked _ hus
  have hlabels := map_label_reshape fst_cdataStep ts
  generalize ts.map (reshape cdataStep) = us at hus hlabels ⊢
  have hnode := hpacked.of_labels hlabels
  refine hnode.exchange hnode.written ?_ ?_
  · rintro rfl
    rfl
  intro a b hchain
  rw [cdataStep]
  split
  case isFalse => exact ⟨hchain, hus⟩
  case isTrue =>
    apply packed_coalesce
    · simp only [List.forall_mem_map]
      exact fun u hu => packed_literal (hus u hu)
    · refine (chained_congr ?_).mp hchain
      simp [Function.comp_def, span_literal]

end Cdata

section Interpolation

def Segment.chars : Segment → List Char
  | text cs => cs
  | expression cs => ['\x7b', '\x7b'] ++ cs ++ ['\x7d', '\x7d']

theorem flatMap_chars_segments (cs : List Char) : (segments cs).flatMap Segment.chars = cs := by
  fun_induction segments cs with
  | case1 cs hm => simp [Segment.chars]
  | case2 cs m hm ih =>
    rw [List.flatMap_cons, List.flatMap_cons, ih, match?_some_spec hm]
    simp [Segment.chars]

theorem byteLength_chars_expression (cs : List Char) :
    Text.byteLength (Segment.expression cs).chars = Text.byteLength cs + 4 := by
  have hopen : Text.byteLength ['\x7b', '\x7b'] = 2 := rfl
  have hclose : Text.byteLength ['\x7d', '\x7d'] = 2 := rfl
  rw [Segment.chars, Text.byteLength_append, Text.byteLength_append]
  omega

/-- The first segment reaches to where the cursor moves, and the others are read from there on. -/
theorem reads_segment {cursor : Location} {seg : Segment} {segs : List Segment} {b : Nat}
    (hreads : src.Reads cursor.offset ((seg :: segs).flatMap Segment.chars) b) :
    src.Reads cursor.offset seg.chars (src.shift cursor (Text.byteLength seg.chars)).offset ∧
      src.Reads (src.shift cursor (Text.byteLength seg.chars)).offset
        (segs.flatMap Segment.chars) b := by
  rw [List.flatMap_cons] at hreads
  obtain ⟨hfirst, hrest⟩ := hreads.divide
  rw [hfirst.offset_shift rfl]
  exact ⟨hfirst, hrest⟩

/-- What stands between the braces is read two bytes from either end. -/
theorem reads_between_braces {cs : List Char} {span : Span}
    (hreads : src.Reads span.start.offset (Segment.expression cs).chars span.stop.offset) :
    (src.shift span.start 2).offset = span.start.offset + 2 ∧
      (src.shift span.stop (-2)).offset = span.stop.offset - 2 ∧
      src.Reads (src.shift span.start 2).offset cs (src.shift span.stop (-2)).offset := by
  obtain ⟨hfront, hclose⟩ := hreads.divide
  obtain ⟨hopen, hinner⟩ := hfront.divide
  have hstart : (src.shift span.start 2).offset = span.start.offset + 2 := hopen.offset_shift rfl
  have hstop : (src.shift span.stop (-2)).offset =
      span.start.offset + Text.byteLength (['\x7b', '\x7b'] ++ cs) := hclose.offset_shift_neg rfl
  have htotal : span.stop.offset =
      span.start.offset + Text.byteLength (['\x7b', '\x7b'] ++ cs) + 2 := hclose.stop_eq
  refine ⟨hstart, by omega, ?_⟩
  rw [hstart, hstop]
  exact hinner

theorem packed_expressionPiece {cs : List Char} {span : Span} (hnil : [] ∈ leads)
    (hreads : src.Reads span.start.offset (Segment.expression cs).chars span.stop.offset) :
    Everywhere (Packed src leads guarded) (expressionPiece src cs span) := by
  obtain ⟨hstart, hstop, htext⟩ := reads_between_braces hreads
  rw [expressionPiece, everywhere_node]
  have hhoused : Housed src (expressionPiece src cs span) :=
    ⟨rfl, ⟨⟨_, hreads⟩, _, hreads⟩, by simp [expressionPiece, region?]⟩
  refine ⟨⟨hhoused, by simp [Written, Kind.markup?], ?_⟩, ?_⟩
  · intro lo hi hregion
    obtain ⟨rfl, rfl⟩ := Prod.mk.inj (Option.some.inj hregion)
    exact ⟨[], hnil, _, hstart ▸ htext.start, hstart.symm, hstop⟩
  · rw [List.forall_mem_singleton, everywhere_leaf]
    exact packed_text rfl (by simpa using htext)

/-- The pieces of a text stand one right behind the other from the cursor on. -/
theorem packed_pieces (hnil : [] ∈ leads) (ht : t = .leaf c) {isFirst : Bool} {cursor : Location}
    {segs : List Segment} {b : Nat}
    (hreads : src.Reads cursor.offset (segs.flatMap Segment.chars) b) :
    Chained Eq cursor.offset ((pieces src t isFirst cursor segs).map label) b ∧
      ∀ u ∈ pieces src t isFirst cursor segs, Everywhere (Packed src leads guarded) u := by
  induction segs generalizing isFirst cursor with
  | nil =>
    have hstop : b = cursor.offset := by simpa using hreads.stop_eq
    exact ⟨hstop.symm, by simp [pieces]⟩
  | cons seg segs ih =>
    obtain ⟨hfirst, hrest⟩ := reads_segment hreads
    cases seg with
    | text cs =>
      rw [Segment.chars] at hfirst hrest
      rw [pieces]
      split
      case isTrue hcs =>
        have hsame : (src.shift cursor (Text.byteLength cs)).offset = cursor.offset := by
          rw [hfirst.stop_eq, hcs]
          rfl
        simpa [hsame] using ih hrest
      case isFalse =>
        obtain ⟨hchain, hbelow⟩ := ih hrest
        refine ⟨⟨by simp [textPiece, ht], by simpa [textPiece, ht] using hchain⟩, ?_⟩
        rw [List.forall_mem_cons]
        refine ⟨?_, hbelow⟩
        simp only [textPiece, ht, everywhere_leaf]
        exact packed_text rfl (by simpa using hfirst)
    | expression cs =>
      rw [byteLength_chars_expression] at hfirst hrest
      obtain ⟨hchain, hbelow⟩ := ih hrest
      rw [pieces, List.forall_mem_cons]
      exact ⟨⟨rfl, hchain⟩, packed_expressionPiece hnil hfirst, hbelow⟩

theorem packed_splitText (hnil : [] ∈ leads) (ht : Everywhere (Packed src leads guarded) t) :
    Chained Eq t.label.span.start.offset ((splitText src t).map label) t.label.span.stop.offset ∧
      ∀ u ∈ splitText src t, Everywhere (Packed src leads guarded) u := by
  have hself : Chained Eq t.label.span.start.offset ([t].map label) t.label.span.stop.offset ∧
      ∀ u ∈ [t], Everywhere (Packed src leads guarded) u := by
    simpa using ht
  rw [splitText]
  split
  case h_2 => exact hself
  case h_1 v hkind =>
    split
    case h_1 => exact hself
    case h_2 =>
      have hleaf := ht.self.toHoused.eq_leaf (by simp [hkind, Kind.isContainer])
      refine packed_pieces hnil hleaf ?_
      rw [flatMap_chars_segments]
      exact ht.self.written.text hkind

theorem packed_flatMap_splitText (hnil : [] ∈ leads)
    (hus : ∀ u ∈ us, Everywhere (Packed src leads guarded) u) {a b : Nat}
    (hchain : Chained Eq a (us.map label) b) :
    Chained Eq a ((us.flatMap (splitText src)).map label) b := by
  induction us generalizing a with
  | nil => exact hchain
  | cons u us ih =>
    obtain ⟨rfl, hrest⟩ := hchain
    rw [List.forall_mem_cons] at hus
    rw [List.flatMap_cons, List.map_append, chained_eq_append]
    exact ⟨_, (packed_splitText hnil hus.1).1, ih hus.2 hrest⟩

theorem fst_interpolationStep (src : Source) (c : Content) (ts : List Doc) :
    (interpolationStep src c ts).1 = c := rfl

theorem packed_interpolation {d : Doc} (hnil : [] ∈ leads)
    (h : Everywhere (Packed src leads guarded) d) :
    Everywhere (Packed src leads guarded) (interpolation src d) := by
  refine Everywhere.reshape (fun c hc => hc) ?_ h
  intro c ts hpacked _ hus
  have hlabels := map_label_reshape (fst_interpolationStep src) ts
  generalize ts.map (reshape (interpolationStep src)) = us at hus hlabels ⊢
  have hnode := hpacked.of_labels hlabels
  refine hnode.exchange hnode.written ?_ ?_
  · rintro rfl
    simp [interpolationStep]
  intro a b hchain
  rw [interpolationStep]
  split
  case isTrue => exact ⟨hchain, hus⟩
  case isFalse =>
    refine ⟨packed_flatMap_splitText hnil hus hchain, ?_⟩
    simp only [List.mem_flatMap]
    rintro v ⟨u, hu, hv⟩
    exact (packed_splitText hnil (hus u hu)).2 v hv

end Interpolation

end Markup.Reshape
