import Markup.Proofs.Annotation
import Markup.Proofs.Drafting
import Markup.Proofs.Gaps
import Markup.Proofs.Repacking

/-! A drafted document after each pass. It is packed until whitespace is cut off and settled from
then on, since annotations leave spans and markup alone. -/
namespace Markup

open Content Markup.Tree

/-- Kinds that annotations do not tell apart: any two texts, and elements up to what is noted of
their closing tags. -/
def Kind.Similar (k l : Kind) : Prop :=
  l = k ∨ (∃ x y, k = .text x ∧ l = .text y) ∨
    ∃ e closing, k = .element e ∧ l = .element { e with hasComponentClosing := closing }

theorem Kind.Similar.congr {β : Type} {F : Kind → β} {k l : Kind} (h : Similar k l)
    (htext : ∀ x y, F (.text x) = F (.text y))
    (helement : ∀ e closing,
      F (.element { e with hasComponentClosing := closing }) = F (.element e)) : F l = F k := by
  rcases h with rfl | ⟨x, y, rfl, rfl⟩ | ⟨e, closing, rfl, rfl⟩
  · rfl
  · exact htext y x
  · exact helement e closing

namespace Content

/-- The same node but for annotations of other kinds than the whitespace around it. -/
structure Alike (c d : Content) : Prop where
  span : d.span = c.span
  leading : d.notes.hasLeadingSpaces = c.notes.hasLeadingSpaces
  trailing : d.notes.hasTrailingSpaces = c.notes.hasTrailingSpaces
  kind : d.kind = c.kind ∨ ∃ e closing, c.kind = .element e ∧
    d.kind = .element { e with hasComponentClosing := closing }

variable {src : Source} {c d c' d' : Content} {guarded : Bool}

theorem Alike.similar (h : Alike c d) : c.kind.Similar d.kind := h.kind.imp id .inr

theorem Alike.isContainer (h : Alike c d) : d.kind.isContainer = c.kind.isContainer := by
  rcases h.kind with hkind | ⟨e, closing, hc, hd⟩
  · rw [hkind]
  · rw [hc, hd]
    rfl

theorem Alike.framed (h : Alike c d) (hc : c.Framed src) : d.Framed src := by
  rcases h.kind with hkind | ⟨e, closing, hce, hde⟩
  · rw [Framed, hkind, h.span]
    exact hc
  · have he := hc.element hce
    rw [Framed, hde, h.span]
    exact ⟨hc.1, he.holds, he.start_eq, he.nonempty, he.stop_le, he.close⟩

theorem Alike.region? (h : Alike c d) : d.region? src = c.region? src := by
  rcases h.kind with hkind | ⟨e, closing, hce, hde⟩
  · simp only [Content.region?, hkind, h.span]
  · simp only [Content.region?, hce, hde, h.span]

theorem Alike.written (h : Alike c d) (hc : c.Written src guarded) : d.Written src guarded := by
  rcases h.kind with hkind | ⟨e, closing, hce, hde⟩
  · rw [Written, hkind, h.span]
    exact hc
  · rw [Written, hce] at hc
    rw [Written, hde]
    exact hc

theorem Alike.apart (h : Alike c d) (h' : Alike c' d') (hc : Apart c c') : Apart d d' := by
  rw [Apart, h.span, h'.span, h.trailing, h'.leading]
  exact hc

end Content

section Alike

variable {src : Source} {cs ds : List Content} {a b : Nat}

theorem Chained.alike {R : Nat → Nat → Prop} (h : List.Forall₂ Alike cs ds)
    (hcs : Chained R a cs b) : Chained R a ds b := by
  induction h generalizing a with
  | nil => exact hcs
  | cons hcd _ ih =>
    rw [chained_cons, hcd.span]
    exact ⟨hcs.1, ih hcs.2⟩

theorem isChain_of_forall₂ {R S : Content → Content → Prop}
    (h : List.Forall₂ S cs ds) (hcs : cs.IsChain R)
    (hR : ∀ c d c' d', S c d → S c' d' → R c c' → R d d') : ds.IsChain R := by
  induction h with
  | nil => exact .nil
  | cons hcd hrest ih =>
    rw [List.isChain_cons] at hcs ⊢
    refine ⟨?_, ih hcs.2⟩
    intro d' hd'
    cases hrest with
    | nil => simp at hd'
    | cons hcd' _ =>
      obtain rfl : _ = d' := by simpa using hd'
      exact hR _ _ _ _ hcd hcd' (hcs.1 _ rfl)

theorem last_alike (h : List.Forall₂ Alike cs ds)
    (hcs : ∀ c ∈ cs.getLast?, c.span.stop.offset < b ↔ c.notes.hasTrailingSpaces = some true) :
    ∀ d ∈ ds.getLast?, d.span.stop.offset < b ↔ d.notes.hasTrailingSpaces = some true := by
  induction h with
  | nil => simp
  | cons hcd hrest ih =>
    cases hrest with
    | nil => simpa [hcd.span, hcd.trailing] using hcs
    | cons hcd' hrest =>
      rw [List.getLast?_cons_cons] at hcs ⊢
      exact ih hcs

theorem Settled.alike {t u : Doc} (h : Related Alike t u) (ht : Settled src t) : Settled src u := by
  have hlabel := h.label
  have hlabels := h.labels
  have hapart := isChain_of_forall₂ hlabels ht.apart fun _ _ _ _ => Alike.apart
  refine ⟨⟨⟨?_, hlabel.framed ht.framed, ?_⟩, ?_, hapart, ?_⟩, hlabel.written ht.written⟩
  · rw [← h.isSome_children?, ht.shape, hlabel.isContainer]
  · intro hregion
    rw [hlabel.region?] at hregion
    have hchildren := h.children
    rw [ht.empty hregion] at hchildren
    exact List.forall₂_nil_left_iff.mp hchildren
  · intro lo hi hregion
    rw [hlabel.region?] at hregion
    exact Chained.alike hlabels (ht.spaced lo hi hregion)
  · intro lo hi hregion
    rw [hlabel.region?] at hregion
    exact last_alike hlabels (ht.last lo hi hregion)

theorem settled_decorate {g : Surroundings → Doc → Content} {d : Doc}
    (hg : ∀ a t, Alike t.label (g a t)) (h : Everywhere (Settled src) d) :
    Everywhere (Settled src) (d.decorate g {}) :=
  (related_decorate hg {} d).everywhere (fun _ _ => Settled.alike) h

end Alike

namespace Annotate

theorem alike_displayContent (o : Options) (a : Surroundings) (t : Doc) :
    Alike t.label (displayContent o a t) :=
  ⟨rfl, rfl, rfl, .inl rfl⟩

theorem alike_selfClosingContent (a : Surroundings) (t : Doc) :
    Alike t.label (selfClosingContent a t) :=
  ⟨rfl, rfl, rfl, .inl rfl⟩

theorem alike_componentContent (src : Source) (a : Surroundings) (t : Doc) :
    Alike t.label (componentContent src a t) := by
  rw [componentContent]
  split
  case h_1 e hkind => exact ⟨rfl, rfl, rfl, .inr ⟨e, _, hkind, rfl⟩⟩
  case h_2 => exact ⟨rfl, rfl, rfl, .inl rfl⟩

theorem alike_boundaryContent (a : Surroundings) (t : Doc) :
    Alike t.label (boundaryContent a t) := by
  have hleading : (noteDangling (rootNode t)).hasLeadingSpaces =
      t.label.notes.hasLeadingSpaces := by
    rw [noteDangling]
    split <;> rfl
  have htrailing :
      (noteDangling (rootNode t)).hasTrailingSpaces = t.label.notes.hasTrailingSpaces := by
    rw [noteDangling]
    split <;> rfl
  rw [boundaryContent]
  split
  · exact ⟨rfl, hleading, htrailing, .inl rfl⟩
  · exact ⟨rfl, hleading, htrailing, .inl rfl⟩

end Annotate

namespace Pass

/-- What holds of a drafted document when the turn of a pass comes. -/
def Ready (src : Source) : Pass → Doc → Prop
  | linefeed => Everywhere (Packed src [[]] false)
  | conditional => Everywhere (Packed src [[], ['\n']] false)
  | cdata | interpolation | whitespace => Everywhere (Packed src [[], ['\n']] true)
  | display | selfClosing | componentClosing | boundary | simpleElement => Everywhere (Settled src)

variable {o : Options} {p : Pass} {d : Doc} {n : Nat}

theorem Ready.written {src : Source} (h : Ready src p d) :
    Everywhere (fun t => t.label.Written src true) d := by
  cases p with
  | linefeed => exact h.mono fun _ ht => ht.written.guard
  | conditional => exact h.mono fun _ ht => ht.written.guard
  | cdata => exact h.mono fun _ ht => ht.written
  | interpolation => exact h.mono fun _ ht => ht.written
  | whitespace => exact h.mono fun _ ht => ht.written
  | display => exact h.mono fun _ ht => ht.written
  | selfClosing => exact h.mono fun _ ht => ht.written
  | componentClosing => exact h.mono fun _ ht => ht.written
  | boundary => exact h.mono fun _ ht => ht.written
  | simpleElement => exact h.mono fun _ ht => ht.written

/-- Each pass makes the document ready for the pass behind it. -/
theorem ready_apply (o : Options) :
    List.IsChain (fun p q => ∀ d, Ready o.source p d → Ready o.source q (p.apply o d)) all := by
  have hlead : ∀ lead ∈ [[], ['\n']], ∀ c ∈ lead, Text.isSpace c = true := by
    simp [Text.isSpace]
  simp only [all, List.isChain_cons_cons, List.isChain_singleton, and_true]
  refine ⟨?_, ?_, ?_, ?_, ?_, ?_, ?_, ?_, ?_⟩
  · exact fun d h => Reshape.packed_linefeed h
  · exact fun d h => Reshape.packed_conditional (by simp) h
  · exact fun d h => Reshape.packed_cdata h
  · intro d h
    rw [apply]
    split
    case isTrue => exact Reshape.packed_interpolation (by simp) h
    case isFalse => exact h
  · exact fun d h => Reshape.settled_whitespace hlead h
  · exact fun d h => settled_decorate (Annotate.alike_displayContent o) h
  · exact fun d h => settled_decorate Annotate.alike_selfClosingContent h
  · exact fun d h => settled_decorate (Annotate.alike_componentContent o.source) h
  · exact fun d h => settled_decorate Annotate.alike_boundaryContent h

/-- A document that is ready for the first of some passes is ready for each one in its turn. -/
theorem ready_applyAll {ps : List Pass}
    (hchain : List.IsChain (fun p q => ∀ d, Ready o.source p d → Ready o.source q (p.apply o d))
      (ps ++ [p]))
    (hfirst : ∀ q ∈ (ps ++ [p]).head?, Ready o.source q d) :
    Ready o.source p (applyAll o ps d) := by
  induction ps generalizing d with
  | nil => exact hfirst p rfl
  | cons q ps ih =>
    rw [List.cons_append, List.isChain_cons] at hchain
    exact ih hchain.2 fun r hr => hchain.1 r hr d (hfirst q rfl)

theorem ready_take (hn : n < all.length) (h : Everywhere (Packed o.source [[]] false) d) :
    Ready o.source all[n] (applyAll o (all.take n) d) := by
  apply ready_applyAll
  · rw [← List.take_succ_eq_append_getElem hn]
    exact (ready_apply o).take _
  · rw [← List.take_succ_eq_append_getElem hn]
    intro q hq
    obtain rfl : linefeed = q := by simpa [all] using hq
    exact h

/-- A drafted document, when it is annotated and only simple elements are left to fold. -/
theorem settled_take (h : Everywhere (Packed o.source [[]] false) d) :
    Everywhere (Settled o.source) (applyAll o (all.take 9) d) :=
  ready_take (by decide : 9 < all.length) h

end Pass

theorem Content.Framed.spans {src : Source} {c : Content} (h : c.Framed src) :
    ∀ span ∈ c.spans, ∃ text, src.slice span = .ok text := by
  have hslice (s : Span) (hs : src.Holds s) : ∃ text, src.slice s = .ok text := by
    obtain ⟨cs, hcs⟩ := hs
    exact Source.exists_slice_eq_ok hcs
  intro span hspan
  apply hslice
  rw [Content.spans] at hspan
  split at hspan
  case h_1 e hkind =>
    have helement := h.element hkind
    simp only [List.mem_cons, Option.mem_toList] at hspan
    rcases hspan with rfl | rfl | hclose
    · exact h.1
    · exact helement.holds
    · exact (helement.close span hclose).1
  case h_2 =>
    rw [List.mem_singleton.mp hspan]
    exact h.1

theorem checkSpans_of_housed {src : Source} {d : Doc} (h : Everywhere (Housed src) d) :
    (Store.ofDoc d).checkSpans src = .ok () := by
  have hframed : Everywhere (fun t => t.label.Framed src) d := h.mono fun _ ht => ht.framed
  rw [everywhere_label_iff] at hframed
  exact Store.checkSpans_ofDoc fun c hc => (hframed c hc).spans

/-- A drafted document passes the check of its spans, so it is prepared. -/
theorem prepare_ofDoc {o : Options} {d : Doc} (h : Everywhere (Packed o.source [[]] false) d) :
    prepare o (.ofDoc d) =
      .ok (.ofDoc (Reshape.simpleElement (Pass.applyAll o (Pass.all.take 9) d))) := by
  have hcheck := checkSpans_of_housed (h.mono fun _ ht => ht.toHoused)
  rw [prepare, hcheck]
  exact Pass.runAll_ofDoc o Pass.all d

end Markup
