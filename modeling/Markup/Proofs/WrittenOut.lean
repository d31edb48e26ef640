import Markup.Proofs.Folding
import Markup.Proofs.TextFidelity
import Markup.Proofs.Words

/-! Elements that are written out as text. What takes the place of an element is its source just if
the element is plain there: no condition, no dropped line feed and the closing tag of its
own name. -/
namespace Markup.Reshape

open Content Markup.Tree

variable {src : Source} {t u : Doc} {ts us : List Doc} {a b : Nat} {e : Element} {inner : Doc}
  {word : String}

/-- The elements that are folded behind the node `t`, as they are when their turn comes. -/
def simplesBehind : Doc → List Doc → List Doc
  | _, [] => []
  | _, [_] => []
  | t, u :: v :: ts =>
    if isSimpleBetween t u v then u :: simplesBehind (joinAcross t u v) ts
    else simplesBehind u (v :: ts)

def simples : List Doc → List Doc
  | [] => []
  | t :: ts => simplesBehind t ts

/-- All elements of a document that are written out, in the order of folding. -/
def writtenOut (d : Doc) : List Doc := d.collect simpleElementStep fun _ ts => simples ts

/-- Without a condition, with the content right behind the opening tag and with the closing tag of
the same name. -/
def Plain (src : Source) (u : Doc) : Prop :=
  ∃ e inner tag, u.label.kind = .element e ∧ u.children = [inner] ∧ e.condition = none ∧
    inner.label.span.start.offset = e.openTag.stop.offset ∧ e.closeTag = some tag ∧
    src.slice tag = .ok ("</" ++ e.fullName ++ ">")

theorem map_markup_simplesBehind (t : Doc) (us : List Doc) :
    (simplesBehind t us).map markup = foldedBehind t us := by
  fun_induction simplesBehind t us with
  | case1 t => simp [foldedBehind]
  | case2 t u => simp [foldedBehind]
  | case3 t u v ts hsimple ih => simp [foldedBehind, hsimple, ih]
  | case4 t u v ts hsimple ih => simp [foldedBehind, hsimple, ih]

/-- The elements that are written out are those that are reported. -/
theorem map_markup_writtenOut (d : Doc) : (writtenOut d).map markup = foldedElements d := by
  have hlist (ts : List Doc) : (simples ts).map markup = folded ts := by
    cases ts with
    | nil => rfl
    | cons t ts => exact map_markup_simplesBehind t ts
  induction d using Tree.induct with
  | leaf c => simp [writtenOut, foldedElements]
  | node c ts ih =>
    simp only [writtenOut, foldedElements, collect_node, List.map_append, List.map_flatMap, hlist]
    congr 1
    exact List.flatMap_congr ih

theorem mem_simplesBehind (h : u ∈ simplesBehind t us) : u ∈ us ∧ isSimple u = true := by
  fun_induction simplesBehind t us with
  | case1 t => simp at h
  | case2 t v => simp at h
  | case3 t v w ts hsimple ih =>
    rcases List.mem_cons.mp h with rfl | h
    · simp only [isSimpleBetween, Bool.and_eq_true] at hsimple
      exact ⟨List.mem_cons_self, hsimple.1.2⟩
    · obtain ⟨hmem, hu⟩ := ih h
      exact ⟨by simp [hmem], hu⟩
  | case4 t v w ts hsimple ih =>
    obtain ⟨hmem, hu⟩ := ih h
    exact ⟨List.mem_cons_of_mem _ hmem, hu⟩

section Element

theorem toList_markup (h : Simple u e inner word) :
    (markup u).toList = ('<' :: (e.fullName.toList ++ ['>'])) ++
      (word.toList ++ '<' :: '/' :: (e.fullName.toList ++ ['>'])) := by
  simp [markup, h.kind, h.children, textOf, h.innerKind, Kind.element?, Kind.text?]

/-- The source of a simple element, in its parts: the opening, a gap, the word and what
closes it. -/
theorem exists_parts (hu : Spaced src u) (hwritten : u.label.Written src true)
    (h : Simple u e inner word)
    (hinner : src.Reads inner.label.span.start.offset word.toList inner.label.span.stop.offset) :
    e.closeTag ≠ some e.openTag ∧ ∃ gap close, (∀ c ∈ gap, Text.isSpace c = true) ∧
      src.Reads e.openTag.stop.offset gap inner.label.span.start.offset ∧
      src.Reads u.label.span.start.offset (e.opening.toList ++ (gap ++ (word.toList ++ close)))
        u.label.span.stop.offset ∧
      (e.closeTag = none → close = []) ∧
      ∀ tag, e.closeTag = some tag → src.Reads tag.start.offset close tag.stop.offset := by
  obtain ⟨lo, hi, hregion⟩ := hu.toHoused.exists_region (by simp [h.children] : inner ∈ u.children)
  obtain ⟨htags, rfl, hhi⟩ := (region?_element h.kind).mp hregion
  have hspaced := hu.spaced _ hi hregion
  rw [h.children] at hspaced
  obtain ⟨⟨gap, hgap, hblank⟩, hbehind⟩ := hspaced
  have hend : inner.label.span.stop.offset = hi := by
    have hlast := hu.last _ hi hregion inner.label (by simp [h.children])
    have hmarked : inner.label.notes.hasTrailingSpaces ≠ some true := by
      intro htrue
      simpa [hasTrailingSpaces, htrue] using h.innerTrailing
    have hle : inner.label.span.stop.offset ≤ hi := Source.Blank.le hbehind
    have hlt := mt hlast.mp hmarked
    omega
  have hframed := hu.framed.element h.kind
  obtain ⟨close, hclose, hnone, htag⟩ : ∃ close, src.Reads hi close u.label.span.stop.offset ∧
      (e.closeTag = none → close = []) ∧
      ∀ tag, e.closeTag = some tag → src.Reads tag.start.offset close tag.stop.offset := by
    cases hcase : e.closeTag with
    | none =>
      refine ⟨[], ?_, fun _ => rfl, nofun⟩
      have hstop : u.label.span.stop.offset = hi := by simpa [hcase] using hhi
      rw [hstop, ← hend]
      exact hinner.stop
    | some tag =>
      obtain ⟨⟨close, hreads⟩, hstop, -⟩ := hframed.close tag hcase
      have hstart : tag.start.offset = hi := by simpa [hcase] using hhi
      refine ⟨close, ?_, nofun, ?_⟩
      · rwa [← hstart, ← hstop]
      · rintro tag' ⟨⟩
        exact hreads
  refine ⟨htags, gap, close, hblank, hgap, ?_, hnone, htag⟩
  rw [Written, h.kind] at hwritten
  rw [← hend] at hclose
  rw [← hframed.start_eq]
  exact hwritten.2.append (hgap.append (hinner.append hclose))

theorem toList_opening (h : Simple u e inner word) (htags : e.closeTag ≠ some e.openTag)
    (hcondition : e.condition = none) :
    e.opening.toList = '<' :: (e.fullName.toList ++ ['>']) := by
  rw [Element.opening_of_condition hcondition, if_neg htags, h.attrs]
  simp [Draft.startTag]

theorem toList_opening_conditional {condition : String} (h : Simple u e inner word)
    (htags : e.closeTag ≠ some e.openTag) (hcondition : e.condition = some condition) :
    e.opening.toList = (Text.condition ++ (condition.toList ++ "]><!-->".toList)) ++
      (('<' :: (e.fullName.toList ++ ['>'])) ++ "<!--<![endif]-->".toList) := by
  rw [Element.opening, hcondition, if_neg htags, h.attrs]
  simp [Draft.startTag, Text.condition]

/-- Without a condition, what is written out differs from the source in the gap and in what closes
the element. -/
theorem parts_eq_iff_plain {gap close : List Char} (h : Simple u e inner word)
    (hcondition : e.condition = none)
    (hgap : src.Reads e.openTag.stop.offset gap inner.label.span.start.offset)
    (hnone : e.closeTag = none → close = [])
    (htag : ∀ tag, e.closeTag = some tag → src.Reads tag.start.offset close tag.stop.offset) :
    gap = [] ∧ close = '<' :: '/' :: (e.fullName.toList ++ ['>']) ↔ Plain src u := by
  constructor
  · rintro ⟨rfl, hclose⟩
    cases hcase : e.closeTag with
    | none => simp [hnone hcase] at hclose
    | some tag =>
      refine ⟨e, inner, tag, h.kind, h.children, hcondition, by simpa using hgap.stop_eq, hcase, ?_⟩
      rw [Source.slice_eq_ok_iff]
      simpa [hclose] using htag tag hcase
  · rintro ⟨e', inner', tag, hkind, hchildren, -, hstart, hclose, hslice⟩
    obtain rfl : e' = e := by simpa [h.kind] using hkind.symm
    obtain rfl : inner' = inner := by simpa [h.children] using hchildren.symm
    rw [hstart] at hgap
    rw [Source.slice_eq_ok_iff] at hslice
    refine ⟨hgap.eq_nil, ?_⟩
    simpa using (htag tag hclose).unique hslice

/-- A simple element whose word is in the source reads as it is written out just if it is plain. -/
theorem slice_eq_markup_iff (hu : Spaced src u) (hwritten : u.label.Written src true)
    (h : Simple u e inner word)
    (hinner : src.Reads inner.label.span.start.offset word.toList inner.label.span.stop.offset) :
    src.slice u.label.span = .ok (markup u) ↔ Plain src u := by
  obtain ⟨htags, gap, close, hblank, hgap, hreads, hnone, htag⟩ := exists_parts hu hwritten h hinner
  have hword : ∀ c ∈ word.toList, Text.isSpace c = false := by
    have hspace := h.noSpace
    simpa [Text.hasSpace] using hspace
  have hsame : src.slice u.label.span = .ok (markup u) ↔
      e.opening.toList ++ (gap ++ (word.toList ++ close)) = (markup u).toList := by
    rw [Source.slice_eq_ok_iff]
    exact ⟨fun hm => hreads.unique hm, fun heq => heq ▸ hreads⟩
  rw [hsame, toList_markup h]
  cases hcondition : e.condition with
  | none =>
    rw [toList_opening h htags hcondition, List.append_cancel_left_eq,
      Text.blank_append_eq_iff hblank hword]
    exact parts_eq_iff_plain h hcondition hgap hnone htag
  | some condition =>
    constructor
    · intro heq
      have hspace : ' ' ∉ word.toList := by
        intro hmem
        simpa [Text.isSpace] using hword _ hmem
      rw [toList_opening_conditional h htags hcondition, List.append_assoc (Text.condition ++ _),
        List.append_assoc ('<' :: _)] at heq
      -- Names are arbitrary, so this is not plain from the first characters: a name may itself
      -- begin like a condition.
      refine absurd heq (Text.conditional_ne_plain hspace ?_)
      simp
      omega
    · rintro ⟨e', inner', tag, hkind, -, hnone', -⟩
      obtain rfl : e' = e := by simpa [h.kind] using hkind.symm
      simp [hcondition] at hnone'

end Element

/-- The node is no text or reads its value in the source. -/
def Faithful (src : Source) (t : Doc) : Prop :=
  ∀ v, t.label.kind = .text v →
    src.Reads t.label.span.start.offset v.toList t.label.span.stop.offset

theorem touches_simple {v : Doc} (h : Simple u e inner word)
    (htu : src.Blank t.label.span.stop.offset u.label.span.start.offset)
    (huv : src.Blank u.label.span.stop.offset v.label.span.start.offset)
    (hleft : Apart t.label u.label) (hright : Apart u.label v.label) :
    t.label.span.stop.offset = u.label.span.start.offset ∧
      u.label.span.stop.offset = v.label.span.start.offset := by
  have hleading : u.label.notes.hasLeadingSpaces ≠ some true := by
    intro htrue
    simpa [hasLeadingSpaces, htrue] using h.leading
  have htrailing : u.label.notes.hasTrailingSpaces ≠ some true := by
    intro htrue
    simpa [hasTrailingSpaces, htrue] using h.trailing
  have hbefore := mt hleft.2.mp hleading
  have hbehind := mt hright.1.mp htrailing
  have := htu.le
  have := huv.le
  omega

theorem faithful_joinAcross {v : Doc} (ht : Faithful src t) (hv : Faithful src v)
    (hsimple : isSimpleBetween t u v = true) (hu : src.slice u.label.span = .ok (markup u))
    (htu : t.label.span.stop.offset = u.label.span.start.offset)
    (huv : u.label.span.stop.offset = v.label.span.start.offset) :
    Faithful src (joinAcross t u v) := by
  obtain ⟨⟨x, y, hx, hy⟩, -⟩ := isSimpleBetween_cases hsimple
  have hfirst := ht x hx
  have hlast := hv y hy
  rw [Source.slice_eq_ok_iff, ← htu, huv] at hu
  intro value hvalue
  obtain rfl : x ++ markup u ++ y = value := by
    simpa [joinAcross, textOf, hx, hy, Kind.text?] using hvalue
  simpa [joinAcross] using hfirst.append (hu.append hlast)

theorem faithful_foldBehind (ht : Everywhere (Faithful src) t)
    (hus : ∀ u ∈ us, Everywhere (Faithful src) u)
    (hchain : Chained src.Blank a ((t :: us).map label) b)
    (hapart : List.IsChain Apart ((t :: us).map label))
    (hmarkup : ∀ u ∈ simplesBehind t us, src.slice u.label.span = .ok (markup u)) :
    ∀ x ∈ foldBehind t us, Everywhere (Faithful src) x := by
  fun_induction foldBehind t us generalizing a with
  | case1 t => simpa using ht
  | case2 t u => simpa using ⟨ht, by simpa using hus⟩
  | case3 t u v ts hsimple ih =>
    rw [simplesBehind, if_pos hsimple, List.forall_mem_cons] at hmarkup
    simp only [List.forall_mem_cons] at hus
    obtain ⟨-, hv, hts⟩ := hus
    obtain ⟨hat, htu, huv, hrest⟩ := hchain
    simp only [List.map_cons, List.isChain_cons_cons] at hapart
    obtain ⟨hleft, hright, hapart⟩ := hapart
    obtain ⟨-, e, inner, word, hu⟩ := isSimpleBetween_cases hsimple
    obtain ⟨hbefore, hbehind⟩ := touches_simple hu htu huv hleft hright
    have hjoined := faithful_joinAcross ht.self hv.self hsimple hmarkup.1 hbefore hbehind
    refine ih (ht.setLabel hjoined) hts (a := a) ?_ ?_ hmarkup.2
    · simpa [joinAcross] using ⟨hat, hrest⟩
    · rw [List.isChain_cons] at hapart
      rw [List.map_cons, List.isChain_cons]
      refine ⟨fun d hd => ?_, hapart.2⟩
      simpa [Apart, joinAcross] using hapart.1 d hd
  | case4 t u v ts hsimple ih =>
    rw [simplesBehind, if_neg hsimple] at hmarkup
    rw [List.forall_mem_cons] at hus ⊢
    rw [List.map_cons, List.map_cons, List.isChain_cons_cons] at hapart
    exact ⟨ht, ih hus.1 hus.2 hchain.2 hapart.2 hmarkup⟩

theorem writtenOut_node (c : Content) (ts : List Doc) :
    writtenOut (.node c ts) = ts.flatMap writtenOut ++ simples (ts.map simpleElement) :=
  collect_node _ _ c ts

theorem simpleElement_node (c : Content) (ts : List Doc) :
    simpleElement (.node c ts) = .node c (foldSimple (ts.map simpleElement)) :=
  reshape_node _ c ts

/-- If all elements that are written out read so, all texts are faithful in the end. -/
theorem faithful_simpleElement {d : Doc} (h : Everywhere (Settled src) d)
    (hmarkup : ∀ u ∈ writtenOut d, src.slice u.label.span = .ok (markup u)) :
    Everywhere (Faithful src) (simpleElement d) := by
  induction d using Tree.induct with
  | leaf c =>
    rw [simpleElement, reshape_leaf, everywhere_leaf]
    exact fun v hv => h.self.written.text hv
  | node c ts ih =>
    obtain ⟨hself, hbelow⟩ := everywhere_node.mp h
    rw [writtenOut_node, List.forall_mem_append] at hmarkup
    have hus : ∀ u ∈ ts.map simpleElement, Everywhere (Faithful src) u := by
      simp only [List.forall_mem_map]
      intro t ht
      exact ih t ht (hbelow t ht) fun u hu => hmarkup.1 u (List.mem_flatMap.mpr ⟨t, ht, hu⟩)
    have hnode : Spaced src (.node c (ts.map simpleElement)) :=
      Spaced.of_labels hself.toSpaced (map_label_reshape fst_simpleElementStep ts)
    have hsimples := hmarkup.2
    rw [simpleElement_node, everywhere_node]
    refine ⟨?_, ?_⟩
    · intro v hv
      have hshape := hself.shape
      simp [show c.kind = .text v from hv, Kind.isContainer] at hshape
    · generalize ts.map simpleElement = us at hus hnode hsimples ⊢
      cases us with
      | nil => simp [foldSimple]
      | cons t us =>
        rw [List.forall_mem_cons] at hus
        obtain ⟨lo, hi, hregion⟩ := hnode.toHoused.exists_region List.mem_cons_self
        exact faithful_foldBehind hus.1 hus.2 (hnode.spaced lo hi hregion) hnode.apart hsimples

theorem slice_eq_markup_iff_of_mem {u : Doc} (h : ∀ t ∈ ts, Everywhere (Settled src) t)
    (hus : ∀ u ∈ ts.map simpleElement, Everywhere (Faithful src) u)
    (hu : u ∈ simples (ts.map simpleElement)) :
    src.slice u.label.span = .ok (markup u) ↔ Plain src u := by
  have hmem : u ∈ ts.map simpleElement ∧ isSimple u = true := by
    generalize ts.map simpleElement = us at hu ⊢
    cases us with
    | nil => simp [simples] at hu
    | cons t us =>
      obtain ⟨hmem, hsimple⟩ := mem_simplesBehind hu
      exact ⟨List.mem_cons_of_mem _ hmem, hsimple⟩
  obtain ⟨t, ht, rfl⟩ := List.mem_map.mp hmem.1
  obtain ⟨e, inner, word, hsimple⟩ := exists_simple hmem.2
  have hspaced := (spaced_simpleElement ((h t ht).mono fun _ hu => hu.toSpaced)).self
  have hlabel : (simpleElement t).label = t.label := label_reshape fst_simpleElementStep t
  have hwritten : (simpleElement t).label.Written src true := hlabel ▸ (h t ht).self.written
  have hinner : Faithful src inner :=
    ((hus _ hmem.1).of_mem_children (by simp [hsimple.children])).self
  exact slice_eq_markup_iff hspaced hwritten hsimple (hinner word hsimple.innerKind)

/-- What is written out is the source throughout just if all those elements are plain. -/
theorem forall_slice_eq_markup_iff {d : Doc} (h : Everywhere (Settled src) d) :
    (∀ u ∈ writtenOut d, src.slice u.label.span = .ok (markup u)) ↔
      ∀ u ∈ writtenOut d, Plain src u := by
  induction d using Tree.induct with
  | leaf c => simp [writtenOut]
  | node c ts ih =>
    have hbelow := (everywhere_node.mp h).2
    have hfirst : (∀ u ∈ ts.flatMap writtenOut, src.slice u.label.span = .ok (markup u)) ↔
        ∀ u ∈ ts.flatMap writtenOut, Plain src u := by
      simp only [List.forall_mem_flatMap]
      exact forall₂_congr fun t ht => ih t ht (hbelow t ht)
    rw [writtenOut_node, List.forall_mem_append, List.forall_mem_append, hfirst]
    -- The words of the outer elements may be folded texts, so they are faithful only if what is
    -- written out below them is.
    refine and_congr_right fun hplain => ?_
    have hus : ∀ u ∈ ts.map simpleElement, Everywhere (Faithful src) u := by
      simp only [List.forall_mem_map]
      intro t ht
      refine faithful_simpleElement (hbelow t ht) fun u hu => ?_
      exact hfirst.mpr hplain u (List.mem_flatMap.mpr ⟨t, ht, hu⟩)
    exact forall₂_congr fun u hu => slice_eq_markup_iff_of_mem hbelow hus hu

end Markup.Reshape

namespace Markup

/-- Every text of a prepared draft reads its value, and every element that is written out reads what
is written for it, just if all those elements are plain. -/
theorem folding_lossless_iff_plain (steps : List Step) (hsteps : Step.balanced 0 steps = true)
    (o : Options) (hsource : o.source = .ofString (Draft.run {} steps).finish.1) :
    ∃ d out, Pass.runAll o (Draft.run {} steps).finish.2 (Pass.all.take 9) = .ok (.ofDoc d) ∧
      Pass.simpleElement.events o (.ofDoc d) =
        .ok ((Reshape.writtenOut d).map fun u => .foldedElement (Reshape.markup u)) ∧
      prepare o (Draft.run {} steps).finish.2 = .ok out ∧
      (out.TextsRead o.source ∧
          (∀ u ∈ Reshape.writtenOut d, o.source.slice u.label.span = .ok (Reshape.markup u)) ↔
        ∀ u ∈ Reshape.writtenOut d, Reshape.Plain o.source u) := by
  simp only [Draft.finish_run] at hsource ⊢
  have hbuilt := Outline.packed_toDoc hsteps hsource
  have hsettled := Pass.settled_take hbuilt
  refine ⟨_, _, Pass.runAll_ofDoc o _ _, ?_, prepare_ofDoc hbuilt, ?_⟩
  · rw [Pass.events, Pass.exec, Store.rewrite_simpleElement (Store.toDoc_ofDoc _),
      ← Reshape.map_markup_writtenOut, List.map_map]
    rfl
  · rw [Reshape.forall_slice_eq_markup_iff hsettled, and_iff_right_iff_imp]
    intro hplain
    have hmarkup := (Reshape.forall_slice_eq_markup_iff hsettled).mpr hplain
    have hfaithful := Reshape.faithful_simpleElement hsettled hmarkup
    apply Store.textsRead_ofDoc
    intro c hc v hv
    rw [← Tree.map_label_subtrees] at hc
    obtain ⟨t, ht, rfl⟩ := List.mem_map.mp hc
    exact Source.slice_eq_ok_iff.mpr (hfaithful t ht v hv)

/-- One element that is plain and one that has lost a line feed. -/
def foldedSteps : List Step :=
  [.text "é", .openTag "b" [], .text "x", .close, .text "c", .openTag "textarea" [],
   .text "\ny", .close, .text "d"]

theorem folding_lossless_iff_plain_foldedSteps :
    ∃ d out, Pass.runAll { source := .ofString (Draft.run {} foldedSteps).finish.1 }
        (Draft.run {} foldedSteps).finish.2 (Pass.all.take 9) = .ok (.ofDoc d) ∧
      Pass.simpleElement.events { source := .ofString (Draft.run {} foldedSteps).finish.1 }
          (.ofDoc d) =
        .ok ((Reshape.writtenOut d).map fun u => .foldedElement (Reshape.markup u)) ∧
      prepare { source := .ofString (Draft.run {} foldedSteps).finish.1 }
        (Draft.run {} foldedSteps).finish.2 = .ok out ∧
      (out.TextsRead (.ofString (Draft.run {} foldedSteps).finish.1) ∧
          (∀ u ∈ Reshape.writtenOut d,
            Source.slice (.ofString (Draft.run {} foldedSteps).finish.1) u.label.span =
              .ok (Reshape.markup u)) ↔
        ∀ u ∈ Reshape.writtenOut d,
          Reshape.Plain (.ofString (Draft.run {} foldedSteps).finish.1) u) :=
  folding_lossless_iff_plain foldedSteps (by decide) _ rfl

def linefeedSteps : List Step :=
  [.text "a", .openTag "textarea" [], .text "\nx", .close, .text "c"]

/-- The line feed behind the opening tag stays in the span of the text that the element is folded
into, but not in its value. -/
theorem folding_drops_linefeed :
    ∃ out, prepare { source := .ofString (Draft.run {} linefeedSteps).finish.1 }
        (Draft.run {} linefeedSteps).finish.2 = .ok out ∧
      ¬ out.TextsRead (.ofString (Draft.run {} linefeedSteps).finish.1) := by
  have hprepared : ((prepare { source := .ofString (Draft.run {} linefeedSteps).finish.1 }
      (Draft.run {} linefeedSteps).finish.2).toOption.map fun out =>
        (out.dfs.toOption, (out.node? 1).map fun n => (n.kind,
          (Source.slice (.ofString (Draft.run {} linefeedSteps).finish.1) n.span).toOption))) =
      some (some [0, 1],
        some (.text "a<textarea>x</textarea>c", some "a<textarea>\nx</textarea>c")) := by
    decide +kernel
  cases hout : prepare { source := .ofString (Draft.run {} linefeedSteps).finish.1 }
      (Draft.run {} linefeedSteps).finish.2 with
  | error e => simp [hout, Except.toOption] at hprepared
  | ok out =>
    refine ⟨out, rfl, ?_⟩
    rintro ⟨ids, hids, htexts⟩
    simp only [hout, Except.toOption, hids, Option.map_some, Option.some.injEq, Prod.mk.injEq,
      Option.map_eq_some_iff] at hprepared
    obtain ⟨rfl, n, hn, hkind, hslice⟩ := hprepared
    obtain ⟨n', hn', hread⟩ := htexts 1 (by decide)
    obtain rfl : n = n' := Option.some.inj (hn.symm.trans hn')
    rw [hread _ hkind] at hslice
    exact absurd hslice (by decide)

end Markup
