import Markup.Proofs.Gaps
import Markup.Reshape.SimpleElement

/-! Folding simple elements into the texts around them. The text that takes their place starts like
the first and ends like the last of the nodes it is joined from, so what neighbours say of each
other stays true. -/
namespace Markup.Reshape

open Content Markup.Tree

variable {src : Source} {c d : Content} {t u v : Doc} {ts us : List Doc} {a b : Nat}

/-- An element that may be written out: a single word in tags without attributes. -/
structure Simple (u : Doc) (e : Element) (inner : Doc) (word : String) : Prop where
  kind : u.label.kind = .element e
  attrs : e.attrs = []
  children : u.children = [inner]
  innerKind : inner.label.kind = .text word
  noSpace : Text.hasSpace word = false
  innerTrailing : inner.label.hasTrailingSpaces = false
  leadingSensitive : u.label.isLeadingSensitive = true
  leading : u.label.hasLeadingSpaces = false
  trailingSensitive : u.label.isTrailingSensitive = true
  trailing : u.label.hasTrailingSpaces = false

theorem exists_simple (h : isSimple u = true) : ∃ e inner word, Simple u e inner word := by
  rw [isSimple.eq_def] at h
  split at h
  case h_2 => simp at h
  case h_1 e inner hkind hchildren =>
    simp only [isWord, Bool.and_eq_true, Bool.not_eq_true', List.isEmpty_iff] at h
    obtain ⟨⟨⟨⟨⟨hattrs, ⟨hword, -⟩, htrailing⟩, h₁⟩, h₂⟩, h₃⟩, h₄⟩ := h
    obtain ⟨word, hw, hspace⟩ := (Option.any_eq_true _ _).mp hword
    exact ⟨e, inner, word, hkind, hattrs, hchildren, Kind.text?_eq_some_iff.mp hw,
      by simpa using hspace, htrailing, h₁, h₂, h₃, h₄⟩

theorem isSimpleBetween_cases (h : isSimpleBetween t u v = true) :
    (∃ x y, t.label.kind = .text x ∧ v.label.kind = .text y) ∧
      ∃ e inner word, Simple u e inner word := by
  simp only [isSimpleBetween, Bool.and_eq_true] at h
  obtain ⟨x, hx⟩ := Kind.isText_iff.mp h.1.1
  obtain ⟨y, hy⟩ := Kind.isText_iff.mp h.2
  exact ⟨⟨x, y, hx, hy⟩, exists_simple h.1.2⟩

section Lists

theorem head_foldBehind {R : Content → Content → Prop}
    (hleft : ∀ t u v, isSimpleBetween t u v = true → R c t.label → R c (joinAcross t u v).label)
    (h : R c t.label) : ∀ d ∈ ((foldBehind t us).map label).head?, R c d := by
  fun_induction foldBehind t us with
  | case1 t => simpa using h
  | case2 t u => simpa using h
  | case3 t u v ts hsimple ih => exact ih (hleft t u v hsimple h)
  | case4 t u v ts hsimple ih => simpa using h

/-- A relation between neighbours survives if a joined text is related to the nodes on both sides as
its own ends were. -/
theorem isChain_foldBehind {R : Content → Content → Prop}
    (hleft : ∀ c t u v, isSimpleBetween t u v = true → R c t.label → R c (joinAcross t u v).label)
    (hright : ∀ t u v d, isSimpleBetween t u v = true → R t.label u.label → R u.label v.label →
      R v.label d → R (joinAcross t u v).label d)
    (h : List.IsChain R ((t :: us).map label)) :
    List.IsChain R ((foldBehind t us).map label) := by
  fun_induction foldBehind t us with
  | case1 t => exact h
  | case2 t u => exact h
  | case3 t u v ts hsimple ih =>
    apply ih
    simp only [List.map_cons, List.isChain_cons_cons] at h
    obtain ⟨htu, huv, hrest⟩ := h
    rw [List.isChain_cons] at hrest
    rw [List.map_cons, List.isChain_cons]
    exact ⟨fun d hd => hright t u v d hsimple htu huv (hrest.1 d hd), hrest.2⟩
  | case4 t u v ts hsimple ih =>
    rw [List.map_cons, List.map_cons, List.isChain_cons_cons] at h
    rw [List.map_cons, List.isChain_cons]
    exact ⟨head_foldBehind (hleft _) h.1, ih h.2⟩

theorem chained_foldBehind {R : Nat → Nat → Prop} (h : Chained R a ((t :: us).map label) b) :
    Chained R a ((foldBehind t us).map label) b := by
  fun_induction foldBehind t us generalizing a with
  | case1 t => exact h
  | case2 t u => exact h
  | case3 t u v ts hsimple ih =>
    apply ih
    obtain ⟨ht, -, -, hrest⟩ := h
    simpa [joinAcross] using ⟨ht, hrest⟩
  | case4 t u v ts hsimple ih => exact ⟨h.1, ih h.2⟩

theorem foldBehind_ne_nil (t : Doc) (us : List Doc) : foldBehind t us ≠ [] := by
  fun_induction foldBehind t us with
  | case3 t u v ts hsimple ih => exact ih
  | _ => simp

theorem last_foldBehind {P : Content → Prop}
    (hjoin : ∀ t u v, isSimpleBetween t u v = true → P v.label → P (joinAcross t u v).label)
    (h : ∀ c ∈ ((t :: us).map label).getLast?, P c) :
    ∀ c ∈ ((foldBehind t us).map label).getLast?, P c := by
  fun_induction foldBehind t us with
  | case1 t => exact h
  | case2 t u => exact h
  | case3 t u v ts hsimple ih =>
    apply ih
    cases ts with
    | nil => simpa using hjoin t u v hsimple (by simpa using h)
    | cons w ts => simpa using h
  | case4 t u v ts hsimple ih =>
    have hrest := ih (by simpa using h)
    cases hfold : foldBehind u (v :: ts) with
    | nil => exact absurd hfold (foldBehind_ne_nil u (v :: ts))
    | cons w ws =>
      rw [hfold] at hrest
      rw [List.map_cons, List.map_cons, List.getLast?_cons_cons]
      exact hrest

theorem forall_foldSimple {P : Doc → Prop}
    (hjoin : ∀ t u v, isSimpleBetween t u v = true → P t → P v → P (joinAcross t u v))
    (h : ∀ t ∈ ts, P t) : ∀ x ∈ foldSimple ts, P x := by
  cases ts with
  | nil => simp [foldSimple]
  | cons t us =>
    rw [foldSimple]
    fun_induction foldBehind t us with
    | case1 t => exact h
    | case2 t u => exact h
    | case3 t u v ts hsimple ih =>
      simp only [List.forall_mem_cons] at h
      obtain ⟨ht, -, hv, hts⟩ := h
      exact ih (List.forall_mem_cons.mpr ⟨hjoin t u v hsimple ht hv, hts⟩)
    | case4 t u v ts hsimple ih =>
      rw [List.forall_mem_cons] at h ⊢
      exact ⟨h.1, ih h.2⟩

theorem apart_foldBehind (h : List.IsChain Apart ((t :: us).map label)) :
    List.IsChain Apart ((foldBehind t us).map label) := by
  apply isChain_foldBehind _ _ h
  · intro c t u v _ hct
    simpa [Apart, joinAcross] using hct
  · intro t u v d _ _ _ hvd
    simpa [Apart, joinAcross] using hvd

theorem holds_joinAcross (ht : src.Holds t.label.span) (hu : src.Holds u.label.span)
    (hv : src.Holds v.label.span)
    (htu : src.Blank t.label.span.stop.offset u.label.span.start.offset)
    (huv : src.Blank u.label.span.stop.offset v.label.span.start.offset) :
    src.Holds (joinAcross t u v).label.span := by
  have hle : t.label.span.start.offset ≤ v.label.span.stop.offset := by
    have := ht.le
    have := hu.le
    have := hv.le
    have := htu.le
    have := huv.le
    omega
  obtain ⟨xs, hxs⟩ := ht
  obtain ⟨ys, hys⟩ := hv
  rw [joinAcross, label_setLabel]
  exact hxs.start.between hys.stop hle

theorem spaced_foldBehind (ht : Everywhere (Spaced src) t)
    (hus : ∀ u ∈ us, Everywhere (Spaced src) u)
    (hchain : Chained src.Blank a ((t :: us).map label) b) :
    ∀ x ∈ foldBehind t us, Everywhere (Spaced src) x := by
  fun_induction foldBehind t us generalizing a with
  | case1 t => simpa using ht
  | case2 t u => simpa using ⟨ht, by simpa using hus⟩
  | case3 t u v ts hsimple ih =>
    simp only [List.forall_mem_cons] at hus
    obtain ⟨hu, hv, hts⟩ := hus
    obtain ⟨hat, htu, huv, hrest⟩ := hchain
    obtain ⟨⟨x, -, hx, -⟩, -⟩ := isSimpleBetween_cases hsimple
    have hleaf := ht.self.toHoused.eq_leaf (by simp [hx, Kind.isContainer])
    have hjoined : Everywhere (Spaced src) (joinAcross t u v) := by
      have hholds := holds_joinAcross ht.self.framed.1 hu.self.framed.1 hv.self.framed.1 htu huv
      rw [hleaf] at hholds ⊢
      exact everywhere_leaf.mpr (spaced_leaf rfl hholds)
    refine ih hjoined hts (a := a) ?_
    simpa [joinAcross] using ⟨hat, hrest⟩
  | case4 t u v ts hsimple ih =>
    rw [List.forall_mem_cons] at hus ⊢
    exact ⟨ht, ih hus.1 hus.2 hchain.2⟩

end Lists

theorem Spaced.of_labels (h : Spaced src (.node c ts)) (hlabels : us.map label = ts.map label) :
    Spaced src (.node c us) := by
  refine ⟨⟨by simpa using h.shape, h.framed, fun hnone => ?_⟩, ?_, ?_, ?_⟩
  · have hts : ts = [] := h.empty hnone
    simpa [hts] using hlabels
  · simpa [hlabels] using h.spaced
  · simpa [hlabels] using h.apart
  · simpa [hlabels] using h.last

theorem fst_simpleElementStep (c : Content) (ts : List Doc) : (simpleElementStep c ts).1 = c := rfl

/-- A property survives folding everywhere if it survives in each child list and at each joined
text. -/
theorem everywhere_simpleElement {P : Doc → Prop}
    (hnode : ∀ c ts us, us.map label = ts.map label → P (.node c ts) → P (.node c (foldSimple us)))
    (hjoin : ∀ t u v, isSimpleBetween t u v = true → P t → P (joinAcross t u v)) {d : Doc}
    (h : Everywhere P d) : Everywhere P (simpleElement d) := by
  refine Everywhere.reshape (fun c hc => hc) ?_ h
  intro c ts hself _ hus
  have hlabels := map_label_reshape fst_simpleElementStep ts
  refine everywhere_node.mpr ⟨hnode c ts _ hlabels hself, forall_foldSimple ?_ hus⟩
  intro t u v hsimple ht _
  exact ht.setLabel (hjoin t u v hsimple ht.self)

theorem spaced_simpleElement {d : Doc} (h : Everywhere (Spaced src) d) :
    Everywhere (Spaced src) (simpleElement d) := by
  refine Everywhere.reshape (fun c hc => hc) ?_ h
  intro c ts hspaced _ hus
  have hnode := Spaced.of_labels hspaced (map_label_reshape fst_simpleElementStep ts)
  generalize ts.map (reshape simpleElementStep) = us at hus hnode ⊢
  cases us with
  | nil => exact everywhere_node.mpr ⟨hnode, by simp [simpleElementStep, foldSimple]⟩
  | cons t us =>
    rw [List.forall_mem_cons] at hus
    obtain ⟨lo, hi, hregion⟩ := hnode.toHoused.exists_region List.mem_cons_self
    have hmembers := spaced_foldBehind hus.1 hus.2 (hnode.spaced lo hi hregion)
    refine everywhere_node.mpr ⟨⟨⟨hnode.shape, hnode.framed, ?_⟩, ?_, ?_, ?_⟩, hmembers⟩
    · exact fun hnone => absurd (hregion.symm.trans hnone) (by simp)
    · exact fun lo hi hlohi => chained_foldBehind (hnode.spaced lo hi hlohi)
    · exact apart_foldBehind hnode.apart
    · intro lo hi hlohi
      refine last_foldBehind ?_ (hnode.last lo hi hlohi)
      intro t u v _ hv
      simpa [joinAcross] using hv

end Markup.Reshape
