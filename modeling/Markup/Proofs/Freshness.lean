import Markup.Proofs.Agreement
import Markup.Proofs.Decoration
import Markup.Proofs.Independence

/-! Annotations that stay true. Folding simple elements comes last and joins texts, but it takes
away nothing that an annotation was computed from. So annotating a prepared document again changes
nothing. -/
namespace Markup

open Annotate Content Markup.Tree

section Similar

variable {c d p q : Content}

theorem Content.isPreLike_similar (h : c.kind.Similar d.kind) : d.isPreLike = c.isPreLike :=
  h.congr (F := fun k => isPreLike { kind := k }) (fun _ _ => rfl) fun _ _ => rfl

theorem Content.isScriptLike_similar (h : c.kind.Similar d.kind) :
    d.isScriptLike = c.isScriptLike :=
  h.congr (F := fun k => isScriptLike { kind := k }) (fun _ _ => rfl) fun _ _ => rfl

theorem Content.isRoot_similar (h : c.kind.Similar d.kind) :
    decide (d.kind = .root) = decide (c.kind = .root) :=
  h.congr (F := fun k => decide (k = .root)) (fun _ _ => rfl) fun _ _ => rfl

theorem Content.keepsDangling_similar (h : c.kind.Similar d.kind)
    (hdisplay : d.display = c.display) : d.keepsDangling = c.keepsDangling := by
  rw [keepsDangling, keepsDangling, hdisplay, isScriptLike_similar h]

theorem Annotate.requested?_similar (h : c.kind.Similar d.kind) : requested? d = requested? c :=
  h.congr (F := fun k => requested? { kind := k }) (fun _ _ => rfl) fun _ _ => rfl

theorem Annotate.displayOf_similar {o : Options} {isTop : Bool} {prev prev' : Option Content}
    (h : c.kind.Similar d.kind) (hprev : prev'.bind requested? = prev.bind requested?) :
    displayOf o d isTop prev' = displayOf o c isTop prev := by
  have hown : ownDisplay d = ownDisplay c :=
    h.congr (F := fun k => ownDisplay { kind := k }) (fun _ _ => rfl) fun _ _ => rfl
  rw [displayOf, displayOf, hprev, hown]

theorem Annotate.isSelfClosing_similar {t u : Doc} (h : t.label.kind.Similar u.label.kind)
    (hshape : t.children?.isSome = u.children?.isSome) :
    isSelfClosing (rootNode u) = isSelfClosing (rootNode t) := by
  have hnone : u.children?.isNone = t.children?.isNone := by
    rw [← Option.not_isSome, ← Option.not_isSome, hshape]
  have hkind := h.congr (F := fun k => isSelfClosing { kind := k, children := some [] })
    (fun _ _ => rfl) fun _ _ => rfl
  simp only [isSelfClosing, Option.isNone_some, Bool.false_or] at hkind
  simp only [isSelfClosing, rootNode, Option.isNone_map, hnone, hkind]

theorem Place.keepsLeading_similar (hparent : p.kind.Similar q.kind)
    (hdisplay : q.display = p.display) (hself : c.kind.Similar d.kind) :
    keepsLeading { self := d, parent := some q } =
      keepsLeading { self := c, parent := some p } := by
  simp only [keepsLeading, continuesText, Option.any_none, Bool.and_false, hdisplay,
    isRoot_similar hparent,
    isPreLike_similar hparent, isPreLike_similar hself, isScriptLike_similar hparent]

theorem Place.keepsTrailing_similar (hparent : p.kind.Similar q.kind)
    (hdisplay : q.display = p.display) (hself : c.kind.Similar d.kind) :
    keepsTrailing { self := d, parent := some q } =
      keepsTrailing { self := c, parent := some p } := by
  simp only [keepsTrailing, textContinues, Option.any_none, Bool.and_false, hdisplay,
    isRoot_similar hparent,
    isPreLike_similar hparent, isPreLike_similar hself, isScriptLike_similar hparent]

end Similar

/-- The children of the node have the display that the node before each of them and the options give
them, and so has the node itself if it is the whole document. -/
structure Displayed (o : Options) (isWhole : Bool) (t : Doc) : Prop where
  whole : isWhole = true → t.label.notes.display = some (displayOf o t.label false none)
  first : ∀ c ∈ (t.children.map label).head?,
    c.notes.display = some (displayOf o c isWhole none)
  later : (t.children.map label).IsChain fun c d =>
    d.notes.display = some (displayOf o d isWhole (some c))

def ClosingNoted (t : Doc) : Prop := t.label.notes.isSelfClosing = some (isSelfClosing (rootNode t))

def ComponentNoted (src : Source) (t : Doc) : Prop :=
  ∀ e, t.label.kind = .element e → e.hasComponentClosing = some (hasComponentClosing src e)

/-- Whitespace at the ends of the node is noted: before its first child, behind its last one, or in
the node if it is empty. -/
structure Edged (t : Doc) : Prop where
  dangling : t.children? = some [] →
    t.label.notes.isDanglingSensitive = some t.label.keepsDangling
  first : ∀ c ∈ (t.children.map label).head?,
    c.notes.isLeadingSensitive = some (Place.keepsLeading { self := c, parent := some t.label })
  last : ∀ c ∈ (t.children.map label).getLast?,
    c.notes.isTrailingSensitive = some (Place.keepsTrailing { self := c, parent := some t.label })

/-- The same node but for annotations other than `f`. -/
def Content.Keeps {β : Type} (f : Annotations → β) (c d : Content) : Prop :=
  Alike c d ∧ f d.notes = f c.notes

namespace Annotate

variable {o : Options} {isWhole isTop : Bool} {parent : Content} {prev : Option Content}
  {t u : Doc} {ts : List Doc}

theorem exists_noteDangling (n : Node) :
    ∃ dangling, noteDangling n = { n.notes with isDanglingSensitive := dangling } := by
  rw [noteDangling]
  split
  · exact ⟨_, rfl⟩
  · exact ⟨_, rfl⟩

theorem exists_boundaryContent (a : Surroundings) (t : Doc) : ∃ leading trailing dangling,
    boundaryContent a t = { t.label with notes := { t.label.notes with
      isLeadingSensitive := leading, isTrailingSensitive := trailing
      isDanglingSensitive := dangling } } := by
  obtain ⟨x, hx⟩ := exists_noteDangling (rootNode t)
  rw [boundaryContent, hx]
  split
  · exact ⟨_, _, x, rfl⟩
  · exact ⟨_, _, x, rfl⟩

theorem notes_componentContent (src : Source) (a : Surroundings) (t : Doc) :
    (componentContent src a t).notes = t.label.notes := by
  rw [componentContent]
  split <;> rfl

theorem keeps_boundaryContent {β : Type} {f : Annotations → β}
    (hf : ∀ n leading trailing dangling, f { n with
      isLeadingSensitive := leading, isTrailingSensitive := trailing
      isDanglingSensitive := dangling } = f n) (a : Surroundings) (t : Doc) :
    Keeps f t.label (boundaryContent a t) := by
  refine ⟨alike_boundaryContent a t, ?_⟩
  obtain ⟨leading, trailing, dangling, h⟩ := exists_boundaryContent a t
  rw [h]
  exact hf _ _ _ _

theorem keeps_componentContent {β : Type} (f : Annotations → β) (src : Source) (a : Surroundings)
    (t : Doc) : Keeps f t.label (componentContent src a t) :=
  ⟨alike_componentContent src a t, congrArg f (notes_componentContent src a t)⟩

theorem first_display (c : Content)
    (hc : c ∈ ((decorateAll (displayContent o) parent isTop none ts).map label).head?) :
    c.notes.display = some (displayOf o c isTop none) := by
  cases ts with
  | nil => simp at hc
  | cons t ts =>
    obtain rfl : displayContent o ⟨some parent, isTop, none, ts.head?.map label⟩ t = c := by
      simpa using hc
    rfl

theorem later_display :
    ((decorateAll (displayContent o) parent isTop prev ts).map label).IsChain fun c d =>
      d.notes.display = some (displayOf o d isTop (some c)) := by
  induction ts generalizing prev with
  | nil => simp
  | cons t ts ih =>
    rw [decorateAll_cons, List.map_cons, List.isChain_cons]
    refine ⟨?_, ih⟩
    intro d hd
    cases ts with
    | nil => simp at hd
    | cons u us =>
      obtain rfl :
          displayContent o ⟨some parent, isTop, some t.label, us.head?.map label⟩ u = d := by
        simpa using hd
      rw [label_decorate]
      rfl

theorem displayed_decorate (o : Options) {a : Surroundings} (t : Doc)
    (ha : a.parent.isNone = true → a = {}) :
    Displayed o a.parent.isNone (t.decorate (displayContent o) a) := by
  refine ⟨?_, ?_, ?_⟩
  · intro hnone
    rw [ha hnone, label_decorate]
    rfl
  · cases t with
    | leaf c => simp
    | node c ts => simpa using first_display
  · cases t with
    | leaf c => simp
    | node c ts => simpa using later_display

theorem displayed_display (o : Options) (d : Doc) :
    Throughout (Displayed o) (d.decorate (displayContent o) {}) := by
  apply throughout_decorate
  · exact displayed_decorate o d fun _ => rfl
  · intro a t ha
    have hnone : a.parent.isNone = false := by simpa using ha
    rw [← hnone]
    exact displayed_decorate o t fun hwhole => absurd hwhole (by simp [hnone])

theorem closingNoted_selfClosing (d : Doc) :
    Everywhere ClosingNoted (d.decorate selfClosingContent {}) := by
  apply everywhere_decorate
  intro a t
  have hrel := related_decorate alike_selfClosingContent a t
  rw [ClosingNoted, isSelfClosing_similar hrel.label.similar hrel.isSome_children?, label_decorate]
  rfl

theorem componentNoted_componentClosing (src : Source) (d : Doc) :
    Everywhere (ComponentNoted src) (d.decorate (componentContent src) {}) := by
  apply everywhere_decorate
  intro a t e he
  rw [label_decorate, componentContent] at he
  split at he
  case h_1 e' _ =>
    obtain rfl := Kind.element.inj he
    rfl
  case h_2 hkind => exact absurd he (hkind e)

theorem dangling_boundaryContent {a : Surroundings} (h : t.children? = some []) :
    (boundaryContent a t).notes.isDanglingSensitive = some t.label.keepsDangling := by
  have hnote : noteDangling (rootNode t) =
      { t.label.notes with isDanglingSensitive := some t.label.keepsDangling } := by
    have hempty : (rootNode t).children = some [] := Store.map_rootIds_eq_nil.mpr h
    rw [noteDangling, if_pos hempty]
    rfl
  rw [boundaryContent, hnote]
  split <;> rfl

theorem last_boundary {a : Surroundings} (c : Content)
    (hc : c ∈ ((decorateAll boundaryContent t.label isTop prev ts).map label).getLast?) :
    c.notes.isTrailingSensitive =
      some (Place.keepsTrailing { self := c, parent := some (boundaryContent a t) }) := by
  induction ts generalizing prev with
  | nil => simp at hc
  | cons u us ih =>
    cases us with
    | nil =>
      obtain rfl : boundaryContent ⟨some t.label, isTop, prev, none⟩ u = c := by simpa using hc
      rw [Place.keepsTrailing_similar (alike_boundaryContent a t).similar
        (display_boundaryContent a t) (alike_boundaryContent _ u).similar]
      rfl
    | cons v vs =>
      rw [decorateAll_cons, decorateAll_cons, List.map_cons, List.map_cons,
        List.getLast?_cons_cons, ← List.map_cons, ← decorateAll_cons] at hc
      exact ih hc

theorem edged_boundary (d : Doc) : Everywhere Edged (d.decorate boundaryContent {}) := by
  apply everywhere_decorate
  intro a t
  refine ⟨?_, ?_, ?_⟩
  · intro hempty
    have hchildren : t.children? = some [] := by
      cases t with
      | leaf c => simp at hempty
      | node c ts => cases ts <;> simp_all
    rw [label_decorate, dangling_boundaryContent hchildren,
      keepsDangling_similar (alike_boundaryContent a t).similar (display_boundaryContent a t)]
  · cases t with
    | leaf c => simp
    | node c ts =>
      cases ts with
      | nil => simp
      | cons u us =>
        intro b hb
        obtain rfl : boundaryContent ⟨some c, a.parent.isNone, none, us.head?.map label⟩ u = b := by
          simpa using hb
        rw [label_decorate, Place.keepsLeading_similar (alike_boundaryContent a _).similar
          (display_boundaryContent a _) (alike_boundaryContent _ u).similar]
        rfl
  · cases t with
    | leaf c => simp
    | node c ts =>
      rw [label_decorate, decorate_node, children_node]
      exact last_boundary (t := .node c ts)

end Annotate

section Keeps

variable {o : Options} {isWhole : Bool} {t u d : Doc} {g : Surroundings → Doc → Content}

theorem Displayed.keeps (hrel : Related (Keeps Annotations.display) t u)
    (h : Displayed o isWhole t) : Displayed o isWhole u := by
  have hlabels := hrel.labels
  refine ⟨?_, ?_, ?_⟩
  · intro hwhole
    rw [hrel.label.2, h.whole hwhole, displayOf_similar hrel.label.1.similar rfl]
  · intro d hd
    have hfirst := h.first
    generalize t.children.map label = cs at hlabels hfirst
    generalize u.children.map label = ds at hlabels hd
    cases hlabels with
    | nil => simp at hd
    | cons hcd _ =>
      obtain rfl : _ = d := by simpa using hd
      rw [hcd.2, hfirst _ rfl, displayOf_similar hcd.1.similar rfl]
  · apply isChain_of_forall₂ hlabels h.later
    intro c d c' d' hc hc' hdisplay
    rw [hc'.2, hdisplay, displayOf_similar hc'.1.similar]
    exact requested?_similar hc.1.similar

theorem displayed_keeps (hg : ∀ a t, Keeps Annotations.display t.label (g a t))
    (h : Throughout (Displayed o) d) : Throughout (Displayed o) (d.decorate g {}) := by
  apply h.related _ (related_decorate hg {} d)
  intro isWhole t u hrel ht
  exact ht.keeps hrel

theorem ClosingNoted.keeps (hrel : Related (Keeps Annotations.isSelfClosing) t u)
    (h : ClosingNoted t) : ClosingNoted u := by
  rw [ClosingNoted, hrel.label.2, h,
    isSelfClosing_similar hrel.label.1.similar hrel.isSome_children?]

theorem closingNoted_keeps (hg : ∀ a t, Keeps Annotations.isSelfClosing t.label (g a t))
    (h : Everywhere ClosingNoted d) : Everywhere ClosingNoted (d.decorate g {}) :=
  (related_decorate hg {} d).everywhere (fun _ _ => ClosingNoted.keeps) h

end Keeps

namespace Reshape

variable {o : Options} {src : Source} {isWhole : Bool} {c : Content} {t u v : Doc}
  {ts us : List Doc}

theorem throughout_simpleElement {P : Bool → Doc → Prop}
    (hnode : ∀ isWhole c ts us, us.map label = ts.map label → P isWhole (.node c ts) →
      P isWhole (.node c (foldSimple us)))
    (hjoin : ∀ t u v, isSimpleBetween t u v = true → P false t → P false (joinAcross t u v))
    {d : Doc} (h : Throughout P d) : Throughout P (simpleElement d) := by
  cases d with
  | leaf c =>
    rw [simpleElement, reshape_leaf]
    exact h
  | node c ts =>
    have hlabels := map_label_reshape fst_simpleElementStep ts
    rw [simpleElement, reshape_node]
    refine ⟨hnode true c ts _ hlabels h.1, ?_⟩
    apply forall_foldSimple
    · intro t u v hsimple ht _
      exact ht.setLabel (hjoin t u v hsimple ht.self)
    · intro x hx
      obtain ⟨t, ht, rfl⟩ := List.mem_map.mp hx
      exact everywhere_simpleElement (hnode false) hjoin (h.2 t ht)

theorem notes_joinAcross (t u v : Doc) :
    (joinAcross t u v).label.notes = { t.label.notes with
      isTrailingSensitive := v.label.notes.isTrailingSensitive
      hasTrailingSpaces := v.label.notes.hasTrailingSpaces } := by
  rw [joinAcross, label_setLabel]

theorem display_joinAcross (t u v : Doc) : (joinAcross t u v).label.display = t.label.display := by
  rw [Content.display, notes_joinAcross, Content.display]

theorem children_joinAcross (t u v : Doc) : (joinAcross t u v).children = t.children :=
  children_setLabel _ t

theorem children?_joinAcross (t u v : Doc) : (joinAcross t u v).children? = t.children? :=
  children?_setLabel _ t

theorem displayed_foldSimple (hlabels : us.map label = ts.map label)
    (h : Displayed o isWhole (.node c ts)) : Displayed o isWhole (.node c (foldSimple us)) := by
  have hfirst := h.first
  have hlater := h.later
  rw [children_node, ← hlabels] at hfirst hlater
  refine ⟨h.whole, ?_, ?_⟩
  · cases us with
    | nil => simp [foldSimple]
    | cons t us =>
      apply head_foldBehind (c := c)
        (R := fun _ d => d.notes.display = some (displayOf o d isWhole none)) _ (hfirst _ rfl)
      intro t u v hsimple ht
      rw [notes_joinAcross, displayOf_similar (similar_joinAcross hsimple).1 rfl]
      exact ht
  · cases us with
    | nil => simp [foldSimple]
    | cons t us =>
      apply isChain_foldBehind _ _ hlater
      · intro b t u v hsimple ht
        rw [notes_joinAcross, displayOf_similar (similar_joinAcross hsimple).1 rfl]
        exact ht
      · intro t u v d hsimple _ _ hd
        have hrequested : (some (joinAcross t u v).label).bind requested? =
            (some v.label).bind requested? :=
          requested?_similar (similar_joinAcross hsimple).2
        rw [hd, displayOf_similar (.inl rfl) hrequested]

theorem displayed_simpleElement {d : Doc} (h : Throughout (Displayed o) d) :
    Throughout (Displayed o) (simpleElement d) := by
  apply throughout_simpleElement (fun _ _ _ _ => displayed_foldSimple) _ h
  intro t u v _ ht
  refine ⟨by simp, ?_, ?_⟩
  · rw [children_joinAcross]
    exact ht.first
  · rw [children_joinAcross]
    exact ht.later

theorem closingNoted_simpleElement {d : Doc} (h : Everywhere ClosingNoted d) :
    Everywhere ClosingNoted (simpleElement d) := by
  apply everywhere_simpleElement _ _ h
  · intro c ts us _ ht
    have hrest : isSelfClosing (rootNode (.node c (foldSimple us))) =
        isSelfClosing (rootNode (.node c ts)) := isSelfClosing_similar (.inl rfl) rfl
    rw [ClosingNoted, hrest]
    exact ht
  · intro t u v hsimple ht
    rw [ClosingNoted, isSelfClosing_similar (similar_joinAcross hsimple).1
      (by rw [children?_joinAcross]), notes_joinAcross]
    exact ht

theorem componentNoted_simpleElement {d : Doc} (h : Everywhere (ComponentNoted src) d) :
    Everywhere (ComponentNoted src) (simpleElement d) := by
  apply everywhere_simpleElement (fun c ts us _ ht => ht) _ h
  intro t u v _ _ e he
  simp [joinAcross] at he

theorem edged_foldSimple (hlabels : us.map label = ts.map label) (h : Edged (.node c ts)) :
    Edged (.node c (foldSimple us)) := by
  obtain ⟨hdangling, hfirst, hlast⟩ := h
  rw [children_node, ← hlabels] at hfirst hlast
  cases us with
  | nil =>
    obtain rfl : ts = [] := by simpa using hlabels.symm
    exact ⟨hdangling, hfirst, hlast⟩
  | cons t us =>
    refine ⟨?_, ?_, ?_⟩
    · intro hempty
      exact absurd (Option.some.inj hempty) (foldBehind_ne_nil t us)
    · apply head_foldBehind (c := c) (R := fun _ d => d.notes.isLeadingSensitive =
        some (Place.keepsLeading { self := d, parent := some c })) _ (hfirst _ rfl)
      intro t u v hsimple ht
      rw [notes_joinAcross,
        Place.keepsLeading_similar (.inl rfl) rfl (similar_joinAcross hsimple).1]
      exact ht
    · apply last_foldBehind _ hlast
      intro t u v hsimple hv
      rw [notes_joinAcross, label_node,
        Place.keepsTrailing_similar (.inl rfl) rfl (similar_joinAcross hsimple).2]
      exact hv

theorem edged_joinAcross (hsimple : isSimpleBetween t u v = true) (h : Edged t) :
    Edged (joinAcross t u v) := by
  have hsimilar := (similar_joinAcross hsimple).1
  have hdisplay := display_joinAcross t u v
  refine ⟨?_, ?_, ?_⟩
  · rw [children?_joinAcross, notes_joinAcross, keepsDangling_similar hsimilar hdisplay]
    exact h.dangling
  · intro d hd
    rw [children_joinAcross] at hd
    rw [h.first d hd, Place.keepsLeading_similar hsimilar hdisplay (.inl rfl)]
  · intro d hd
    rw [children_joinAcross] at hd
    rw [h.last d hd, Place.keepsTrailing_similar hsimilar hdisplay (.inl rfl)]

theorem edged_simpleElement {d : Doc} (h : Everywhere Edged d) :
    Everywhere Edged (simpleElement d) :=
  everywhere_simpleElement (fun _ _ _ => edged_foldSimple) (fun _ _ _ => edged_joinAcross) h

end Reshape

section Steady

variable {o : Options} {src : Source} {isTop : Bool} {t : Doc}

theorem Displayed.steady (h : Displayed o isTop t) : Steady (displayContent o) isTop t := by
  intro before u after hchildren
  have hfirst := h.first
  have hlater := h.later
  rw [hchildren] at hfirst hlater
  have hdisplay : u.label.notes.display =
      some (displayOf o u.label isTop (before.getLast?.map label)) := by
    cases hprev : before.getLast?.map label with
    | none =>
      obtain rfl : before = [] := by simpa using hprev
      exact hfirst u.label rfl
    | some c => exact (isChain_neighbours hlater).1 c hprev
  rw [displayContent, ← hdisplay]

theorem ClosingNoted.eq (h : ClosingNoted t) (a : Surroundings) :
    selfClosingContent a t = t.label := by
  rw [selfClosingContent, ← h]

theorem ComponentNoted.eq (h : ComponentNoted src t) (a : Surroundings) :
    componentContent src a t = t.label := by
  rw [componentContent]
  split
  case h_1 e hkind => rw [← h e hkind, ← hkind]
  case h_2 => rfl

theorem Edged.noteDangling_eq (h : Edged t) : noteDangling (rootNode t) = t.label.notes := by
  rw [noteDangling]
  split
  case isFalse => rfl
  case isTrue hempty =>
    have hdangling := h.dangling (Store.map_rootIds_eq_nil.mp hempty)
    rw [rootNode, ← hdangling]

theorem boundaryContent_eq_self {a : Surroundings}
    (hleading : (boundaryContent a t).notes.isLeadingSensitive = t.label.notes.isLeadingSensitive)
    (htrailing :
      (boundaryContent a t).notes.isTrailingSensitive = t.label.notes.isTrailingSensitive)
    (hdangling : noteDangling (rootNode t) = t.label.notes) : boundaryContent a t = t.label := by
  rw [boundaryContent, hdangling] at hleading htrailing ⊢
  split
  case isTrue => rfl
  case isFalse hparent =>
    simp only [if_neg hparent] at hleading htrailing
    simp only [hleading, htrailing]

/-- Between neighbours boundaries are steady since they agree on them, and at the ends of a child
list since the edges are noted. -/
theorem Edged.steady (h : Edged t) (hagreed : Agreed t) (hbelow : ∀ u ∈ t.children, Edged u) :
    Steady boundaryContent isTop t := by
  intro before u after hchildren
  have hfirst := h.first
  have hlast := h.last
  rw [hchildren] at hfirst hlast
  rw [Agreed, hchildren] at hagreed
  obtain ⟨hbefore, hafter⟩ := isChain_neighbours hagreed
  apply boundaryContent_eq_self
  · rw [boundaryContent, if_neg (by simp)]
    cases hprev : before.getLast?.map label with
    | none =>
      obtain rfl : before = [] := by simpa using hprev
      exact (hfirst u.label rfl).symm
    | some c => exact (hbefore c hprev).leading.symm
  · rw [boundaryContent, if_neg (by simp)]
    cases hnext : after.head?.map label with
    | none =>
      obtain rfl : after = [] := by simpa using hnext
      exact (hlast u.label (by simp)).symm
    | some c => exact (hafter c hnext).trailing.symm
  · exact (hbelow u (by simp [hchildren])).noteDangling_eq

end Steady

section Prepared

variable (o : Options) (d : Doc)

theorem displayed_applyAll : Throughout (Displayed o) (Pass.applyAll o Pass.all d) := by
  apply Reshape.displayed_simpleElement
  apply displayed_keeps (keeps_boundaryContent fun _ _ _ _ => rfl)
  apply displayed_keeps (keeps_componentContent _ o.source)
  apply displayed_keeps fun a t => ⟨alike_selfClosingContent a t, rfl⟩
  exact displayed_display o _

theorem closingNoted_applyAll : Everywhere ClosingNoted (Pass.applyAll o Pass.all d) := by
  apply Reshape.closingNoted_simpleElement
  apply closingNoted_keeps (keeps_boundaryContent fun _ _ _ _ => rfl)
  apply closingNoted_keeps (keeps_componentContent _ o.source)
  exact closingNoted_selfClosing _

theorem componentNoted_applyAll :
    Everywhere (ComponentNoted o.source) (Pass.applyAll o Pass.all d) := by
  apply Reshape.componentNoted_simpleElement
  have hkind := related_decorate (R := fun c d => d.kind = c.kind) kind_boundaryContent {}
  refine (hkind _).everywhere ?_ (componentNoted_componentClosing o.source _)
  intro t u hrel ht
  rw [ComponentNoted, hrel.label]
  exact ht

theorem edged_applyAll : Everywhere Edged (Pass.applyAll o Pass.all d) :=
  Reshape.edged_simpleElement (edged_boundary _)

end Prepared

/-- What an annotation pass would note is noted already when all passes have run. -/
theorem Pass.apply_applyAll (o : Options) (d : Doc) {p : Pass}
    (hp : p ∈ [display, selfClosing, componentClosing, boundary]) :
    p.apply o (applyAll o all d) = applyAll o all d := by
  simp only [List.mem_cons, List.not_mem_nil, or_false] at hp
  rcases hp with rfl | rfl | rfl | rfl
  · have hdisplayed := displayed_applyAll o d
    refine Throughout.decorate_eq_self ⟨hdisplayed.1.steady, ?_⟩ ?_
    · exact fun t ht => (hdisplayed.2 t ht).mono fun _ => Displayed.steady
    · rw [displayContent, ← hdisplayed.1.whole rfl]
  · exact Everywhere.decorate_eq_self ((closingNoted_applyAll o d).mono fun _ => ClosingNoted.eq)
  · exact Everywhere.decorate_eq_self
      ((componentNoted_applyAll o d).mono fun _ => ComponentNoted.eq)
  · have hedged := edged_applyAll o d
    refine (Everywhere.throughout ?_).decorate_eq_self ?_
    · intro t ht isTop
      apply (hedged t ht).steady (agreed_applyAll o d t ht)
      exact fun u hu => ((hedged.of_mem_subtrees ht).of_mem_children hu).self
    · rw [boundaryContent, hedged.self.noteDangling_eq]
      rfl

theorem Pass.applyAll_eq_self {o : Options} {d : Doc} {ps : List Pass}
    (h : ∀ p ∈ ps, p.apply o d = d) : applyAll o ps d = d := by
  induction ps with
  | nil => rfl
  | cons p ps ih =>
    rw [List.forall_mem_cons] at h
    rw [applyAll, List.foldl_cons, h.1]
    exact ih h.2

/-- A prepared document is what it would be if it were annotated once more. -/
theorem annotating_again_changes_nothing (o : Options) (s out : Store) (h : prepare o s = .ok out) :
    Pass.runAll o out [.display, .selfClosing, .componentClosing, .boundary] = .ok out ∧
      out.diff out = .ok none := by
  obtain ⟨d, -, rfl⟩ := prepare_eq_ok h
  constructor
  · rw [Pass.runAll_ofDoc, Pass.applyAll_eq_self fun p hp => Pass.apply_applyAll o d hp]
  · rw [Store.diff_of_toDoc (Store.toDoc_ofDoc _) (Store.toDoc_ofDoc _),
      (Tree.diff_eq_none_iff _ _).mpr rfl]

/-- A simple element between texts, of which a comment asks the first not to be shown. -/
def hiddenDoc : Doc :=
  .node { kind := .root }
    [.leaf { kind := .comment "display: none" }, .leaf { kind := .text "a" },
     .node { kind := .element { name := "b", openTag := {} } } [.leaf { kind := .text "x" }],
     .leaf { kind := .text "c" }]

theorem annotating_again_changes_nothing_hiddenDoc :
    ∃ out n, prepare { source := .ofString "" } (.ofDoc hiddenDoc) = .ok out ∧
      out.node? 2 = some n ∧ n.kind = .text "a<b>x</b>c" ∧ n.notes.display = some .none ∧
      Pass.runAll { source := .ofString "" } out
        [.display, .selfClosing, .componentClosing, .boundary] = .ok out ∧
      out.diff out = .ok none := by
  have hprepared : ((prepare { source := .ofString "" } (.ofDoc hiddenDoc)).toOption.map fun out =>
      (out.node? 2).map fun n => (n.kind, n.notes.display)) =
        some (some (.text "a<b>x</b>c", some .none)) := by
    decide +kernel
  cases hout : prepare { source := .ofString "" } (.ofDoc hiddenDoc) with
  | error e => simp [hout, Except.toOption] at hprepared
  | ok out =>
    simp only [hout, Except.toOption, Option.map_some, Option.some.injEq, Option.map_eq_some_iff,
      Prod.mk.injEq] at hprepared
    obtain ⟨n, hn, hkind, hdisplay⟩ := hprepared
    exact ⟨out, n, rfl, hn, hkind, hdisplay, annotating_again_changes_nothing _ _ out hout⟩

end Markup
