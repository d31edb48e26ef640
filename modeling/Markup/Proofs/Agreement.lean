import Markup.Proofs.Folding
import Markup.Proofs.Stages

/-! Boundaries between neighbours. Whatever document is prepared, the nodes on both sides of a
boundary end up with the same answers: whether there was whitespace, and whether whitespace shows
there. -/
namespace Markup

open Content Markup.Tree

namespace Content

/-- Both nodes remember the same whitespace between them. -/
def SpacesAgree (c d : Content) : Prop := c.notes.hasTrailingSpaces = d.notes.hasLeadingSpaces

/-- Two neighbours below `parent` that agree on the whitespace between them and on whether it
shows. -/
structure Agree (parent c d : Content) : Prop where
  spaces : SpacesAgree c d
  trailing : c.notes.isTrailingSensitive = some (Annotate.keepsBetween (some parent) c d)
  leading : d.notes.isLeadingSensitive = some (Annotate.keepsBetween (some parent) c d)

def showsSpaces (c : Content) : Bool := c.display = .none || c.isPreLike

theorem showsSpaces_congr {c d : Content} (hkind : d.kind = c.kind)
    (hdisplay : d.display = c.display) :
    d.showsSpaces = c.showsSpaces := by
  simp only [showsSpaces, isPreLike, whiteSpace, inlineStyle, hkind, hdisplay]

theorem Alike.spacesAgree {c d c' d' : Content} (h : Alike c d) (h' : Alike c' d')
    (hc : SpacesAgree c c') : SpacesAgree d d' := by
  rw [SpacesAgree, h.trailing, h'.leading]
  exact hc

end Content

theorem Annotate.keepsBetween_eq (parent c d : Content) :
    keepsBetween (some parent) c d =
      (c.kind.isTextLike && d.kind.isTextLike || parent.showsSpaces ||
        c.display.keepsNextLeading && d.display.keepsPrevTrailing) := by
  simp only [keepsBetween, Place.keepsTrailing, Place.keepsLeading, Place.textContinues,
    Place.continuesText, Option.any_some, showsSpaces]
  generalize (decide (parent.display = .none) || parent.isPreLike) = shows
  cases c.kind.isTextLike <;> cases d.kind.isTextLike <;> cases shows <;> simp [Bool.and_comm]

/-- The children of the node remember the same whitespace between them. -/
def SpacesShared (t : Doc) : Prop := (t.children.map label).IsChain SpacesAgree

/-- The children of the node agree on the boundaries between them. -/
def Agreed (t : Doc) : Prop := (t.children.map label).IsChain (Agree t.label)

namespace Reshape

variable {src : Source} {ts : List Doc} {u : Doc}

theorem spacesAgree_settle (before : Bool) (ps : List (Piece Doc)) :
    ((settle before ps).map label).IsChain SpacesAgree := by
  induction ps generalizing before with
  | nil => exact .nil
  | cons p ps ih =>
    cases p with
    | space => exact ih true
    | item t =>
      rw [settle, List.map_cons, List.isChain_cons]
      refine ⟨?_, ih false⟩
      intro d hd
      obtain ⟨u, hu, rfl⟩ : ∃ u, (settle false ps).head? = some u ∧ u.label = d := by
        simpa using hd
      rw [SpacesAgree, hasLeadingSpaces_settle hu]
      simp [markSpaces]

/-- What is cut is still a text, with the same annotations. -/
theorem exists_setLabel_of_mem_cut {t : Doc} (h : .item u ∈ cut src t) :
    ∃ c, u = t.setLabel c ∧ t.label.kind.Similar c.kind ∧ c.notes = t.label.notes := by
  rw [cut] at h
  split at h
  case h_1 v hkind => exact ⟨_, eq_of_mem_cutText h, .inr (.inl ⟨v, _, hkind, rfl⟩), rfl⟩
  case h_2 =>
    obtain rfl : u = t := by simpa using h
    exact ⟨u.label, by cases u <;> rfl, .inl rfl, rfl⟩

theorem spacesShared_setLabel {t : Doc} {c : Content} (h : Everywhere SpacesShared t) :
    Everywhere SpacesShared (t.setLabel c) := by
  refine h.setLabel ?_
  rw [SpacesShared, children_setLabel]
  exact h.self

theorem spacesShared_pieces {keeps : Bool} (hts : ∀ t ∈ ts, Everywhere SpacesShared t)
    (hu : .item u ∈ if keeps then ts.map .item else ts.flatMap (cut src)) :
    Everywhere SpacesShared u := by
  obtain ⟨t, ht, rfl | hut⟩ := mem_pieces hu
  · exact hts u ht
  · obtain ⟨c, rfl, -, -⟩ := exists_setLabel_of_mem_cut hut
    exact spacesShared_setLabel (hts t ht)

theorem spacesShared_whitespace (src : Source) (d : Doc) :
    Everywhere SpacesShared (whitespace src d) := by
  have htrue : Everywhere (fun _ => True) d := fun _ _ => trivial
  refine Everywhere.reshape (fun c _ => .nil) ?_ htrue
  intro c ts _ _ hus
  generalize ts.map (reshape (whitespaceStep src)) = us at hus ⊢
  rw [whitespaceStep]
  split
  case isTrue => exact everywhere_node.mpr ⟨.nil, by simp⟩
  case isFalse =>
    refine everywhere_node.mpr ⟨spacesAgree_settle _ _, ?_⟩
    intro u hu
    obtain ⟨t, leading, trailing, ht, rfl⟩ := mem_settle hu
    exact spacesShared_setLabel (spacesShared_pieces hus ht)

end Reshape

theorem spacesShared_decorate {g : Surroundings → Doc → Content} {d : Doc}
    (hg : ∀ a t, Alike t.label (g a t)) (h : Everywhere SpacesShared d) :
    Everywhere SpacesShared (d.decorate g {}) := by
  refine (related_decorate hg {} d).everywhere ?_ h
  intro t u hrel ht
  exact isChain_of_forall₂ hrel.labels ht fun _ _ _ _ => Alike.spacesAgree

namespace Annotate

theorem kind_boundaryContent (a : Surroundings) (t : Doc) :
    (boundaryContent a t).kind = t.label.kind := by
  rw [boundaryContent]
  split <;> rfl

theorem display_boundaryContent (a : Surroundings) (t : Doc) :
    (boundaryContent a t).display = t.label.display := by
  have hdangling : (noteDangling (rootNode t)).display = t.label.notes.display := by
    rw [noteDangling]
    split <;> rfl
  rw [boundaryContent]
  split <;> rw [Content.display, Content.display, hdangling]

/-- Boundaries say nothing about what they are computed from. -/
theorem keepsBetween_boundaryContent (a b c : Surroundings) (t u v : Doc) :
    keepsBetween (some (boundaryContent a t)) (boundaryContent b u) (boundaryContent c v) =
      keepsBetween (some t.label) u.label v.label := by
  have hshows : (boundaryContent a t).showsSpaces = t.label.showsSpaces :=
    showsSpaces_congr (kind_boundaryContent a t) (display_boundaryContent a t)
  simp only [keepsBetween_eq, kind_boundaryContent, display_boundaryContent, hshows]

theorem isChain_decorateAll {a : Surroundings} {t : Doc} {isTop : Bool} {prev : Option Content}
    {ts : List Doc} (h : (ts.map label).IsChain SpacesAgree) :
    ((decorateAll boundaryContent t.label isTop prev ts).map label).IsChain
      (Agree (boundaryContent a t)) := by
  induction ts generalizing prev with
  | nil => simp
  | cons u us ih =>
    rw [List.map_cons, List.isChain_cons] at h
    rw [decorateAll_cons, List.map_cons, List.isChain_cons]
    refine ⟨?_, ih h.2⟩
    intro d hd
    cases us with
    | nil => simp at hd
    | cons v vs =>
      obtain rfl :
          boundaryContent ⟨some t.label, isTop, some u.label, vs.head?.map label⟩ v = d := by
        simpa using hd
      rw [label_decorate]
      refine ⟨?_, ?_, ?_⟩
      · exact (alike_boundaryContent _ u).spacesAgree (alike_boundaryContent _ v) (h.1 _ rfl)
      · rw [keepsBetween_boundaryContent]
        rfl
      · rw [keepsBetween_boundaryContent]
        rfl

theorem agreed_boundary {d : Doc} (h : Everywhere SpacesShared d) (a : Surroundings) :
    Everywhere Agreed (d.decorate boundaryContent a) := by
  induction d using Tree.induct generalizing a with
  | leaf c =>
    rw [decorate_leaf, everywhere_leaf]
    exact .nil
  | node c ts ih =>
    obtain ⟨hself, hbelow⟩ := everywhere_node.mp h
    rw [decorate_node, everywhere_node]
    refine ⟨isChain_decorateAll (t := .node c ts) hself, ?_⟩
    intro u hu
    obtain ⟨t, ht, b, -, rfl⟩ := mem_decorateAll hu
    exact ih t ht (hbelow t ht) b

end Annotate

namespace Reshape

open Annotate

variable {parent c d : Content} {t u v : Doc} {us : List Doc}

/-- A joined text is a text like the one it starts with and the one it ends with. -/
theorem similar_joinAcross (hsimple : isSimpleBetween t u v = true) :
    t.label.kind.Similar (joinAcross t u v).label.kind ∧
      v.label.kind.Similar (joinAcross t u v).label.kind := by
  obtain ⟨⟨x, y, hx, hy⟩, -⟩ := isSimpleBetween_cases hsimple
  rw [joinAcross, label_setLabel]
  exact ⟨.inr (.inl ⟨x, _, hx, rfl⟩), .inr (.inl ⟨y, _, hy, rfl⟩)⟩

theorem agree_joinAcross_left (hsimple : isSimpleBetween t u v = true)
    (h : Agree parent c t.label) :
    Agree parent c (joinAcross t u v).label := by
  obtain ⟨⟨x, -, hx, -⟩, -⟩ := isSimpleBetween_cases hsimple
  have hkeeps : keepsBetween (some parent) c (joinAcross t u v).label =
      keepsBetween (some parent) c t.label := by
    simp only [keepsBetween_eq, joinAcross, label_setLabel, hx, Kind.isTextLike]
    rfl
  obtain ⟨hspaces, htrailing, hleading⟩ := h
  refine ⟨?_, ?_, ?_⟩
  · simpa [SpacesAgree, joinAcross] using hspaces
  · rw [hkeeps, htrailing]
  · rw [hkeeps, ← hleading]
    simp [joinAcross]

/-- Whitespace shows on both sides of a simple element, so unless it shows everywhere, neither of
the texts around the element is a block. -/
theorem keepsNextLeading_of_simple {e : Element} {inner : Doc} {word : String}
    (h : Simple u e inner word) (htu : Agree parent t.label u.label)
    (huv : Agree parent u.label v.label) :
    parent.showsSpaces = true ∨
      t.label.display.keepsNextLeading = true ∧ v.label.display.keepsNextLeading = true := by
  have hleading := h.leadingSensitive
  have htrailing := h.trailingSensitive
  rw [isLeadingSensitive, htu.leading, Option.getD_some, keepsBetween_eq] at hleading
  rw [isTrailingSensitive, huv.trailing, Option.getD_some, keepsBetween_eq] at htrailing
  simp only [h.kind, Kind.isTextLike, Bool.and_false, Bool.false_and, Bool.false_or,
    Bool.or_eq_true, Bool.and_eq_true] at hleading htrailing
  rcases hleading with hshows | ⟨hbefore, -⟩
  · exact .inl hshows
  · rcases htrailing with hshows | ⟨-, hbehind⟩
    · exact .inl hshows
    · exact .inr ⟨hbefore, hbehind⟩

theorem agree_joinAcross_right (hsimple : isSimpleBetween t u v = true)
    (htu : Agree parent t.label u.label) (huv : Agree parent u.label v.label)
    (hvd : Agree parent v.label d) : Agree parent (joinAcross t u v).label d := by
  obtain ⟨⟨x, y, hx, hy⟩, e, inner, word, hu⟩ := isSimpleBetween_cases hsimple
  have hdisplay : (joinAcross t u v).label.display = t.label.display := by
    rw [joinAcross, label_setLabel]
    rfl
  have hkeeps : keepsBetween (some parent) (joinAcross t u v).label d =
      keepsBetween (some parent) v.label d := by
    rw [keepsBetween_eq, keepsBetween_eq, hdisplay]
    -- The joined text has the display of its first text, not of its last. It does not matter, since
    -- whitespace showed on both sides of the element.
    rcases keepsNextLeading_of_simple hu htu huv with hshows | ⟨hbefore, hbehind⟩
    · simp [hshows]
    · rw [hbefore, hbehind]
      simp [joinAcross, hy, Kind.isTextLike]
  obtain ⟨hspaces, htrailing, hleading⟩ := hvd
  refine ⟨?_, ?_, ?_⟩
  · simpa [SpacesAgree, joinAcross] using hspaces
  · rw [hkeeps, ← htrailing]
    simp [joinAcross]
  · rw [hkeeps, hleading]

/-- Below texts only the display of the text matters. -/
theorem agree_below_text {p q : Content} (hp : ∃ x, p.kind = .text x) (hq : ∃ y, q.kind = .text y)
    (hdisplay : q.display = p.display) (h : Agree p c d) : Agree q c d := by
  obtain ⟨x, hx⟩ := hp
  obtain ⟨y, hy⟩ := hq
  have hkeeps : keepsBetween (some q) c d = keepsBetween (some p) c d := by
    simp only [keepsBetween_eq, showsSpaces, isPreLike, whiteSpace, hx, hy, hdisplay]
  exact ⟨h.spaces, hkeeps ▸ h.trailing, hkeeps ▸ h.leading⟩

theorem agreed_joinAcross (hsimple : isSimpleBetween t u v = true) (h : Agreed t) :
    Agreed (joinAcross t u v) := by
  obtain ⟨⟨x, -, hx, -⟩, -⟩ := isSimpleBetween_cases hsimple
  rw [Agreed, joinAcross, children_setLabel, label_setLabel]
  exact List.IsChain.imp (fun c d hcd => agree_below_text ⟨x, hx⟩ ⟨_, rfl⟩ rfl hcd) h

theorem agreed_foldSimple {ts : List Doc} (hlabels : us.map label = ts.map label)
    (h : Agreed (.node c ts)) : Agreed (.node c (foldSimple us)) := by
  have hchain : (us.map label).IsChain (Agree c) := hlabels ▸ h
  cases us with
  | nil => exact .nil
  | cons t us =>
    exact isChain_foldBehind (fun _ _ _ _ => agree_joinAcross_left)
      (fun _ _ _ _ => agree_joinAcross_right) hchain

theorem agreed_simpleElement {d : Doc} (h : Everywhere Agreed d) :
    Everywhere Agreed (simpleElement d) :=
  everywhere_simpleElement (fun _ _ _ => agreed_foldSimple) (fun _ _ _ => agreed_joinAcross) h

end Reshape

/-- Whatever the document was, all its neighbours agree when all passes have run. -/
theorem agreed_applyAll (o : Options) (d : Doc) :
    Everywhere Agreed (Pass.applyAll o Pass.all d) := by
  apply Reshape.agreed_simpleElement
  apply Annotate.agreed_boundary
  apply spacesShared_decorate (Annotate.alike_componentContent o.source)
  apply spacesShared_decorate Annotate.alike_selfClosingContent
  apply spacesShared_decorate (Annotate.alike_displayContent o)
  exact Reshape.spacesShared_whitespace o.source _

/-- In a prepared document two neighbours agree whether there was whitespace between them, and each
says that it shows just if it shows for both of them there. -/
theorem boundaries_agree (o : Options) (s out : Store) (h : prepare o s = .ok out) :
    ∀ id n before a b after, out.node? id = some n → n.children = some (before ++ a :: b :: after) →
      ∃ x y trailing leading, out.node? a = some x ∧ out.node? b = some y ∧
        x.notes.hasTrailingSpaces = y.notes.hasLeadingSpaces ∧
        Annotate.keepsTrailing out a = .ok trailing ∧ Annotate.keepsLeading out b = .ok leading ∧
        x.notes.isTrailingSensitive = some (trailing && leading) ∧
        y.notes.isLeadingSensitive = some (trailing && leading) := by
  intro id n before a b after hn hids
  obtain ⟨d, -, rfl⟩ := prepare_eq_ok h
  have hagreed := agreed_applyAll o d
  generalize Pass.applyAll o Pass.all d = d at hn hagreed ⊢
  obtain ⟨t, ht, parent, prev, next, hsits⟩ := Store.exists_sits_of_node?_ofDoc hn
  have hnode := Option.some.inj (hn.symm.trans hsits.node?)
  have hroots : Store.rootIds (id + 1) t.children = before ++ a :: b :: after := by
    rw [hnode] at hids
    exact Store.rootIds_children hids
  obtain ⟨ts₁, v, w, ts₂, hchildren, ⟨x, i, hx, hxv, ha⟩, y, j, hy, hyw, hb⟩ :=
    hsits.children.neighbours hn ⟨none, rfl⟩ hroots
  have hagree : Agree t.label v.label w.label := by
    have hchain := hagreed t ht
    rw [Agreed, hchildren, List.map_append, List.map_cons, List.map_cons] at hchain
    exact (List.isChain_append_cons_cons.mp hchain).2.1
  have hparent : n.toContent = t.label := by rw [hnode]
  rw [hparent] at ha hb
  have htrailing : Annotate.keepsTrailing (.ofDoc d) a =
      .ok (Place.keepsTrailing ⟨v.label, some t.label, none, some w.label⟩) := by
    rw [Annotate.keepsTrailing_of_place ha]
    rfl
  have hleading : Annotate.keepsLeading (.ofDoc d) b =
      .ok (Place.keepsLeading ⟨w.label, some t.label, some v.label, none⟩) := by
    rw [Annotate.keepsLeading_of_place hb]
    rfl
  refine ⟨x, y, _, _, hx, hy, ?_, htrailing, hleading, ?_, ?_⟩
  · rw [hxv, hyw]
    exact hagree.spaces
  · rw [hxv]
    exact hagree.trailing
  · rw [hyw]
    exact hagree.leading

/-- A simple element between texts, and whitespace before a comment. -/
def looseDoc : Doc :=
  .node { kind := .root }
    [.leaf { kind := .text "a" },
     .node { kind := .element { name := "b", openTag := {} } } [.leaf { kind := .text "x" }],
     .leaf { kind := .text "c " }, .leaf { kind := .comment "d" }]

theorem boundaries_agree_looseDoc :
    ∃ out n x y trailing leading, prepare { source := .ofString "" } (.ofDoc looseDoc) = .ok out ∧
      out.node? 0 = some n ∧ n.children = some [1, 2] ∧
      out.node? 1 = some x ∧ out.node? 2 = some y ∧
      x.notes.hasTrailingSpaces = y.notes.hasLeadingSpaces ∧
      Annotate.keepsTrailing out 1 = .ok trailing ∧ Annotate.keepsLeading out 2 = .ok leading ∧
      x.notes.isTrailingSensitive = some (trailing && leading) ∧
      y.notes.isLeadingSensitive = some (trailing && leading) := by
  have hprepared : ((prepare { source := .ofString "" } (.ofDoc looseDoc)).toOption.map fun out =>
      (out.node? 0).map (·.children)) = some (some (some [1, 2])) := by
    decide +kernel
  cases hout : prepare { source := .ofString "" } (.ofDoc looseDoc) with
  | error e => simp [hout, Except.toOption] at hprepared
  | ok out =>
    simp only [hout, Except.toOption, Option.map_some, Option.some.injEq,
      Option.map_eq_some_iff] at hprepared
    obtain ⟨n, hn, hchildren⟩ := hprepared
    obtain ⟨x, y, trailing, leading, hagree⟩ :=
      boundaries_agree _ _ out hout 0 n [] 1 2 [] hn hchildren
    exact ⟨out, n, x, y, trailing, leading, rfl, hn, hchildren, hagree⟩

end Markup
