import Markup.Proofs.Freshness

/-! Annotations that are never missing. Each kind of note is taken by one pass, on nodes that other
passes have made, and a prepared document still has all of them on all of its nodes. -/
namespace Markup

open Annotate Content Markup.Tree

/-- The whitespace inside the node is noted: on each child that there is, and on the node if it has
children. -/
structure Swept (t : Doc) : Prop where
  marked : ∀ c ∈ t.children.map label,
    c.notes.hasLeadingSpaces.isSome = true ∧ c.notes.hasTrailingSpaces.isSome = true
  inside : t.children ≠ [] → t.label.notes.isWhitespaceSensitive = some t.label.keepsWhitespace ∧
    t.label.notes.isIndentationSensitive = some t.label.keepsIndentation

/-- What is noted of the whitespace inside a node. -/
def Annotations.inside (n : Annotations) : Option Bool × Option Bool :=
  (n.isWhitespaceSensitive, n.isIndentationSensitive)

theorem Content.keepsWhitespace_similar {c d : Content} (h : c.kind.Similar d.kind) :
    d.keepsWhitespace = c.keepsWhitespace := by
  simp only [keepsWhitespace, keepsIndentation, isScriptLike_similar h, isPreLike_similar h]

theorem inside_similar {c d : Content} (hkind : c.kind.Similar d.kind)
    (hnotes : d.notes.inside = c.notes.inside)
    (h : c.notes.isWhitespaceSensitive = some c.keepsWhitespace ∧
      c.notes.isIndentationSensitive = some c.keepsIndentation) :
    d.notes.isWhitespaceSensitive = some d.keepsWhitespace ∧
      d.notes.isIndentationSensitive = some d.keepsIndentation := by
  simp only [Annotations.inside, Prod.mk.injEq] at hnotes
  rw [hnotes.1, hnotes.2, keepsWhitespace_similar hkind, keepsIndentation, isPreLike_similar hkind]
  exact h

theorem Swept.setLabel {t : Doc} {c : Content} (h : Swept t) (hkind : t.label.kind.Similar c.kind)
    (hnotes : c.notes.inside = t.label.notes.inside) : Swept (t.setLabel c) := by
  constructor
  · rw [children_setLabel]
    exact h.marked
  · rw [children_setLabel, label_setLabel]
    exact fun hchildren => inside_similar hkind hnotes (h.inside hchildren)

theorem Swept.keeps {t u : Doc} (hrel : Related (Keeps Annotations.inside) t u) (h : Swept t) :
    Swept u := by
  constructor
  · intro d hd
    obtain ⟨c, hc, hcd⟩ := exists_of_mem_forall₂ hrel.labels hd
    rw [hcd.1.leading, hcd.1.trailing]
    exact h.marked c hc
  · intro hchildren
    apply inside_similar hrel.label.1.similar hrel.label.2
    apply h.inside
    intro hnil
    have hforall := hrel.children
    rw [hnil, List.forall₂_nil_left_iff] at hforall
    exact hchildren hforall

namespace Reshape

variable {src : Source} {t u : Doc}

theorem swept_pieces {ts : List Doc} {keeps : Bool} (hts : ∀ t ∈ ts, Everywhere Swept t)
    (hu : .item u ∈ if keeps then ts.map .item else ts.flatMap (cut src)) : Everywhere Swept u := by
  obtain ⟨t, ht, rfl | hut⟩ := mem_pieces hu
  · exact hts u ht
  · obtain ⟨c, rfl, hkind, hnotes⟩ := exists_setLabel_of_mem_cut hut
    exact (hts t ht).setLabel ((hts t ht).self.setLabel hkind (by rw [hnotes]))

theorem swept_whitespace (src : Source) (d : Doc) : Everywhere Swept (whitespace src d) := by
  have htrue : Everywhere (fun _ => True) d := fun _ _ => trivial
  refine Everywhere.reshape (fun c _ => ⟨by simp, by simp⟩) ?_ htrue
  intro c ts _ _ hus
  generalize ts.map (reshape (whitespaceStep src)) = us at hus ⊢
  rw [whitespaceStep]
  split
  case isTrue => exact everywhere_node.mpr ⟨⟨by simp, by simp⟩, by simp⟩
  case isFalse =>
    refine everywhere_node.mpr ⟨⟨?_, fun _ => ⟨rfl, rfl⟩⟩, ?_⟩
    · intro d hd
      obtain ⟨u, hu, rfl⟩ := List.mem_map.mp hd
      obtain ⟨t, leading, trailing, -, rfl⟩ := mem_settle hu
      simp [markSpaces]
    · intro u hu
      obtain ⟨t, leading, trailing, ht, rfl⟩ := mem_settle hu
      have hpiece := swept_pieces hus ht
      exact hpiece.setLabel (hpiece.self.setLabel (.inl rfl) rfl)

theorem swept_simpleElement {d : Doc} (h : Everywhere Swept d) :
    Everywhere Swept (simpleElement d) := by
  apply everywhere_simpleElement _ _ h
  · intro c ts us hlabels ht
    have hmarked := ht.marked
    rw [children_node, ← hlabels, List.forall_mem_map] at hmarked
    constructor
    · rw [children_node, List.forall_mem_map]
      apply forall_foldSimple _ hmarked
      intro t u v _ ht hv
      rw [notes_joinAcross]
      exact ⟨ht.1, hv.2⟩
    · intro hfold
      apply ht.inside
      rintro rfl
      obtain rfl : us = [] := by simpa using hlabels
      exact hfold rfl
  · intro t u v hsimple ht
    have hsimilar := (similar_joinAcross hsimple).1
    rw [joinAcross, label_setLabel] at hsimilar
    exact ht.setLabel hsimilar rfl

end Reshape

theorem swept_keeps {g : Surroundings → Doc → Content} {d : Doc}
    (hg : ∀ a t, Keeps Annotations.inside t.label (g a t)) (h : Everywhere Swept d) :
    Everywhere Swept (d.decorate g {}) :=
  (related_decorate hg {} d).everywhere (fun _ _ => Swept.keeps) h

section Prepared

variable (o : Options) (d : Doc)

theorem swept_applyAll : Everywhere Swept (Pass.applyAll o Pass.all d) := by
  apply Reshape.swept_simpleElement
  apply swept_keeps (keeps_boundaryContent fun _ _ _ _ => rfl)
  apply swept_keeps (keeps_componentContent _ o.source)
  apply swept_keeps fun a t => ⟨alike_selfClosingContent a t, rfl⟩
  apply swept_keeps fun a t => ⟨alike_displayContent o a t, rfl⟩
  exact Reshape.swept_whitespace o.source _

theorem isSome_spaces_applyAll :
    ∀ u ∈ (Pass.applyAll o Pass.all d).children, Everywhere (fun t =>
      t.label.notes.hasLeadingSpaces.isSome = true ∧
        t.label.notes.hasTrailingSpaces.isSome = true) u := by
  apply Everywhere.below
  exact (swept_applyAll o d).mono fun t ht => List.forall_mem_map.mp ht.marked

theorem isSome_display_applyAll :
    Everywhere (fun t => t.label.notes.display.isSome = true) (Pass.applyAll o Pass.all d) := by
  rw [← Pass.apply_applyAll o d (p := .display) (by simp)]
  apply everywhere_decorate
  intro a t
  rw [label_decorate]
  rfl

theorem isSome_boundaries_applyAll :
    ∀ u ∈ (Pass.applyAll o Pass.all d).children, Everywhere (fun t =>
      t.label.notes.isLeadingSensitive.isSome = true ∧
        t.label.notes.isTrailingSensitive.isSome = true) u := by
  have hthroughout : Throughout (fun isWhole t => isWhole = false →
      t.label.notes.isLeadingSensitive.isSome = true ∧
        t.label.notes.isTrailingSensitive.isSome = true) (Pass.applyAll o Pass.all d) := by
    rw [← Pass.apply_applyAll o d (p := .boundary) (by simp)]
    apply throughout_decorate
    · simp
    · intro a t hparent _
      have hnone : ¬ a.parent.isNone = true := by simpa using Option.isSome_iff_ne_none.mp hparent
      rw [label_decorate, boundaryContent, if_neg hnone]
      exact ⟨rfl, rfl⟩
  intro u hu
  exact (hthroughout.2 u hu).mono fun t ht => ht rfl

end Prepared

/-- All that passes find out is noted on the node with the number `id`. The root has the number 0
and nothing around it. -/
structure Annotated (id : NodeId) (n : Node) : Prop where
  display : n.notes.display.isSome = true
  selfClosing : n.notes.isSelfClosing.isSome = true
  componentClosing : ∀ e, n.kind = .element e → e.hasComponentClosing.isSome = true
  spaces : id ≠ 0 →
    n.notes.hasLeadingSpaces.isSome = true ∧ n.notes.hasTrailingSpaces.isSome = true
  boundaries : id ≠ 0 →
    n.notes.isLeadingSensitive.isSome = true ∧ n.notes.isTrailingSensitive.isSome = true
  dangling : n.children = some [] → n.notes.isDanglingSensitive.isSome = true
  inside : ∀ i ids, n.children = some (i :: ids) →
    n.notes.isWhitespaceSensitive = some n.toContent.keepsWhitespace ∧
      n.notes.isIndentationSensitive = some n.toContent.keepsIndentation

/-- Nothing is missing on any node of a prepared document. -/
theorem prepared_nodes_annotated (o : Options) (s out : Store) (h : prepare o s = .ok out) :
    ∀ id n, out.node? id = some n → Annotated id n := by
  obtain ⟨d, -, rfl⟩ := prepare_eq_ok h
  intro id n hn
  obtain ⟨t, ht, hlabel, hids, -⟩ := Store.node?_ofDoc hn
  have hbelow : id ≠ 0 → ∃ u ∈ (Pass.applyAll o Pass.all d).children, ∃ v ∈ u.subtrees,
      n.toContent = v.label := by
    intro hid
    obtain ⟨k, rfl⟩ := Nat.exists_eq_succ_of_ne_zero hid
    exact Store.exists_below_of_node?_ofDoc hn
  exact {
    display := by
      rw [hlabel]
      exact isSome_display_applyAll o d t ht
    selfClosing := by
      rw [hlabel, closingNoted_applyAll o d t ht]
      rfl
    componentClosing := by
      intro e he
      rw [hlabel] at he
      rw [componentNoted_applyAll o d t ht e he]
      rfl
    spaces := by
      intro hid
      obtain ⟨u, hu, v, hv, hlabel⟩ := hbelow hid
      rw [hlabel]
      exact isSome_spaces_applyAll o d u hu v hv
    boundaries := by
      intro hid
      obtain ⟨u, hu, v, hv, hlabel⟩ := hbelow hid
      rw [hlabel]
      exact isSome_boundaries_applyAll o d u hu v hv
    dangling := by
      intro hempty
      have hnil := Store.map_rootIds_eq_nil.mp (hids.symm.trans hempty)
      rw [hlabel, (edged_applyAll o d t ht).dangling hnil]
      rfl
    inside := by
      intro i ids hcons
      rw [hlabel]
      apply (swept_applyAll o d t ht).inside
      intro hnil
      have hroots := Store.rootIds_children (hids.symm.trans hcons)
      simp [hnil, Store.rootIds] at hroots }

/-- An expression behind text in one element, and an empty element. -/
def bracedDoc : Doc :=
  .node { kind := .root }
    [.node { kind := .element { name := "p", openTag := {} } }
       [.leaf { kind := .text "a \x7b\x7b b \x7d\x7d" }],
     .node { kind := .element { name := "br", openTag := {} } } []]

theorem prepared_nodes_annotated_bracedDoc :
    ∃ out m n, prepare { source := .ofString "", dialect := .vue } (.ofDoc bracedDoc) = .ok out ∧
      out.node? 3 = some m ∧ m.kind = .interpolation ∧ m.children = some [4] ∧ Annotated 3 m ∧
      out.node? 5 = some n ∧ n.kind.isElement = true ∧ n.children = some [] ∧ Annotated 5 n := by
  have hprepared : ((prepare { source := .ofString "", dialect := .vue }
      (.ofDoc bracedDoc)).toOption.map fun out =>
        ((out.node? 3).map fun m => (m.kind, m.children),
          (out.node? 5).map fun n => (n.kind.isElement, n.children))) =
      some (some (.interpolation, some [4]), some (true, some [])) := by
    decide +kernel
  cases hout : prepare { source := .ofString "", dialect := .vue } (.ofDoc bracedDoc) with
  | error e => simp [hout, Except.toOption] at hprepared
  | ok out =>
    simp only [hout, Except.toOption, Option.map_some, Option.some.injEq, Prod.mk.injEq,
      Option.map_eq_some_iff] at hprepared
    obtain ⟨⟨m, hm, hkind, hchildren⟩, n, hn, helement, hempty⟩ := hprepared
    have hannotated := prepared_nodes_annotated _ _ out hout
    exact ⟨out, m, n, rfl, hm, hkind, hchildren, hannotated 3 m hm, hn, helement, hempty,
      hannotated 5 n hn⟩

end Markup
