import Markup.Proofs.Agreement
import Markup.Proofs.Building
import Markup.Proofs.WrittenOut

/-! Conditions. A condition moves from a comment into the element behind it and stays there until
simple elements are folded. Then it is lost, with each element that has one and is written out. -/
namespace Markup

open Content Markup.Tree

/-- The condition that a node carries: a start comment its own, an element the one it has taken
in. -/
def Content.condition? (c : Content) : Option String :=
  match c.kind with
  | .conditionalStart condition => some condition
  | .element e => e.condition
  | _ => none

/-- Elements of this kind carry no condition. -/
def Kind.Unconditional (k : Kind) : Prop := k.element?.bind (·.condition) = none

instance : DecidablePred Kind.Unconditional := fun k =>
  inferInstanceAs (Decidable (k.element?.bind (·.condition) = none))

def conditions (d : Doc) : List String := d.preorder.filterMap condition?

@[simp] theorem conditions_leaf (c : Content) : conditions (.leaf c) = c.condition?.toList := by
  cases h : c.condition? <;> simp [conditions, h]

@[simp] theorem conditions_node (c : Content) (ts : List Doc) :
    conditions (.node c ts) = c.condition?.toList ++ ts.flatMap conditions := by
  have hts : (ts.flatMap preorder).filterMap condition? = ts.flatMap conditions := by
    rw [List.filterMap_flatMap]
    rfl
  cases h : c.condition? <;> simp [conditions, h, hts]

theorem Content.condition?_similar {c d : Content} (h : c.kind.Similar d.kind) :
    d.condition? = c.condition? :=
  h.congr (F := fun k => condition? { kind := k }) (fun _ _ => rfl) fun _ _ => rfl

theorem conditions_of_not_isContainer {t : Doc} (h : Shaped t)
    (hkind : t.label.kind.isContainer = false) : conditions t = t.label.condition?.toList := by
  rw [h.eq_leaf hkind, conditions_leaf, label_leaf]

theorem conditions_text {t : Doc} {v : String} (h : Shaped t) (hkind : t.label.kind = .text v) :
    conditions t = [] := by
  rw [conditions_of_not_isContainer h (by simp [hkind, Kind.isContainer]), condition?, hkind]
  rfl

theorem conditions_setLabel {t : Doc} {c : Content} (h : t.label.kind.Similar c.kind) :
    conditions (t.setLabel c) = conditions t := by
  cases t <;> simp [setLabel, condition?_similar h]

theorem shaped_setLabel {t : Doc} {c : Content} (h : Shaped t)
    (hkind : t.label.kind.Similar c.kind) : Shaped (t.setLabel c) := by
  rw [Shaped, children?_setLabel, label_setLabel,
    hkind.congr (F := Kind.isContainer) (fun _ _ => rfl) fun _ _ => rfl]
  exact h

/-- What takes the place of a child list and carries the same conditions. -/
structure Carries (us vs : List Doc) : Prop where
  conditions : vs.flatMap conditions = us.flatMap conditions
  shaped : ∀ v ∈ vs, Everywhere Shaped v

section Carries

variable {t u : Doc} {us vs : List Doc}

theorem Carries.refl (h : ∀ u ∈ us, Everywhere Shaped u) : Carries us us := ⟨rfl, h⟩

theorem Carries.trans {ws : List Doc} (h : Carries us vs) (h' : Carries vs ws) : Carries us ws :=
  ⟨h'.conditions.trans h.conditions, h'.shaped⟩

theorem Carries.cons (h : Carries us vs) (hconditions : Markup.conditions u = Markup.conditions t)
    (hshaped : Everywhere Shaped u) : Carries (t :: us) (u :: vs) := by
  constructor
  · rw [List.flatMap_cons, List.flatMap_cons, hconditions, h.conditions]
  · exact List.forall_mem_cons.mpr ⟨hshaped, h.shaped⟩

theorem Carries.relabel {c : Content} (h : Carries us vs) (ht : Everywhere Shaped t)
    (hkind : t.label.kind.Similar c.kind) : Carries (t :: us) (t.setLabel c :: vs) :=
  h.cons (conditions_setLabel hkind) (ht.setLabel (shaped_setLabel ht.self hkind))

theorem Carries.drop (h : Carries us vs) (ht : Markup.conditions t = []) :
    Carries (t :: us) vs := by
  constructor
  · rw [List.flatMap_cons, ht, List.nil_append, h.conditions]
  · exact h.shaped

theorem Carries.push (h : Carries us vs) (hu : Markup.conditions u = [])
    (hshaped : Everywhere Shaped u) : Carries us (u :: vs) := by
  constructor
  · rw [List.flatMap_cons, hu, List.nil_append, h.conditions]
  · exact List.forall_mem_cons.mpr ⟨hshaped, h.shaped⟩

theorem Carries.flatMap {f : Doc → List Doc} (h : ∀ u ∈ us, Carries [u] (f u)) :
    Carries us (us.flatMap f) := by
  constructor
  · rw [List.flatMap_assoc]
    apply List.flatMap_congr
    intro u hu
    simpa using (h u hu).conditions
  · intro v hv
    obtain ⟨u, hu, hvu⟩ := List.mem_flatMap.mp hv
    exact (h u hu).shaped v hvu

theorem Carries.node {c d : Content} (h : Carries us vs) (hkind : d.kind = c.kind)
    (hself : Shaped (.node c us)) : Carries [.node c us] [.node d vs] := by
  refine (Carries.refl (by simp)).cons ?_ ?_
  · rw [conditions_node, conditions_node, h.conditions, condition?_similar (.inl hkind)]
  · rw [everywhere_node]
    refine ⟨?_, h.shaped⟩
    rw [Shaped, label_node, hkind]
    exact hself

theorem carries_reshape {P : Kind → Prop} {f : Content → List Doc → Content × List Doc}
    (hkind : ∀ c us, (f c us).1.kind = c.kind)
    (hstep : ∀ c us, (∀ u ∈ us, Everywhere Shaped u ∧ P u.label.kind) → Carries us (f c us).2)
    {d : Doc} (h : Everywhere (fun t => Shaped t ∧ P t.label.kind) d) :
    Carries [d] [d.reshape f] := by
  induction d using Tree.induct with
  | leaf c =>
    rw [reshape_leaf]
    exact .refl (by simpa using h.self.1)
  | node c ts ih =>
    obtain ⟨hself, hts⟩ := everywhere_node.mp h
    have hmap : Carries ts (ts.map (reshape f)) := by
      rw [List.map_eq_flatMap]
      exact .flatMap fun t ht => ih t ht (hts t ht)
    have hlist : Carries (ts.map (reshape f)) (f c (ts.map (reshape f))).2 := by
      apply hstep
      intro u hu
      obtain ⟨t, ht, rfl⟩ := List.mem_map.mp hu
      have hlabel : (t.reshape f).label.kind = t.label.kind := by
        cases t <;> simp [hkind]
      exact ⟨hmap.shaped _ hu, hlabel ▸ (hts t ht).self.2⟩
    rw [reshape_node]
    exact (hmap.trans hlist).node (hkind c _) hself.1

theorem carries_reshape_shaped {f : Content → List Doc → Content × List Doc}
    (hkind : ∀ c us, (f c us).1.kind = c.kind)
    (hstep : ∀ c us, (∀ u ∈ us, Everywhere Shaped u) → Carries us (f c us).2)
    {d : Doc} (h : Everywhere Shaped d) : Carries [d] [d.reshape f] := by
  refine carries_reshape (P := fun _ => True) hkind ?_ (h.mono fun _ ht => ⟨ht, trivial⟩)
  exact fun c us hus => hstep c us fun u hu => (hus u hu).1

end Carries

namespace Reshape

variable {src : Source} {c : Content} {t u : Doc} {us vs : List Doc}

theorem carries_dropLinefeed (h : ∀ u ∈ us, Everywhere Shaped u) :
    Carries us (dropLinefeed src us) := by
  rcases dropLinefeed_cases src us with hsame | ⟨t, ts, v, rest, rfl, hkind, -, hdrop⟩
  · rw [hsame]
    exact .refl h
  · rw [List.forall_mem_cons] at h
    rcases hdrop with ⟨-, hdrop⟩ | hdrop
    · rw [hdrop]
      exact (Carries.refl h.2).drop (conditions_text h.1.self hkind)
    · rw [hdrop]
      exact (Carries.refl h.2).relabel h.1 (.inr (.inl ⟨v, _, hkind, rfl⟩))

theorem carries_linefeed {d : Doc} (h : Everywhere Shaped d) : Carries [d] [linefeed src d] := by
  refine carries_reshape_shaped (fun c us => by rw [fst_linefeedStep]) ?_ h
  intro c us hus
  rcases snd_linefeedStep src c us with hsame | hdrop
  · rw [hsame]
    exact .refl hus
  · rw [hdrop]
    exact carries_dropLinefeed hus

theorem shaped_guard {g : Guard} (hguard : guard? t u = some g) (hu : Everywhere Shaped u) :
    Everywhere Shaped (g.fold u) := by
  obtain ⟨e, first, rest, -, -, -, helement, hchildren, -⟩ := guard?_eq_some hguard
  cases u with
  | leaf c => simp at hchildren
  | node c ts =>
    obtain rfl : ts = first :: rest := hchildren
    rw [everywhere_node, List.forall_mem_cons] at hu
    rw [label_node] at helement
    rw [Guard.fold_node, take_element helement]
    exact everywhere_node.mpr ⟨rfl, hu.2.2⟩

/-- The condition of a start comment goes over to the element behind it, which had none. -/
theorem conditions_guard {g : Guard} (hguard : guard? t u = some g) (ht : Everywhere Shaped t)
    (hu : Everywhere Shaped u) (hnone : u.label.kind.Unconditional) :
    conditions (g.fold u) = conditions t ++ conditions u := by
  obtain ⟨e, first, rest, hstart, -, -, helement, hchildren, hend, -, -⟩ := guard?_eq_some hguard
  have hcondition : conditions t = [g.condition] := by
    rw [conditions_of_not_isContainer ht.self (by simp [hstart, Kind.isContainer]), condition?,
      hstart]
    rfl
  cases u with
  | leaf c => simp at hchildren
  | node c ts =>
    obtain rfl : ts = first :: rest := hchildren
    rw [everywhere_node, List.forall_mem_cons] at hu
    obtain ⟨-, hfirst, -⟩ := hu
    have hempty : conditions first = [] := by
      rw [conditions_of_not_isContainer hfirst.self (by simp [hend, Kind.isContainer]), condition?,
        hend]
      rfl
    simp only [label_node] at helement hnone
    have hfree : c.condition? = none := by
      rw [Kind.Unconditional, helement] at hnone
      rw [condition?, helement]
      exact hnone
    rw [Guard.fold_node, take_element helement, conditions_node, conditions_node, hcondition, hfree,
      List.flatMap_cons, hempty]
    rfl

theorem shaped_foldGuards (h : ∀ u ∈ us, Everywhere Shaped u) :
    ∀ u ∈ foldGuards us, Everywhere Shaped u := by
  fun_induction foldGuards us with
  | case1 => exact h
  | case2 t => exact h
  | case3 t u ts g hguard ih =>
    simp only [List.forall_mem_cons] at h ⊢
    exact ⟨shaped_guard hguard h.2.1, ih h.2.2⟩
  | case4 t u ts hguard ih =>
    rw [List.forall_mem_cons] at h ⊢
    exact ⟨h.1, ih h.2⟩

theorem shaped_conditional {d : Doc} (h : Everywhere Shaped d) :
    Everywhere Shaped (conditional d) := by
  refine Everywhere.reshape (fun _ hc => hc) ?_ h
  intro c ts hself _ hus
  exact everywhere_node.mpr ⟨hself, shaped_foldGuards hus⟩

theorem carries_foldGuards (h : ∀ u ∈ us, Everywhere Shaped u ∧ u.label.kind.Unconditional) :
    Carries us (foldGuards us) := by
  refine ⟨?_, shaped_foldGuards fun u hu => (h u hu).1⟩
  fun_induction foldGuards us with
  | case1 => rfl
  | case2 t => rfl
  | case3 t u ts g hguard ih =>
    simp only [List.forall_mem_cons] at h
    obtain ⟨⟨ht, -⟩, ⟨hu, hnone⟩, hts⟩ := h
    simp only [List.flatMap_cons, conditions_guard hguard ht hu hnone, ih hts, List.append_assoc]
  | case4 t u ts hguard ih =>
    rw [List.forall_mem_cons] at h
    rw [List.flatMap_cons, ih h.2]
    rfl

theorem carries_conditional {d : Doc}
    (h : Everywhere (fun t => Shaped t ∧ t.label.kind.Unconditional) d) :
    Carries [d] [conditional d] :=
  carries_reshape (fun c us => by rw [fst_conditionalStep]) (fun _ _ => carries_foldGuards) h

theorem carries_literal (ht : Everywhere Shaped t) : Carries [t] [literal t] := by
  rw [literal]
  split
  case h_2 => exact .refl (by simpa using ht)
  case h_1 v hkind =>
    rw [ht.self.eq_leaf (by simp [hkind, Kind.isContainer])]
    constructor
    · simp [condition?, hkind]
    · simp [Shaped, Kind.isContainer]

theorem carries_coalesce (h : ∀ u ∈ us, Everywhere Shaped u) : Carries us (coalesce us) := by
  induction us with
  | nil => exact .refl h
  | cons t us ih =>
    rw [List.forall_mem_cons] at h
    have hrest := ih h.2
    have hcoalesce : coalesce (t :: us) = joinText t (coalesce us) := rfl
    rw [hcoalesce]
    rcases joinText_cases t (coalesce us) with hsame | ⟨u, vs, v, w, hus, hv, hw, hjoin⟩
    · rw [hsame]
      exact hrest.cons rfl h.1
    · rw [hus] at hrest
      obtain ⟨hconditions, hshaped⟩ := hrest
      rw [List.forall_mem_cons] at hshaped
      rw [List.flatMap_cons, conditions_text hshaped.1.self hw, List.nil_append] at hconditions
      rw [hjoin]
      exact (Carries.mk hconditions hshaped.2).relabel h.1 (.inr (.inl ⟨v, _, hv, rfl⟩))

theorem carries_cdata {d : Doc} (h : Everywhere Shaped d) : Carries [d] [cdata d] := by
  refine carries_reshape_shaped (fun c us => by rw [fst_cdataStep]) ?_ h
  intro c us hus
  rw [cdataStep]
  split
  case isFalse => exact .refl hus
  case isTrue =>
    have hliteral : Carries us (us.map literal) := by
      rw [List.map_eq_flatMap]
      exact .flatMap fun u hu => carries_literal (hus u hu)
    exact hliteral.trans (carries_coalesce hliteral.shaped)

theorem carries_pieces {isFirst : Bool} {cursor : Location} {segs : List Segment} :
    Carries [] (pieces src (.leaf c) isFirst cursor segs) := by
  induction segs generalizing isFirst cursor with
  | nil => exact .refl (by simp)
  | cons seg segs ih =>
    cases seg with
    | text cs =>
      rw [pieces]
      split
      case isTrue => exact ih
      case isFalse =>
        apply ih.push
        · rw [textPiece, conditions_leaf]
          rfl
        · rw [textPiece, everywhere_leaf]
          rfl
    | expression cs =>
      rw [pieces]
      apply ih.push
      · rw [expressionPiece, conditions_node]
        rfl
      · rw [expressionPiece, everywhere_node]
        exact ⟨rfl, by simp [Shaped, Kind.isContainer]⟩

theorem carries_splitText (ht : Everywhere Shaped t) : Carries [t] (splitText src t) := by
  rw [splitText]
  split
  case h_2 => exact .refl (by simpa using ht)
  case h_1 v hkind =>
    split
    case h_1 => exact .refl (by simpa using ht)
    case h_2 =>
      have hleaf := ht.self.eq_leaf (by simp [hkind, Kind.isContainer])
      have hpieces : Carries [] (pieces src t true t.label.span.start (segments v.toList)) := by
        rw [hleaf]
        exact carries_pieces
      exact hpieces.drop (conditions_text ht.self hkind)

theorem carries_interpolation {d : Doc} (h : Everywhere Shaped d) :
    Carries [d] [interpolation src d] := by
  refine carries_reshape_shaped (fun c us => by rw [fst_interpolationStep]) ?_ h
  intro c us hus
  rw [interpolationStep]
  split
  case isTrue => exact .refl hus
  case isFalse => exact .flatMap fun u hu => carries_splitText (hus u hu)

def Piece.item? : Piece Doc → Option Doc
  | space => none
  | item t => some t

theorem carries_settle {before : Bool} {ps : List (Piece Doc)}
    (h : ∀ t ∈ ps.filterMap Piece.item?, Everywhere Shaped t) :
    Carries (ps.filterMap Piece.item?) (settle before ps) := by
  induction ps generalizing before with
  | nil => exact .refl h
  | cons p ps ih =>
    cases p with
    | space => exact ih h
    | item t =>
      have hcons : (Piece.item t :: ps).filterMap Piece.item? = t :: ps.filterMap Piece.item? := rfl
      rw [hcons, List.forall_mem_cons] at h
      rw [hcons, settle, markSpaces]
      exact (ih h.2).relabel h.1 (.inl rfl)

theorem carries_cut (ht : Everywhere Shaped t) :
    Carries [t] ((cut src t).filterMap Piece.item?) := by
  cases hkind : t.label.kind with
  | text v =>
    have hpieces : ∀ u ∈ (cut src t).filterMap Piece.item?,
        conditions u = [] ∧ Everywhere Shaped u := by
      intro u hu
      obtain ⟨p, hp, hpu⟩ := List.mem_filterMap.mp hu
      cases p with
      | space => simp [Piece.item?] at hpu
      | item w =>
        obtain rfl := Option.some.inj hpu
        obtain ⟨c, rfl, hsimilar, -⟩ := exists_setLabel_of_mem_cut hp
        rw [conditions_setLabel hsimilar, conditions_text ht.self hkind]
        exact ⟨rfl, ht.setLabel (shaped_setLabel ht.self hsimilar)⟩
    constructor
    · rw [List.flatMap_eq_nil_iff.mpr fun u hu => (hpieces u hu).1]
      simp [conditions_text ht.self hkind]
    · exact fun u hu => (hpieces u hu).2
  | _ =>
    simp only [cut, hkind, List.filterMap_cons, Piece.item?, List.filterMap_nil]
    exact .refl (by simpa using ht)

theorem carries_whitespace {d : Doc} (h : Everywhere Shaped d) :
    Carries [d] [whitespace src d] := by
  refine carries_reshape_shaped ?_ ?_ h
  · intro c us
    obtain ⟨notes, hfst⟩ := fst_whitespaceStep src c us
    rw [hfst]
  · intro c us hus
    rw [whitespaceStep]
    split
    case isTrue hblank =>
      rcases isBlankList_cases hblank with rfl | ⟨t, v, rfl, hkind, -⟩
      · exact .refl (by simp)
      · exact (Carries.refl (by simp)).drop (conditions_text (hus t (by simp)).self hkind)
    case isFalse =>
      have hpieces : Carries us ((if c.keepsWhitespace then us.map .item
          else us.flatMap (cut src)).filterMap Piece.item?) := by
        split
        case isTrue =>
          have hitems : (us.map Piece.item).filterMap Piece.item? = us := by
            simp [List.filterMap_map, Function.comp_def, Piece.item?]
          rw [hitems]
          exact .refl hus
        case isFalse =>
          rw [List.filterMap_flatMap]
          exact .flatMap fun u hu => carries_cut (hus u hu)
      exact hpieces.trans (carries_settle hpieces.shaped)

theorem unconditional_linefeed {d : Doc} (h : Everywhere (fun t => t.label.kind.Unconditional) d) :
    Everywhere (fun t => t.label.kind.Unconditional) (linefeed src d) := by
  refine Everywhere.reshape (fun _ hc => hc) ?_ h
  intro c ts hself _ hus
  generalize ts.map (reshape (linefeedStep src)) = us at hus ⊢
  rw [everywhere_node, fst_linefeedStep]
  refine ⟨hself, ?_⟩
  rcases snd_linefeedStep src c us with hsame | hdrop
  · rw [hsame]
    exact hus
  · rw [hdrop]
    rcases dropLinefeed_cases src us with hsame | ⟨t, vs, v, rest, rfl, -, -, ⟨-, hdrop⟩ | hdrop⟩
    · rw [hsame]
      exact hus
    · rw [hdrop]
      exact fun u hu => hus u (List.mem_cons_of_mem _ hu)
    · rw [List.forall_mem_cons] at hus
      rw [hdrop, List.forall_mem_cons]
      refine ⟨hus.1.setLabel ?_, hus.2⟩
      rw [label_setLabel]
      rfl

end Reshape

theorem carries_decorate {g : Surroundings → Doc → Content} {d : Doc}
    (hg : ∀ a t, Alike t.label (g a t)) (h : Everywhere Shaped d) :
    Carries [d] [d.decorate g {}] := by
  have hrel := related_decorate hg {} d
  refine (Carries.refl (by simp)).cons ?_ ?_
  · have hlabels := hrel.preorder
    rw [conditions, conditions]
    generalize d.preorder = cs at hlabels
    generalize (d.decorate g {}).preorder = ds at hlabels
    induction hlabels with
    | nil => rfl
    | cons hcd _ ih =>
      rw [List.filterMap_cons, List.filterMap_cons, ih, condition?_similar hcd.similar]
  · refine hrel.everywhere ?_ h
    intro t u htu ht
    rw [Shaped, ← htu.isSome_children?, ht, htu.label.isContainer]

namespace Pass

/-- Apart from the pass that moves them and the one that folds elements, passes leave conditions
alone. -/
theorem carries_apply {o : Options} {p : Pass} {d : Doc} (hconditional : p ≠ conditional)
    (hsimple : p ≠ simpleElement) (h : Everywhere Shaped d) : Carries [d] [p.apply o d] := by
  cases p with
  | linefeed => exact Reshape.carries_linefeed h
  | conditional => exact absurd rfl hconditional
  | cdata => exact Reshape.carries_cdata h
  | interpolation =>
    rw [apply]
    split
    case isTrue => exact Reshape.carries_interpolation h
    case isFalse => exact .refl (by simpa using h)
  | whitespace => exact Reshape.carries_whitespace h
  | display => exact carries_decorate (Annotate.alike_displayContent o) h
  | selfClosing => exact carries_decorate Annotate.alike_selfClosingContent h
  | componentClosing => exact carries_decorate (Annotate.alike_componentContent o.source) h
  | boundary => exact carries_decorate Annotate.alike_boundaryContent h
  | simpleElement => exact absurd rfl hsimple

theorem carries_applyAll {o : Options} (ps : List Pass) {d : Doc} (hconditional : conditional ∉ ps)
    (hsimple : simpleElement ∉ ps) (h : Everywhere Shaped d) : Carries [d] [applyAll o ps d] := by
  induction ps generalizing d with
  | nil => exact .refl (by simpa using h)
  | cons p ps ih =>
    rw [List.mem_cons, not_or] at hconditional hsimple
    have hfirst := carries_apply (o := o) (Ne.symm hconditional.1) (Ne.symm hsimple.1) h
    exact hfirst.trans (ih hconditional.2 hsimple.2 (hfirst.shaped _ List.mem_cons_self))

/-- No condition is lost before simple elements are folded. -/
theorem carries_take {o : Options} {d : Doc}
    (h : Everywhere (fun t => Shaped t ∧ t.label.kind.Unconditional) d) :
    Carries [d] [applyAll o (all.take 9) d] := by
  have hlinefeed : Carries [d] [Reshape.linefeed o.source d] :=
    Reshape.carries_linefeed (h.mono fun _ ht => ht.1)
  have hready : Everywhere (fun t => Shaped t ∧ t.label.kind.Unconditional)
      (Reshape.linefeed o.source d) := by
    intro t ht
    exact ⟨hlinefeed.shaped _ List.mem_cons_self t ht,
      Reshape.unconditional_linefeed (h.mono fun _ ht => ht.2) t ht⟩
  have hconditional := hlinefeed.trans (Reshape.carries_conditional hready)
  have hshaped := hconditional.shaped _ List.mem_cons_self
  exact hconditional.trans (carries_applyAll ((all.take 9).drop 2) (by decide) (by decide) hshaped)

end Pass

/-- Of `xs` only `ys` is left, in the same order, and `gone` is not there any more. -/
structure Leaves {α : Type} (xs ys gone : List α) : Prop where
  sublist : ys.Sublist xs
  perm : xs.Perm (ys ++ gone)

section Leaves

variable {α : Type} {xs ys zs gone xs' ys' gone' : List α}

theorem Leaves.refl (xs : List α) : Leaves xs xs [] := ⟨.refl xs, by simp⟩

theorem Leaves.drop (xs : List α) : Leaves xs [] xs := ⟨List.nil_sublist xs, by simp⟩

theorem Leaves.append (h : Leaves xs ys gone) (h' : Leaves xs' ys' gone') :
    Leaves (xs ++ xs') (ys ++ ys') (gone ++ gone') := by
  constructor
  · exact h.sublist.append h'.sublist
  · calc (xs ++ xs').Perm ((ys ++ gone) ++ (ys' ++ gone')) := h.perm.append h'.perm
      List.Perm _ ((ys ++ ys') ++ (gone ++ gone')) := by
        rw [List.append_assoc, List.append_assoc]
        exact (List.perm_append_comm_assoc gone ys' gone').append_left ys

theorem Leaves.trans (h : Leaves xs ys gone) (h' : Leaves ys zs gone') :
    Leaves xs zs (gone ++ gone') := by
  constructor
  · exact h'.sublist.trans h.sublist
  · calc xs.Perm (ys ++ gone) := h.perm
      List.Perm _ ((zs ++ gone') ++ gone) := h'.perm.append_right gone
      List.Perm _ (zs ++ (gone ++ gone')) := by
        rw [List.append_assoc]
        exact List.perm_append_comm.append_left zs

theorem Leaves.flatMap {ι : Type} {is : List ι} {f g k : ι → List α}
    (h : ∀ i ∈ is, Leaves (f i) (g i) (k i)) :
    Leaves (is.flatMap f) (is.flatMap g) (is.flatMap k) := by
  induction is with
  | nil => exact .refl []
  | cons i is ih =>
    rw [List.forall_mem_cons] at h
    exact h.1.append (ih h.2)

theorem Leaves.eq_iff (h : Leaves xs ys gone) : ys = xs ↔ gone = [] := by
  have hlength := h.perm.length_eq
  rw [List.length_append] at hlength
  constructor
  · rintro rfl
    exact List.eq_nil_of_length_eq_zero (by omega)
  · rintro rfl
    exact h.sublist.eq_of_length (by simpa using hlength.symm)

end Leaves

namespace Reshape

variable {t u v : Doc} {us : List Doc}

theorem shaped_joinAcross (hsimple : isSimpleBetween t u v = true) (ht : Shaped t) :
    Shaped (joinAcross t u v) := by
  have hsimilar := (similar_joinAcross hsimple).1
  rw [joinAcross, label_setLabel] at hsimilar
  exact shaped_setLabel ht hsimilar

theorem conditions_joinAcross (hsimple : isSimpleBetween t u v = true) (ht : Shaped t) :
    conditions (joinAcross t u v) = [] := by
  apply conditions_text (shaped_joinAcross hsimple ht)
  rw [joinAcross, label_setLabel]

theorem shaped_simpleElement {d : Doc} (h : Everywhere Shaped d) :
    Everywhere Shaped (simpleElement d) :=
  everywhere_simpleElement (fun _ _ _ _ ht => ht) (fun _ _ _ => shaped_joinAcross) h

theorem conditions_simple {e : Element} {inner : Doc} {word : String} (h : Simple u e inner word)
    (hu : Everywhere Shaped u) : conditions u = u.label.condition?.toList := by
  cases u with
  | leaf c => exact absurd h.children (by simp)
  | node c ts =>
    obtain rfl : ts = [inner] := h.children
    have hinner := (everywhere_node.mp hu).2 inner (by simp)
    rw [conditions_node, List.flatMap_singleton, conditions_text hinner.self h.innerKind,
      List.append_nil, label_node]

/-- Folding loses the conditions of the elements that are written out and no others. -/
theorem leaves_foldBehind (ht : Everywhere Shaped t) (hus : ∀ u ∈ us, Everywhere Shaped u) :
    Leaves ((t :: us).flatMap conditions) ((foldBehind t us).flatMap conditions)
      ((simplesBehind t us).flatMap fun u => u.label.condition?.toList) := by
  fun_induction foldBehind t us with
  | case1 t => exact .refl _
  | case2 t u => exact .refl _
  | case3 t u v ts hsimple ih =>
    simp only [List.forall_mem_cons] at hus
    obtain ⟨hu, hv, hts⟩ := hus
    obtain ⟨⟨x, y, hx, hy⟩, e, inner, word, hsimple'⟩ := isSimpleBetween_cases hsimple
    have hrest := ih (ht.setLabel (shaped_joinAcross hsimple ht.self)) hts
    rw [List.flatMap_cons, conditions_joinAcross hsimple ht.self, List.nil_append] at hrest
    rw [simplesBehind, if_pos hsimple]
    simp only [List.flatMap_cons, conditions_text ht.self hx, conditions_text hv.self hy,
      conditions_simple hsimple' hu, List.nil_append]
    exact (Leaves.drop _).append hrest
  | case4 t u v ts hsimple ih =>
    rw [List.forall_mem_cons] at hus
    rw [simplesBehind, if_neg hsimple]
    exact (Leaves.refl (conditions t)).append (ih hus.1 hus.2)

theorem leaves_foldSimple (hus : ∀ u ∈ us, Everywhere Shaped u) :
    Leaves (us.flatMap conditions) ((foldSimple us).flatMap conditions)
      ((simples us).flatMap fun u => u.label.condition?.toList) := by
  cases us with
  | nil => exact .refl _
  | cons t us =>
    rw [List.forall_mem_cons] at hus
    exact leaves_foldBehind hus.1 hus.2

theorem leaves_simpleElement {d : Doc} (h : Everywhere Shaped d) :
    Leaves (conditions d) (conditions (simpleElement d))
      ((writtenOut d).flatMap fun u => u.label.condition?.toList) := by
  induction d using Tree.induct with
  | leaf c => exact .refl _
  | node c ts ih =>
    obtain ⟨-, hts⟩ := everywhere_node.mp h
    have hbelow := Leaves.flatMap fun t ht => ih t ht (hts t ht)
    have hshaped : ∀ u ∈ ts.map simpleElement, Everywhere Shaped u :=
      List.forall_mem_map.mpr fun t ht => shaped_simpleElement (hts t ht)
    have hfold := leaves_foldSimple hshaped
    rw [List.flatMap_map] at hfold
    rw [← List.flatMap_assoc] at hbelow
    rw [conditions_node, simpleElement_node, conditions_node, writtenOut_node, List.flatMap_append]
    exact (Leaves.refl c.condition?.toList).append (hbelow.trans hfold)

end Reshape

/-- The conditions of a built document that has none on elements yet. What is missing in the end is
what was on elements that are written out, and it is missing there only. -/
theorem conditions_kept_iff (o : Options) (s out : Store) (hbuilt : s.Built)
    (hplain : ∀ id n, s.node? id = some n → n.kind.Unconditional) (h : prepare o s = .ok out) :
    ∃ before folding after, s.toDoc = .ok before ∧
      Pass.runAll o s (Pass.all.take 9) = .ok (.ofDoc folding) ∧ out.toDoc = .ok after ∧
      conditions folding = conditions before ∧
      (conditions after).Sublist (conditions before) ∧
      (conditions before).Perm (conditions after ++
        (Reshape.writtenOut folding).flatMap fun u => u.label.condition?.toList) ∧
      (conditions after = conditions before ↔
        ∀ u ∈ Reshape.writtenOut folding, u.label.condition? = none) := by
  obtain ⟨d, hd, rfl⟩ := prepare_eq_ok h
  have hshaped := hbuilt.everywhere_toDoc hd hplain
  have hcarries := Pass.carries_take (o := o) hshaped
  have hleaves := Reshape.leaves_simpleElement (hcarries.shaped _ List.mem_cons_self)
  have hsame : conditions (Pass.applyAll o (Pass.all.take 9) d) = conditions d := by
    simpa using hcarries.conditions
  rw [hsame] at hleaves
  refine ⟨d, _, _, hd, ?_, Store.toDoc_ofDoc _, hsame, hleaves.sublist, hleaves.perm, ?_⟩
  · exact Pass.runAll_linefeed hd o (Pass.all.take 9).tail
  · apply hleaves.eq_iff.trans
    rw [List.flatMap_eq_nil_iff]
    simp

def guardedText : String := "a<!--[if IE 5]><!--><b><!--<![endif]-->x</b>c"

/-- A word in an element with a condition, between two texts. -/
def guardedStore : Store :=
  let span (start stop : Nat) : Span := ⟨.ofOffset start, .ofOffset stop⟩
  let element : Element := { name := "b", openTag := span 20 23, closeTag := some (span 40 44) }
  (Store.new (span 0 45)).growAll
    [(0, { kind := .text "a", span := span 0 1 }),
     (0, { kind := .conditionalStart "IE 5", span := span 1 20 }),
     (0, { kind := .element element, span := span 20 44 }),
     (3, { kind := .conditionalEnd, span := span 23 39 }),
     (3, { kind := .text "x", span := span 39 40 }),
     (0, { kind := .text "c", span := span 44 45 })]

theorem built_guardedStore : guardedStore.Built := Store.Built.growAll (.new _) _

theorem unconditional_guardedStore (id : NodeId) (n : Node) (hn : guardedStore.node? id = some n) :
    n.kind.Unconditional := by
  have hall : ∀ m ∈ guardedStore.nodes.toList, m.kind.Unconditional := by decide +kernel
  exact hall n (Array.mem_toList_iff.mpr (Array.mem_of_getElem? hn))

theorem conditions_kept_iff_guardedStore :
    guardedStore.Built ∧ (∀ id n, guardedStore.node? id = some n → n.kind.Unconditional) ∧
      ∃ out, prepare { source := .ofString guardedText } guardedStore = .ok out ∧
      ∃ before folding after, guardedStore.toDoc = .ok before ∧
        Pass.runAll { source := .ofString guardedText } guardedStore (Pass.all.take 9) =
          .ok (.ofDoc folding) ∧
        out.toDoc = .ok after ∧ conditions folding = conditions before ∧
        (conditions after).Sublist (conditions before) ∧
        (conditions before).Perm (conditions after ++
          (Reshape.writtenOut folding).flatMap fun u => u.label.condition?.toList) ∧
        (conditions after = conditions before ↔
          ∀ u ∈ Reshape.writtenOut folding, u.label.condition? = none) := by
  have hprepared :
      (prepare { source := .ofString guardedText } guardedStore).toOption.isSome = true := by
    decide +kernel
  refine ⟨built_guardedStore, unconditional_guardedStore, ?_⟩
  cases hout : prepare { source := .ofString guardedText } guardedStore with
  | error e => simp [hout, Except.toOption] at hprepared
  | ok out =>
    exact ⟨out, rfl, conditions_kept_iff _ _ out built_guardedStore unconditional_guardedStore hout⟩

/-- The condition of an element is gone when the element is folded into the text around it. -/
theorem folding_drops_condition :
    guardedStore.Built ∧ (∀ id n, guardedStore.node? id = some n → n.kind.Unconditional) ∧
      ∃ before out after, guardedStore.toDoc = .ok before ∧
        prepare { source := .ofString guardedText } guardedStore = .ok out ∧
        out.toDoc = .ok after ∧ conditions before = ["IE 5"] ∧ conditions after = [] := by
  have hbefore : guardedStore.toDoc.toOption.map conditions = some ["IE 5"] := by decide +kernel
  have hafter : ((prepare { source := .ofString guardedText } guardedStore).toOption.bind fun out =>
      out.toDoc.toOption.map conditions) = some [] := by
    decide +kernel
  refine ⟨built_guardedStore, unconditional_guardedStore, ?_⟩
  cases hdoc : guardedStore.toDoc with
  | error e => simp [hdoc, Except.toOption] at hbefore
  | ok before =>
    cases hout : prepare { source := .ofString guardedText } guardedStore with
    | error e => simp [hout, Except.toOption] at hafter
    | ok out =>
      cases hend : out.toDoc with
      | error e => simp [hout, hend, Except.toOption] at hafter
      | ok after =>
        refine ⟨before, out, after, rfl, rfl, hend, ?_, ?_⟩
        · simpa [hdoc, Except.toOption] using hbefore
        · simpa [hout, hend, Except.toOption] using hafter

end Markup
