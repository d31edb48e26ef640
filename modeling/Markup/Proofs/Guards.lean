import Markup.Proofs.Conditions
import Markup.Proofs.WellFormed

/-! Guards. An element is folded just if comments stand around its opening tag in the document as it
was, whatever is folded inside the element. The two comments go, the element takes in what they say,
and all other nodes stay as they are. -/
namespace Markup

open Markup.Tree

namespace Reshape

variable {t u : Doc} {g : Guard} {prev : Option Doc} {ts : List Doc}

/-- The comment `before` and the first child of the element `t` touch its opening tag from either
side. -/
inductive Guards (before t : Doc) : Guard → Prop where
  | intro {condition : String} {e : Element} {first : Doc}
      (hstart : before.label.kind = .conditionalStart condition)
      (helement : t.label.kind = .element e) (hfirst : t.children.head? = some first)
      (hend : first.label.kind = .conditionalEnd)
      (houter : before.label.span.stop.offset = e.openTag.start.offset)
      (hinner : first.label.span.start.offset = e.openTag.stop.offset) :
      Guards before t ⟨condition, before.label.span.start, first.label.span.stop⟩

/-- The children in `ts` that stay, each with the guard that it takes in, where `prev` stands before
the first of them. -/
inductive Stay : Option Doc → List Doc → List (Option Guard × Doc) → Prop where
  | nil (prev : Option Doc) : Stay prev [] []
  /-- A comment goes if it guards the child behind it. -/
  | drop {prev : Option Doc} {t u : Doc} {ts : List Doc} {g : Guard}
      {ps : List (Option Guard × Doc)} (hguards : Guards t u g) (h : Stay (some t) (u :: ts) ps) :
      Stay prev (t :: u :: ts) ps
  /-- Any other child stays, and takes in a guard just if the child before it guards it. -/
  | keep {prev : Option Doc} {t : Doc} {ts : List Doc} {taken : Option Guard}
      {ps : List (Option Guard × Doc)} (hlast : ∀ u g, ts.head? = some u → ¬ Guards t u g)
      (htaken : ∀ g, taken = some g ↔ ∃ before, prev = some before ∧ Guards before t g)
      (h : Stay (some t) ts ps) : Stay prev (t :: ts) ((taken, t) :: ps)

/-- The second document is the first one with all guards folded. The first argument is the guard
that the root itself takes in. -/
inductive Unguards : Option Guard → Doc → Doc → Prop where
  | leaf (c : Content) : Unguards none (.leaf c) (.leaf c)
  /-- A node that takes in no guard keeps its content. -/
  | node {c : Content} {ts vs : List Doc} {ps : List (Option Guard × Doc)} (hstay : Stay none ts ps)
      (h : List.Forall₂ (fun p v => Unguards p.1 p.2 v) ps vs) :
      Unguards none (.node c ts) (.node c vs)
  /-- An element that takes in a guard loses its first child. Its opening tag reaches from the start
  of the one comment to the end of the other. -/
  | element {g : Guard} {c : Content} {e : Element} {first : Doc} {rest vs : List Doc}
      {ps : List (Option Guard × Doc)} (hkind : c.kind = .element e)
      (hstay : Stay (some first) rest ps)
      (h : List.Forall₂ (fun p v => Unguards p.1 p.2 v) ps vs) :
      Unguards (some g) (.node c (first :: rest))
        (.node { c with
          kind := .element { e with openTag := ⟨g.start, g.stop⟩, condition := some g.condition }
          span := { c.span with start := g.start } } vs)

theorem guards_iff : Guards t u g ↔ guard? t u = some g := by
  constructor
  · rintro ⟨hstart, helement, hfirst, hend, houter, hinner⟩
    obtain ⟨rest, hchildren⟩ := List.head?_eq_some_iff.mp hfirst
    rw [guard?, hstart, helement, hchildren]
    exact if_pos ⟨houter, hend, hinner⟩
  · intro h
    obtain ⟨e, first, rest, hstart, hgstart, houter, helement, hchildren, hend, hinner, hgstop⟩ :=
      guard?_eq_some h
    obtain ⟨condition, start, stop⟩ := g
    obtain rfl : _ = start := hgstart
    obtain rfl : _ = stop := hgstop
    exact .intro hstart helement (by rw [hchildren]; rfl) hend houter hinner

section Inside

theorem Guards.congr {t' u' : Doc} (h : Guards t u g) (ht : t'.label = t.label)
    (hu : u'.label = u.label)
    (hend : ∀ first, first.label.kind = .conditionalEnd → u.children.head? = some first →
      ∃ first', u'.children.head? = some first' ∧ first'.label = first.label) :
    Guards t' u' g := by
  obtain ⟨hstart, helement, hfirst, hkind, houter, hinner⟩ := h
  obtain ⟨first', hfirst', hlabel⟩ := hend _ hkind hfirst
  rw [← ht] at hstart houter ⊢
  rw [← hlabel] at hkind hinner ⊢
  exact .intro hstart (hu ▸ helement) hfirst' hkind houter hinner

/-- An end comment at the front of a list is not taken away by folding, and none comes there. -/
theorem head?_foldGuards_eq_some_iff {us : List Doc} {first : Doc}
    (hend : first.label.kind = .conditionalEnd) :
    (foldGuards us).head? = some first ↔ us.head? = some first := by
  fun_cases foldGuards us with
  | case3 t u us g hguard =>
    obtain ⟨e, _, _, hstart, -, -, helement, -⟩ := guard?_eq_some hguard
    rw [List.head?_cons, List.head?_cons, Option.some.injEq, Option.some.injEq]
    refine iff_of_false ?_ ?_
    · rintro rfl
      cases u <;> simp_all [Guard.fold, take_element]
    · rintro rfl
      simp [hstart] at hend
  | _ => rfl

theorem label_conditional (t : Doc) : (conditional t).label = t.label :=
  label_reshape fst_conditionalStep t

theorem conditional_node (c : Content) (ts : List Doc) :
    conditional (.node c ts) = .node c (foldGuards (ts.map conditional)) := reshape_node _ _ _

theorem head?_children_conditional {first : Doc} (hend : first.label.kind = .conditionalEnd) :
    (conditional u).children.head? = some first ↔
      (u.children.map conditional).head? = some first := by
  cases u with
  | leaf c => rfl
  | node c us =>
    rw [conditional_node]
    exact head?_foldGuards_eq_some_iff hend

theorem guard?_conditional (t u : Doc) : guard? (conditional t) (conditional u) = guard? t u := by
  ext g
  rw [← guards_iff, ← guards_iff]
  constructor
  · intro h
    refine h.congr (label_conditional t).symm (label_conditional u).symm fun first hend hfirst => ?_
    rw [head?_children_conditional hend, List.head?_map, Option.map_eq_some_iff] at hfirst
    obtain ⟨first', hfirst', rfl⟩ := hfirst
    exact ⟨first', hfirst', (label_conditional first').symm⟩
  · intro h
    refine h.congr (label_conditional t) (label_conditional u) fun first hend hfirst => ?_
    have hlabel := label_conditional first
    refine ⟨conditional first, ?_, hlabel⟩
    rw [head?_children_conditional (hlabel ▸ hend), List.head?_map, hfirst]
    rfl

end Inside

section Lists

/-- The guard that a node takes in from the one before it. -/
def taken? (prev : Option Doc) (t : Doc) : Option Guard := prev.bind (guard? · t)

/-- The children that stay, found by a look at the neighbours of each. -/
def staying (prev : Option Doc) : List Doc → List (Option Guard × Doc)
  | [] => []
  | t :: ts =>
    if ts.head?.bind (taken? (some t)) = none then (taken? prev t, t) :: staying (some t) ts
    else staying (some t) ts

theorem taken?_eq_some_iff :
    taken? prev t = some g ↔ ∃ before, prev = some before ∧ Guards before t g := by
  rw [taken?, Option.bind_eq_some_iff]
  simp only [guards_iff]

theorem head?_bind_taken?_eq_none_iff :
    ts.head?.bind (taken? (some t)) = none ↔ ∀ u g, ts.head? = some u → ¬ Guards t u g := by
  simp only [Option.eq_none_iff_forall_ne_some, ne_eq, Option.bind_eq_some_iff, not_exists, not_and,
    taken?, Option.bind_some, guards_iff]
  exact forall_comm

theorem head?_bind_taken?_of_kind (h : ∀ condition, t.label.kind ≠ .conditionalStart condition)
    (ts : List Doc) : ts.head?.bind (taken? (some t)) = none := by
  rw [head?_bind_taken?_eq_none_iff]
  rintro u g - ⟨hstart, -⟩
  exact h _ hstart

theorem stay_iff {ps : List (Option Guard × Doc)} : Stay prev ts ps ↔ ps = staying prev ts := by
  induction ts generalizing prev ps with
  | nil =>
    constructor
    · rintro ⟨⟩
      rfl
    · rintro rfl
      exact .nil prev
  | cons t ts ih =>
    rw [staying]
    constructor
    · intro h
      cases h with
      | drop hguards h =>
        rw [if_neg fun hnone => head?_bind_taken?_eq_none_iff.mp hnone _ _ rfl hguards]
        exact ih.mp h
      | keep hlast htaken h =>
        rw [if_pos (head?_bind_taken?_eq_none_iff.mpr hlast), ih.mp h]
        congr 2
        ext g
        exact (htaken g).trans taken?_eq_some_iff.symm
    · rintro rfl
      split
      case isTrue hnone =>
        exact .keep (head?_bind_taken?_eq_none_iff.mp hnone) (fun g => taken?_eq_some_iff)
          (ih.mpr rfl)
      case isFalse hsome =>
        obtain ⟨g, hg⟩ := Option.ne_none_iff_exists'.mp hsome
        obtain ⟨u, hu, hguard⟩ := Option.bind_eq_some_iff.mp hg
        obtain ⟨us, rfl⟩ := List.head?_eq_some_iff.mp hu
        exact .drop (guards_iff.mpr hguard) (ih.mpr rfl)

/-- What becomes of a child that stays. -/
def settled : Option Guard → Doc → Doc
  | none, t => conditional t
  | some g, t => g.fold (conditional t)

/-- Folding goes through a list in steps of one or two children and comes to the same. -/
theorem foldGuards_map_conditional (h : ts.head?.bind (taken? prev) = none) :
    foldGuards (ts.map conditional) = (staying prev ts).map fun p => settled p.1 p.2 := by
  fun_induction foldGuards ts generalizing prev with
  | case1 => rfl
  | case2 t =>
    have hfree : taken? prev t = none := h
    simp [foldGuards, staying, hfree, settled]
  | case3 t u ts g hguard ih =>
    obtain ⟨e, first, rest, hstart, -, -, helement, -⟩ := guard?_eq_some hguard
    have hnone := head?_bind_taken?_of_kind (t := u) (by simp [helement]) ts
    have hstay : staying prev (t :: u :: ts) = (some g, u) :: staying (some u) ts := by
      simp [staying, hnone, taken?, hguard]
    rw [hstay, List.map_cons, List.map_cons, foldGuards, guard?_conditional, hguard,
      List.map_cons, ih hnone]
    rfl
  | case4 t u ts hguard ih =>
    have hnone : (u :: ts).head?.bind (taken? (some t)) = none := hguard
    have hstay : staying prev (t :: u :: ts) = (none, t) :: staying (some t) (u :: ts) := by
      rw [staying, if_pos hnone, show taken? prev t = none from h]
    rw [hstay, List.map_cons, List.map_cons, foldGuards, guard?_conditional, hguard,
      List.map_cons, ← List.map_cons, ih hnone]
    rfl

theorem conditional_node_eq (c : Content) (ts : List Doc) : conditional (.node c ts) =
    .node c ((staying none ts).map fun p => settled p.1 p.2) := by
  have hfree : ts.head?.bind (taken? none) = none := by cases ts <;> rfl
  rw [conditional_node, foldGuards_map_conditional hfree]

theorem mem_staying {p : Option Guard × Doc} (h : p ∈ staying prev ts) :
    p.2 ∈ ts ∧ ∀ g, p.1 = some g → ∃ before, Guards before p.2 g := by
  induction ts generalizing prev with
  | nil => simp [staying] at h
  | cons t ts ih =>
    have hrest : p ∈ staying (some t) ts →
        p.2 ∈ t :: ts ∧ ∀ g, p.1 = some g → ∃ before, Guards before p.2 g := fun hp =>
      ⟨List.mem_cons_of_mem _ (ih hp).1, (ih hp).2⟩
    rw [staying] at h
    split at h
    case isFalse => exact hrest h
    case isTrue =>
      rcases List.mem_cons.mp h with rfl | h
      · refine ⟨List.mem_cons_self, fun g hg => ?_⟩
        obtain ⟨before, -, hguards⟩ := taken?_eq_some_iff.mp hg
        exact ⟨before, hguards⟩
      · exact hrest h

end Lists

section Trees

/-- An element that takes in a guard has its end comment in front, which guards nothing. -/
theorem settled_guarded {c : Content} {e : Element} {first : Doc} {rest : List Doc}
    (hkind : c.kind = .element e) (hend : first.label.kind = .conditionalEnd) :
    settled (some g) (.node c (first :: rest)) = .node { c with
        kind := .element { e with openTag := ⟨g.start, g.stop⟩, condition := some g.condition }
        span := { c.span with start := g.start } }
      ((staying (some first) rest).map fun p => settled p.1 p.2) := by
  have hnone := head?_bind_taken?_of_kind (t := first) (by simp [hend]) rest
  rw [settled, conditional_node_eq, Guard.fold_node, take_element hkind, staying, if_pos hnone,
    List.map_cons, List.tail_cons]

/-- Only one document is the given one with all guards folded, and folding from the inside out comes
to it. -/
theorem unguards_iff {taken : Option Guard} {v : Doc}
    (h : ∀ g, taken = some g → ∃ before, Guards before t g) :
    Unguards taken t v ↔ v = settled taken t := by
  induction t using Tree.induct generalizing taken v with
  | leaf c =>
    cases taken with
    | none =>
      constructor
      · rintro ⟨⟩
        rfl
      · rintro rfl
        exact .leaf c
    | some g =>
      obtain ⟨before, -, -, hfirst, -⟩ := h g rfl
      simp at hfirst
  | node c ts ih =>
    have hlist : ∀ prev us vs, us <:+ ts →
        (List.Forall₂ (fun p v => Unguards p.1 p.2 v) (staying prev us) vs ↔
          vs = (staying prev us).map fun p => settled p.1 p.2) := by
      intro prev us vs hsuffix
      apply forall₂_iff_eq_map
      intro p hp v
      obtain ⟨hmem, hguards⟩ := mem_staying hp
      exact ih p.2 (hsuffix.subset hmem) hguards
    cases taken with
    | none =>
      rw [settled, conditional_node_eq]
      constructor
      · rintro (_ | ⟨hstay, hall⟩)
        obtain rfl := stay_iff.mp hstay
        rw [(hlist _ _ _ List.suffix_rfl).mp hall]
      · rintro rfl
        exact .node (stay_iff.mpr rfl) ((hlist _ _ _ List.suffix_rfl).mpr rfl)
    | some g =>
      obtain ⟨before, -, helement, hfirst, hend, -⟩ := h g rfl
      obtain ⟨rest, rfl⟩ := List.head?_eq_some_iff.mp hfirst
      rw [label_node] at helement
      rw [settled_guarded helement hend]
      constructor
      · rintro (_ | _ | ⟨hkind, hstay, hall⟩)
        obtain rfl := Kind.element.inj (helement.symm.trans hkind)
        obtain rfl := stay_iff.mp hstay
        rw [(hlist _ _ _ (List.suffix_cons _ _)).mp hall]
      · rintro rfl
        exact .element helement (stay_iff.mpr rfl) ((hlist _ _ _ (List.suffix_cons _ _)).mpr rfl)

end Trees

end Reshape

open Reshape

/-- Folding guards, at every level of a document: elements that comments of the document guard take
in those comments, and no other node changes or goes. No other document is made in this way. If no
element had a condition, the conditions are the same as before. -/
theorem guards_folded_exactly (o : Options) (s : Store) (h : s.Built) :
    ∃ d out d', s.toDoc = .ok d ∧ Pass.conditional.run o s = .ok out ∧ out.toDoc = .ok d' ∧
      (∀ e, Unguards none d e ↔ e = d') ∧
      (Everywhere (fun t => t.label.kind.Unconditional) d → conditions d' = conditions d) := by
  obtain ⟨d, -, hd, -, hshaped, -⟩ := h.wellFormed.exists_toDoc
  refine ⟨d, .ofDoc (conditional d), _, hd, Pass.run_of_toDoc hd rfl, Store.toDoc_ofDoc _, ?_, ?_⟩
  · exact fun e => unguards_iff (t := d) (v := e) (by simp)
  · intro hplain
    have hcarries := carries_conditional fun t ht => ⟨hshaped t ht, hplain t ht⟩
    simpa using hcarries.conditions

/-- Two start comments and two end comments around one opening tag, a guard inside the element
behind that tag, a guard right behind it, and a start comment that does not touch the tag behind
it. -/
def stackedStore : Store :=
  let span (start stop : Nat) : Span := ⟨.ofOffset start, .ofOffset stop⟩
  let element (name : String) (start inner outer stop : Nat) : Content :=
    { kind := .element { name, openTag := span start inner, closeTag := some (span outer stop) }
      span := span start stop }
  (Store.new (span 0 194)).growAll
    [(0, { kind := .conditionalStart "A", span := span 0 16 }),
     (0, { kind := .conditionalStart "B", span := span 16 32 }),
     (0, element "div" 32 37 108 114),
     (3, { kind := .conditionalEnd, span := span 37 53 }),
     (3, { kind := .conditionalEnd, span := span 53 69 }),
     (3, { kind := .conditionalStart "C", span := span 69 85 }),
     (3, element "p" 85 88 104 108),
     (7, { kind := .conditionalEnd, span := span 88 104 }),
     (0, { kind := .conditionalStart "D", span := span 114 130 }),
     (0, element "b" 130 133 150 154),
     (10, { kind := .conditionalEnd, span := span 133 149 }),
     (10, { kind := .text "x", span := span 149 150 }),
     (0, { kind := .conditionalStart "E", span := span 154 170 }),
     (0, element "i" 171 174 190 194),
     (14, { kind := .conditionalEnd, span := span 174 190 })]

theorem guards_folded_exactly_stackedStore :
    stackedStore.Built ∧ ∃ d out d', stackedStore.toDoc = .ok d ∧
      Pass.conditional.run { source := .ofString "" } stackedStore = .ok out ∧
      out.toDoc = .ok d' ∧ (∀ e, Unguards none d e ↔ e = d') ∧
      Everywhere (fun t => t.label.kind.Unconditional) d ∧ conditions d' = conditions d := by
  have hbuilt : stackedStore.Built := Store.Built.growAll (.new _) _
  have hnodes : ∀ m ∈ stackedStore.nodes.toList, m.kind.Unconditional := by decide +kernel
  obtain ⟨d, out, d', hd, hrun, hd', hfolded, hconditions⟩ :=
    guards_folded_exactly { source := .ofString "" } stackedStore hbuilt
  have hplain : Everywhere (fun t => t.label.kind.Unconditional) d :=
    (hbuilt.everywhere_toDoc hd fun id n hn =>
      hnodes n (Array.mem_toList_iff.mpr (Array.mem_of_getElem? hn))).mono fun _ ht => ht.2
  exact ⟨hbuilt, d, out, d', hd, hrun, hd', hfolded, hplain, hconditions hplain⟩

end Markup
