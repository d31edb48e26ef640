import Markup.Tree
import Mathlib.Data.List.Forall2

/-! Subtrees: properties that hold everywhere in a tree, what reshaping does to them, and trees of
one shape whose labels are related node by node. -/
namespace Markup.Tree

variable {α β : Type}

mutual
def subtrees : Tree α → List (Tree α)
  | leaf a => [leaf a]
  | node a ts => node a ts :: subtreesAll ts
def subtreesAll : List (Tree α) → List (Tree α)
  | [] => []
  | t :: ts => subtrees t ++ subtreesAll ts
end

@[simp] theorem subtrees_leaf (a : α) : (leaf a).subtrees = [leaf a] := by rw [subtrees]
@[simp] theorem subtreesAll_eq (ts : List (Tree α)) : subtreesAll ts = ts.flatMap subtrees := by
  induction ts with
  | nil => rw [subtreesAll, List.flatMap_nil]
  | cons t ts ih => rw [subtreesAll, List.flatMap_cons, ih]
@[simp] theorem subtrees_node (a : α) (ts : List (Tree α)) :
    (node a ts).subtrees = node a ts :: ts.flatMap subtrees := by
  rw [subtrees, subtreesAll_eq]

theorem self_mem_subtrees (t : Tree α) : t ∈ t.subtrees := by cases t <;> simp

theorem map_label_subtrees (t : Tree α) : t.subtrees.map label = t.preorder := by
  induction t using induct with
  | leaf a => simp
  | node a ts ih =>
    have hts : (ts.flatMap subtrees).map label = ts.flatMap preorder := by
      rw [List.map_flatMap]
      exact List.flatMap_congr ih
    simp [hts]

@[simp] theorem size_map (f : α → β) (t : Tree α) : (t.map f).size = t.size := by
  induction t using induct with
  | leaf a => simp
  | node a ts ih =>
    have hts : sizeAll (ts.map (map f)) = sizeAll ts := by
      induction ts with
      | nil => simp
      | cons t ts iht =>
        have ht := ih t List.mem_cons_self
        have hrest := iht fun u hu => ih u (List.mem_cons_of_mem _ hu)
        simp [ht, hrest]
    simp [hts]

section Collect

variable {ε : Type} (f : α → List (Tree α) → α × List (Tree α)) (g : α → List (Tree α) → List ε)

@[simp] theorem collect_leaf (a : α) : (leaf a).collect f g = [] := by rw [collect]
@[simp] theorem collectAll_eq (ts : List (Tree α)) :
    collectAll f g ts = ts.flatMap (collect f g) := by
  induction ts with
  | nil => rw [collectAll, List.flatMap_nil]
  | cons t ts ih => rw [collectAll, List.flatMap_cons, ih]
@[simp] theorem collect_node (a : α) (ts : List (Tree α)) :
    (node a ts).collect f g = ts.flatMap (collect f g) ++ g a (ts.map (reshape f)) := by
  rw [collect, collectAll_eq, reshapeAll_eq]

end Collect

/-- `P` holds of the tree and of all trees below it. -/
def Everywhere (P : Tree α → Prop) (t : Tree α) : Prop := ∀ u ∈ t.subtrees, P u

@[simp] theorem everywhere_leaf {P : Tree α → Prop} {a : α} :
    Everywhere P (leaf a) ↔ P (leaf a) := by
  simp [Everywhere]

@[simp] theorem everywhere_node {P : Tree α → Prop} {a : α} {ts : List (Tree α)} :
    Everywhere P (node a ts) ↔ P (node a ts) ∧ ∀ t ∈ ts, Everywhere P t := by
  simp only [Everywhere, subtrees_node, List.forall_mem_cons, List.mem_flatMap]
  constructor
  · rintro ⟨h, hts⟩
    exact ⟨h, fun t ht u hu => hts u ⟨t, ht, hu⟩⟩
  · rintro ⟨h, hts⟩
    exact ⟨h, fun u ⟨t, ht, hu⟩ => hts t ht u hu⟩

theorem Everywhere.self {P : Tree α → Prop} {t : Tree α} (h : Everywhere P t) : P t :=
  h t t.self_mem_subtrees

theorem Everywhere.mono {P Q : Tree α → Prop} {t : Tree α} (hPQ : ∀ u, P u → Q u)
    (h : Everywhere P t) : Everywhere Q t :=
  fun u hu => hPQ u (h u hu)

theorem Everywhere.of_mem_subtrees {P : Tree α → Prop} {t u : Tree α} (h : Everywhere P t)
    (hu : u ∈ t.subtrees) : Everywhere P u := by
  induction t using induct with
  | leaf a =>
    obtain rfl : u = leaf a := by simpa using hu
    exact h
  | node a ts ih =>
    rw [subtrees_node, List.mem_cons, List.mem_flatMap] at hu
    rcases hu with rfl | ⟨t, ht, hut⟩
    · exact h
    · exact ih t ht ((everywhere_node.mp h).2 t ht) hut

theorem Everywhere.of_mem_children {P : Tree α → Prop} {t u : Tree α} (h : Everywhere P t)
    (hu : u ∈ t.children) : Everywhere P u := by
  cases t with
  | leaf a => simp at hu
  | node a ts => exact (everywhere_node.mp h).2 u hu

theorem Everywhere.of_children {P : Tree α → Prop} {t : Tree α} (hself : P t)
    (hbelow : ∀ u ∈ t.children, Everywhere P u) : Everywhere P t := by
  cases t with
  | leaf a => exact everywhere_leaf.mpr hself
  | node a ts => exact everywhere_node.mpr ⟨hself, hbelow⟩

theorem Everywhere.below {P : Tree α → Prop} {t : Tree α}
    (h : Everywhere (fun u => ∀ v ∈ u.children, P v) t) : ∀ u ∈ t.children, Everywhere P u := by
  induction t using induct with
  | leaf a => simp
  | node a ts ih =>
    obtain ⟨hself, hts⟩ := everywhere_node.mp h
    exact fun u hu => .of_children (hself u hu) (ih u hu (hts u hu))

theorem children_setLabel (a : α) (t : Tree α) : (t.setLabel a).children = t.children := by
  cases t <;> rfl

theorem Everywhere.setLabel {P : Tree α → Prop} {a : α} {t : Tree α} (h : Everywhere P t)
    (ha : P (t.setLabel a)) : Everywhere P (t.setLabel a) := by
  cases t with
  | leaf b => exact everywhere_leaf.mpr ha
  | node b ts => exact everywhere_node.mpr ⟨ha, (everywhere_node.mp h).2⟩

theorem everywhere_label_iff {P : α → Prop} {t : Tree α} :
    Everywhere (fun u => P u.label) t ↔ ∀ a ∈ t.preorder, P a := by
  rw [← map_label_subtrees, List.forall_mem_map]
  rfl

/-- What holds everywhere after reshaping follows from what each reshaped child list shows. -/
theorem Everywhere.reshape {P Q : Tree α → Prop} {f : α → List (Tree α) → α × List (Tree α)}
    (hleaf : ∀ a, P (leaf a) → Q (leaf a))
    (hnode : ∀ a ts, P (node a ts) → (∀ t ∈ ts, Everywhere P t) →
      (∀ t ∈ ts.map (Tree.reshape f), Everywhere Q t) →
      Everywhere Q (node (f a (ts.map (Tree.reshape f))).1 (f a (ts.map (Tree.reshape f))).2))
    {t : Tree α} (h : Everywhere P t) : Everywhere Q (t.reshape f) := by
  induction t using induct with
  | leaf a => simpa using hleaf a h.self
  | node a ts ih =>
    obtain ⟨hself, hts⟩ := everywhere_node.mp h
    rw [reshape_node]
    apply hnode a ts hself hts
    intro u hu
    obtain ⟨t, ht, rfl⟩ := List.mem_map.mp hu
    exact ih t ht (hts t ht)

theorem label_reshape {f : α → List (Tree α) → α × List (Tree α)} (hf : ∀ a ts, (f a ts).1 = a)
    (t : Tree α) : (t.reshape f).label = t.label := by
  cases t <;> simp [hf]

theorem map_label_reshape {f : α → List (Tree α) → α × List (Tree α)}
    (hf : ∀ a ts, (f a ts).1 = a) (ts : List (Tree α)) :
    (ts.map (reshape f)).map label = ts.map label := by
  rw [List.map_map]
  exact List.map_congr_left fun t _ => label_reshape hf t

theorem reshape_eq_self {f : α → List (Tree α) → α × List (Tree α)} {t : Tree α}
    (h : Everywhere (fun u => f u.label u.children = (u.label, u.children)) t) :
    t.reshape f = t := by
  induction t using induct with
  | leaf a => rw [reshape_leaf]
  | node a ts ih =>
    obtain ⟨hself, hts⟩ := everywhere_node.mp h
    have hmap : ts.map (Tree.reshape f) = ts :=
      (List.map_congr_left fun t ht => ih t ht (hts t ht)).trans (List.map_id' ts)
    rw [label_node, children_node] at hself
    rw [reshape_node, hmap, hself]

/-- `u` is `t` with every child list, from the innermost ones on, exchanged for one that `R` allows.
It is asked with the label above the list and with the children as they are when their
turn comes. -/
inductive Rewrites (R : α → List (Tree α) → List (Tree α) → Prop) : Tree α → Tree α → Prop where
  | leaf (a : α) : Rewrites R (leaf a) (leaf a)
  | node {a : α} {ts us vs : List (Tree α)} :
      List.Forall₂ (Rewrites R) ts us → R a us vs → Rewrites R (node a ts) (node a vs)

section Rewrites

variable {P : Tree α → Prop} {R : α → List (Tree α) → List (Tree α) → Prop}
  {f : α → List (Tree α) → α × List (Tree α)} {t u : Tree α}

theorem rewrites_reshape (hlabel : ∀ a ts, (f a ts).1 = a)
    (hstep : ∀ a ts, P (node a ts) → (∀ t ∈ ts, Everywhere P t) →
      R a (ts.map (Tree.reshape f)) (f a (ts.map (Tree.reshape f))).2)
    (h : Everywhere P t) : Rewrites R t (t.reshape f) := by
  induction t using induct with
  | leaf a =>
    rw [reshape_leaf]
    exact .leaf a
  | node a ts ih =>
    obtain ⟨hself, hts⟩ := everywhere_node.mp h
    rw [reshape_node, hlabel]
    refine .node ?_ (hstep a ts hself hts)
    rw [List.forall₂_map_right_iff, List.forall₂_same]
    exact fun t ht => ih t ht (hts t ht)

/-- Where `R` leaves no choice, there is but one way to rewrite a tree. -/
theorem Rewrites.eq_reshape (hlabel : ∀ a ts, (f a ts).1 = a)
    (hstep : ∀ a ts vs, P (Tree.node a ts) → (∀ t ∈ ts, Everywhere P t) →
      R a (ts.map (Tree.reshape f)) vs → vs = (f a (ts.map (Tree.reshape f))).2)
    (h : Everywhere P t) (hu : Rewrites R t u) : u = t.reshape f := by
  induction t using induct generalizing u with
  | leaf a =>
    cases hu
    rw [reshape_leaf]
  | node a ts ih =>
    obtain ⟨hself, hts⟩ := everywhere_node.mp h
    cases hu with
    | @node _ _ us vs hus hvs =>
      have hunique : ∀ t ∈ ts, ∀ u, Rewrites R t u → t.reshape f = u :=
        fun t ht u hu => (ih t ht (hts t ht) hu).symm
      have hmap : ts.map (Tree.reshape f) = us := by
        rw [← List.forall₂_eq_eq_eq, List.forall₂_map_left_iff]
        exact ((List.forall₂_and_left _ _).mpr ⟨hunique, hus⟩).imp fun t u htu => htu.1 u htu.2
      rw [← hmap] at hvs
      rw [reshape_node, hlabel, hstep a ts vs hself hts hvs]

end Rewrites

mutual
/-- Trees of one shape whose labels are related by `R` node by node. -/
def Related (R : α → β → Prop) : Tree α → Tree β → Prop
  | leaf a, leaf b => R a b
  | node a ts, node b us => R a b ∧ RelatedAll R ts us
  | _, _ => False
def RelatedAll (R : α → β → Prop) : List (Tree α) → List (Tree β) → Prop
  | [], [] => True
  | t :: ts, u :: us => Related R t u ∧ RelatedAll R ts us
  | _, _ => False
end

@[simp] theorem related_leaf {R : α → β → Prop} {a : α} {b : β} :
    Related R (leaf a) (leaf b) ↔ R a b := by
  rw [Related]

@[simp] theorem relatedAll_iff {R : α → β → Prop} {ts : List (Tree α)} {us : List (Tree β)} :
    RelatedAll R ts us ↔ List.Forall₂ (Related R) ts us := by
  induction ts generalizing us with
  | nil => cases us <;> simp [RelatedAll]
  | cons t ts ih => cases us <;> simp [RelatedAll, ih]

@[simp] theorem related_node {R : α → β → Prop} {a : α} {b : β} {ts : List (Tree α)}
    {us : List (Tree β)} :
    Related R (node a ts) (node b us) ↔ R a b ∧ List.Forall₂ (Related R) ts us := by
  rw [Related, relatedAll_iff]

theorem Related.label {R : α → β → Prop} {t : Tree α} {u : Tree β} (h : Related R t u) :
    R t.label u.label := by
  cases t <;> cases u <;> simp_all [Related]

theorem Related.isSome_children? {R : α → β → Prop} {t : Tree α} {u : Tree β}
    (h : Related R t u) : t.children?.isSome = u.children?.isSome := by
  cases t <;> cases u <;> simp_all [Related]

theorem Related.children {R : α → β → Prop} {t : Tree α} {u : Tree β} (h : Related R t u) :
    List.Forall₂ (Related R) t.children u.children := by
  cases t with
  | leaf a => cases u <;> simp_all [Related]
  | node a ts =>
    cases u with
    | leaf b => simp [Related] at h
    | node b us => exact (related_node.mp h).2

theorem Related.labels {R : α → β → Prop} {t : Tree α} {u : Tree β} (h : Related R t u) :
    List.Forall₂ R (t.children.map Tree.label) (u.children.map Tree.label) := by
  rw [List.forall₂_map_left_iff, List.forall₂_map_right_iff]
  exact h.children.imp fun _ _ => Related.label

theorem exists_of_mem_forall₂ {R : α → β → Prop} {xs : List α} {ys : List β} {y : β}
    (h : List.Forall₂ R xs ys) (hy : y ∈ ys) : ∃ x ∈ xs, R x y := by
  induction h with
  | nil => simp at hy
  | cons hxy _ ih =>
    rcases List.mem_cons.mp hy with rfl | hy
    · exact ⟨_, List.mem_cons_self, hxy⟩
    · obtain ⟨x, hx, hR⟩ := ih hy
      exact ⟨x, List.mem_cons_of_mem _ hx, hR⟩

theorem forall₂_getElem? {R : α → β → Prop} {xs : List α} {ys : List β}
    (h : List.Forall₂ R xs ys) (k : Nat) : Option.Rel R xs[k]? ys[k]? := by
  induction h generalizing k with
  | nil => exact .none
  | cons hxy _ ih =>
    cases k with
    | zero => exact .some hxy
    | succ k => exact ih k

theorem forall₂_iff_eq_map {α β : Type} {R : α → β → Prop} {f : α → β} {xs : List α} {ys : List β}
    (h : ∀ x ∈ xs, ∀ y, R x y ↔ y = f x) : List.Forall₂ R xs ys ↔ ys = xs.map f := by
  induction xs generalizing ys with
  | nil => simp
  | cons x xs ih =>
    rw [List.forall_mem_cons] at h
    rw [List.forall₂_cons_left_iff, List.map_cons]
    constructor
    · rintro ⟨y, ys, hy, hys, rfl⟩
      rw [(h.1 y).mp hy, (ih h.2).mp hys]
    · rintro rfl
      exact ⟨_, _, (h.1 _).mpr rfl, (ih h.2).mpr rfl, rfl⟩

/-- Where each item of `xs` goes with one of `zs`, relating `xs` to `ys` comes to relating `ys` to
`zs`. -/
theorem forall₂_iff_of_forall₂ {α β γ : Type} {P : α → γ → Prop} {Q : α → β → Prop}
    {R : β → γ → Prop} {xs : List α} {ys : List β} {zs : List γ} (hP : List.Forall₂ P xs zs)
    (h : ∀ z ∈ zs, ∀ x y, P x z → (Q x y ↔ R y z)) :
    List.Forall₂ Q xs ys ↔ List.Forall₂ R ys zs := by
  induction hP generalizing ys with
  | nil => cases ys <;> simp
  | @cons x z xs zs hx _ ih =>
    rw [List.forall_mem_cons] at h
    cases ys with
    | nil => simp
    | cons y ys => rw [List.forall₂_cons, List.forall₂_cons, h.1 x y hx, ih h.2]

theorem Related.preorder {R : α → β → Prop} {t : Tree α} {u : Tree β} (h : Related R t u) :
    List.Forall₂ R t.preorder u.preorder := by
  induction t using Tree.induct generalizing u with
  | leaf a =>
    cases u with
    | leaf b => simpa using h
    | node b us => simp [Related] at h
  | node a ts ih =>
    cases u with
    | leaf b => simp [Related] at h
    | node b us =>
      obtain ⟨hab, hts⟩ := related_node.mp h
      rw [preorder_node, preorder_node]
      refine .cons hab ?_
      clear h
      induction hts with
      | nil => exact .nil
      | cons htu _ iht =>
        rw [List.flatMap_cons, List.flatMap_cons]
        apply List.rel_append (ih _ List.mem_cons_self htu)
        exact iht fun t ht => ih t (List.mem_cons_of_mem _ ht)

/-- What holds everywhere carries over to a related tree if it carries over at each node. -/
theorem Related.everywhere {R : α → β → Prop} {P : Tree α → Prop} {Q : Tree β → Prop}
    (hPQ : ∀ t u, Related R t u → P t → Q u) {t : Tree α} {u : Tree β} (hrel : Related R t u)
    (h : Everywhere P t) : Everywhere Q u := by
  induction t using Tree.induct generalizing u with
  | leaf a =>
    cases u with
    | leaf b => exact everywhere_leaf.mpr (hPQ _ _ hrel h.self)
    | node b us => simp [Related] at hrel
  | node a ts ih =>
    cases u with
    | leaf b => simp [Related] at hrel
    | node b us =>
      rw [everywhere_node] at h ⊢
      refine ⟨hPQ _ _ hrel h.1, ?_⟩
      intro v hv
      obtain ⟨t, ht, htv⟩ := exists_of_mem_forall₂ hrel.children hv
      exact ih t ht htv (h.2 t ht)

end Markup.Tree
