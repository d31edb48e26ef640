import Markup.Proofs.Independence
import Markup.Proofs.Planting
import Mathlib.Data.List.Lex

/-! Comparing stores. A comparison finds no difference just if the roots have the same content and,
child by child, the same below them. Otherwise it finds the first place, in document order, at which
the stores do not look the same. -/
namespace Markup

namespace Tree

/-- What a comparison sees of the node at the end of a path. -/
def headAt? : Doc → List Nat → Option Head
  | d, [] => some d.head
  | d, k :: path => d.children[k]?.bind fun t => t.headAt? path

end Tree

def Node.head (n : Node) : Head := ⟨n.toContent, n.children.map List.length⟩

/-- The first place at which two documents differ, each given by what is seen at the end of a path.
Paths are ordered as the nodes are in a document: a node comes before what is below it, and what is
below one child before the next child. -/
structure FirstDifference (f g : List Nat → Option Head) (v : Divergence) : Prop where
  left : f v.path = some v.left
  right : g v.path = some v.right
  ne : v.left ≠ v.right
  earlier : ∀ path < v.path, f path = g path

section FirstDifference

variable {f g : List Nat → Option Head} {v w : Divergence}

theorem FirstDifference.not_lt (hv : FirstDifference f g v) (hw : FirstDifference f g w) :
    ¬ v.path < w.path := by
  intro hlt
  have hsame := hw.earlier _ hlt
  rw [hv.left, hv.right] at hsame
  exact hv.ne (Option.some.inj hsame)

theorem FirstDifference.unique (hv : FirstDifference f g v) (hw : FirstDifference f g w) :
    v = w := by
  obtain ⟨path, left, right⟩ := v
  obtain ⟨path', left', right'⟩ := w
  obtain rfl : path = path' := by
    rcases lt_trichotomy path path' with hlt | heq | hgt
    · exact absurd hlt (hv.not_lt hw)
    · exact heq
    · exact absurd hgt (hw.not_lt hv)
  obtain rfl : left = left' := Option.some.inj (hv.left.symm.trans hw.left)
  obtain rfl : right = right' := Option.some.inj (hv.right.symm.trans hw.right)
  rfl

end FirstDifference

namespace Tree

variable {d e : Doc} {ts us : List Doc} {v : Divergence}

/-- A difference between two lists is one between two children at the same position, and the
children before them are the same. -/
theorem diffAll_eq_some {i : Nat} (h : diffAll i ts us = some v) :
    ∃ k t u w, ts[k]? = some t ∧ us[k]? = some u ∧ diff t u = some w ∧ v = w.below (i + k) ∧
      ∀ j < k, ts[j]? = us[j]? := by
  induction ts generalizing i us with
  | nil => simp [diffAll] at h
  | cons t ts ih =>
    cases us with
    | nil => simp [diffAll] at h
    | cons u us =>
      rw [diffAll] at h
      cases hdiff : diff t u with
      | some w =>
        rw [hdiff] at h
        exact ⟨0, t, u, w, rfl, rfl, hdiff, (Option.some.inj h).symm, by simp⟩
      | none =>
        rw [hdiff] at h
        obtain ⟨k, t', u', w, ht', hu', hw, rfl, hbefore⟩ := ih h
        refine ⟨k + 1, t', u', w, ht', hu', hw, by rw [Nat.add_right_comm, Nat.add_assoc], ?_⟩
        intro j hj
        cases j with
        | zero => rw [(diff_eq_none_iff t u).mp hdiff]; rfl
        | succ j => exact hbefore j (Nat.lt_of_succ_lt_succ hj)

theorem firstDifference_below {k : Nat} {t u : Doc} (hhead : d.head = e.head)
    (ht : d.children[k]? = some t) (hu : e.children[k]? = some u)
    (hbefore : ∀ j < k, d.children[j]? = e.children[j]?)
    (h : FirstDifference t.headAt? u.headAt? v) :
    FirstDifference d.headAt? e.headAt? (v.below k) where
  left := by simpa [Divergence.below, headAt?, ht] using h.left
  right := by simpa [Divergence.below, headAt?, hu] using h.right
  ne := h.ne
  earlier path hlt := by
    cases path with
    | nil => rw [headAt?, headAt?, hhead]
    | cons j path =>
      rw [headAt?, headAt?]
      rcases List.cons_lt_cons_iff.mp hlt with hj | ⟨rfl, hpath⟩
      · rw [hbefore j hj]
      · rw [ht, hu]
        exact h.earlier path hpath

theorem diff_eq (d e : Doc) : diff d e =
    if d.head = e.head then diffAll 0 d.children e.children else some ⟨[], d.head, e.head⟩ := by
  cases d <;> simp [diff, diffAll]

theorem firstDifference_root (hne : d.head ≠ e.head) :
    FirstDifference d.headAt? e.headAt? ⟨[], d.head, e.head⟩ :=
  ⟨rfl, rfl, hne, fun path hlt => absurd hlt (List.not_lt_nil path)⟩

theorem firstDifference_of_children
    (ih : ∀ t ∈ d.children, ∀ u w, diff t u = some w → FirstDifference t.headAt? u.headAt? w)
    (h : diff d e = some v) : FirstDifference d.headAt? e.headAt? v := by
  rw [diff_eq] at h
  split at h
  case isTrue hhead =>
    obtain ⟨k, t, u, w, ht, hu, hw, rfl, hbefore⟩ := diffAll_eq_some h
    rw [Nat.zero_add]
    exact firstDifference_below hhead ht hu hbefore (ih t (List.mem_of_getElem? ht) u w hw)
  case isFalse hne =>
    obtain rfl := Option.some.inj h
    exact firstDifference_root hne

theorem firstDifference_of_diff (h : diff d e = some v) :
    FirstDifference d.headAt? e.headAt? v := by
  induction d using induct generalizing e v with
  | leaf c => exact firstDifference_of_children (by simp) h
  | node c ts ih => exact firstDifference_of_children (fun t ht u w hw => ih t ht hw) h

/-- A comparison reports the first difference and no other. -/
theorem diff_eq_some_iff : diff d e = some v ↔ FirstDifference d.headAt? e.headAt? v := by
  constructor
  · exact firstDifference_of_diff
  · intro hv
    cases hdiff : diff d e with
    | some w => rw [hv.unique (firstDifference_of_diff hdiff)]
    | none =>
      obtain rfl := (diff_eq_none_iff d e).mp hdiff
      exact absurd (Option.some.inj (hv.left.symm.trans hv.right)) hv.ne

end Tree

namespace Store

open Relation (ReflTransGen TransGen)

variable {s t : Store} {i j : NodeId} {d e : Doc} {ρ : NodeId → NodeId}

/-- The document stands at the node: contents and child lists are as the document has them. -/
inductive Shows (s : Store) : NodeId → Doc → Prop where
  | leaf {i : NodeId} {n : Node} (hn : s.node? i = some n) (hnone : n.children = none) :
      Shows s i (.leaf n.toContent)
  | node {i : NodeId} {n : Node} {ids : List NodeId} {ts : List Doc} (hn : s.node? i = some n)
      (hids : n.children = some ids) (h : List.Forall₂ (Shows s) ids ts) :
      Shows s i (.node n.toContent ts)

/-- The same stands at the node `i` of the one store and at the node `j` of the other: content,
presence of a child list, and what the children are. -/
inductive Coincide (s t : Store) : NodeId → NodeId → Prop where
  | leaf {i j : NodeId} {m n : Node} (hm : s.node? i = some m) (hn : t.node? j = some n)
      (hcontent : m.toContent = n.toContent) (hleft : m.children = none)
      (hright : n.children = none) : Coincide s t i j
  | node {i j : NodeId} {m n : Node} {is js : List NodeId} (hm : s.node? i = some m)
      (hn : t.node? j = some n) (hcontent : m.toContent = n.toContent)
      (hleft : m.children = some is) (hright : n.children = some js)
      (h : List.Forall₂ (Coincide s t) is js) : Coincide s t i j

/-- The store `t` has what is below the root of `s` under the numbers that `ρ` gives. Its links and
all other nodes are free. -/
structure Renumbers (s : Store) (ρ : NodeId → NodeId) (t : Store) : Prop where
  root : ρ 0 = 0
  node : ∀ i m, s.Reaches 0 i → s.node? i = some m → ∃ n, t.node? (ρ i) = some n ∧
    n.toContent = m.toContent ∧ n.children = m.children.map (List.map ρ)

/-- What a comparison sees of the node to which a path leads from `i`. -/
def headFrom? (s : Store) : NodeId → List Nat → Option Head
  | i, [] => (s.node? i).map Node.head
  | i, k :: path => do
    let n ← s.node? i
    let ids ← n.children
    s.headFrom? (← ids[k]?) path

/-- What a comparison sees of the node to which a path leads from the root. -/
def headAt? (s : Store) (path : List Nat) : Option Head := s.headFrom? 0 path

section Shows

theorem shows_of_unfoldFrom {height : Nat} {t : Tree (NodeId × Node)}
    (h : s.unfoldFrom height i = .ok t) : s.Shows i (t.map fun p => p.2.toContent) := by
  induction height generalizing i t with
  | zero => simp [unfoldFrom] at h
  | succ height ih =>
    obtain ⟨n, hn, ⟨hnone, rfl⟩ | ⟨ids, ts, hids, hts, rfl⟩⟩ := unfoldFrom_succ_eq_ok.mp h
    · rw [Tree.map_leaf]
      exact .leaf hn hnone
    · rw [Tree.map_node]
      refine .node hn hids (List.forall₂_map_right_iff.mpr ?_)
      exact hts.imp fun j u hu => ih hu

@[simp] theorem shows_leaf {c : Content} : s.Shows i (.leaf c) ↔
    ∃ n, s.node? i = some n ∧ n.toContent = c ∧ n.children = none := by
  constructor
  · rintro ⟨hn, hnone⟩
    exact ⟨_, hn, rfl, hnone⟩
  · rintro ⟨n, hn, rfl, hnone⟩
    exact .leaf hn hnone

@[simp] theorem shows_node {c : Content} {ts : List Doc} : s.Shows i (.node c ts) ↔
    ∃ n, s.node? i = some n ∧ n.toContent = c ∧
      ∃ ids, n.children = some ids ∧ List.Forall₂ s.Shows ids ts := by
  constructor
  · rintro (_ | ⟨hn, hids, hts⟩)
    exact ⟨_, hn, rfl, _, hids, hts⟩
  · rintro ⟨n, hn, rfl, ids, hids, hts⟩
    exact .node hn hids hts

theorem Shows.eq_leaf {n : Node} (h : s.Shows i d) (hn : s.node? i = some n)
    (hnone : n.children = none) : d = .leaf n.toContent := by
  cases h with
  | leaf hn' => rw [Option.some.inj (hn.symm.trans hn')]
  | node hn' hids =>
    rw [← Option.some.inj (hn.symm.trans hn'), hnone] at hids
    contradiction

theorem Shows.exists_node {n : Node} {ids : List NodeId} (h : s.Shows i d)
    (hn : s.node? i = some n) (hids : n.children = some ids) :
    ∃ ts, d = .node n.toContent ts ∧ List.Forall₂ s.Shows ids ts := by
  cases h with
  | leaf hn' hnone =>
    rw [← Option.some.inj (hn.symm.trans hn'), hids] at hnone
    contradiction
  | node hn' hids' hts =>
    obtain rfl := Option.some.inj (hn.symm.trans hn')
    obtain rfl := Option.some.inj (hids.symm.trans hids')
    exact ⟨_, rfl, hts⟩

theorem Shows.iff_eq (hd : s.Shows i d) : s.Shows i e ↔ e = d := by
  refine ⟨fun he => ?_, fun heq => heq ▸ hd⟩
  induction d using Tree.induct generalizing i e with
  | leaf c =>
    obtain ⟨n, hn, rfl, hnone⟩ := shows_leaf.mp hd
    exact he.eq_leaf hn hnone
  | node c ts ih =>
    obtain ⟨n, hn, rfl, ids, hids, hts⟩ := shows_node.mp hd
    obtain ⟨us, rfl, hus⟩ := he.exists_node hn hids
    have hall := (Tree.forall₂_iff_of_forall₂ (R := Eq) hts fun t ht j u hj =>
      ⟨ih t ht hj, fun heq => heq ▸ hj⟩).mp hus
    rw [List.forall₂_eq_eq_eq] at hall
    rw [hall]

theorem Shows.child (h : s.Shows i d) (hij : s.Lists i j) : ∃ e ∈ d.children, s.Shows j e := by
  obtain ⟨n, ids, hn, hids, hj⟩ := hij
  obtain ⟨ts, rfl, hts⟩ := h.exists_node hn hids
  exact Tree.exists_of_mem_forall₂ hts.flip hj

theorem Shows.size_lt (h : s.Shows i d) (hij : TransGen s.Lists i j) :
    ∃ e, s.Shows j e ∧ e.size < d.size := by
  induction hij with
  | single hij =>
    obtain ⟨e, hmem, he⟩ := h.child hij
    exact ⟨e, he, Tree.size_lt_of_mem_children hmem⟩
  | tail _ hjk ih =>
    obtain ⟨e, he, hlt⟩ := ih
    obtain ⟨e', hmem, he'⟩ := he.child hjk
    exact ⟨e', he', (Tree.size_lt_of_mem_children hmem).trans hlt⟩

theorem Shows.rooted (h : s.Shows 0 d) : s.Rooted := by
  have hbelow : ∀ i, s.Reaches 0 i → ∃ e, s.Shows i e := by
    intro i hi
    rcases Relation.reflTransGen_iff_eq_or_transGen.mp hi with rfl | hi
    · exact ⟨d, h⟩
    · obtain ⟨e, he, -⟩ := h.size_lt hi
      exact ⟨e, he⟩
  refine ⟨fun i hi => ?_, fun i hi hcircle => ?_⟩
  · obtain ⟨e, ⟨hn, -⟩ | ⟨hn, -, -⟩⟩ := hbelow i hi
    · exact lt_size_of_node? hn
    · exact lt_size_of_node? hn
  · obtain ⟨e, he⟩ := hbelow i hi
    -- Further round the circle the document is smaller, yet it is the one at the same node.
    obtain ⟨e', he', hlt⟩ := he.size_lt hcircle
    rw [he.iff_eq.mp he'] at hlt
    exact Nat.lt_irrefl _ hlt

theorem shows_iff_toDoc : s.Shows 0 d ↔ s.toDoc = .ok d := by
  have hshows : ∀ {e}, s.toDoc = .ok e → s.Shows 0 e := by
    intro e he
    obtain ⟨t, ht, rfl⟩ := exists_unfold_of_toDoc he
    exact shows_of_unfoldFrom ht
  refine ⟨fun h => ?_, hshows⟩
  obtain ⟨e, he⟩ := exists_toDoc_iff_rooted.mpr h.rooted
  rw [he, h.iff_eq.mp (hshows he)]

theorem Shows.headFrom? (h : s.Shows i d) (path : List Nat) :
    s.headFrom? i path = d.headAt? path := by
  induction path generalizing i d with
  | nil =>
    cases h with
    | leaf hn hnone => simp [Store.headFrom?, hn, Node.head, hnone, Tree.headAt?, Tree.head]
    | node hn hids hts =>
      simp [Store.headFrom?, hn, Node.head, hids, Tree.headAt?, Tree.head, hts.length_eq]
  | cons k path ih =>
    cases h with
    | leaf hn hnone => simp [Store.headFrom?, hn, hnone, Tree.headAt?]
    | @node _ n ids ts hn hids hts =>
      have hk := Tree.forall₂_getElem? hts k
      have hleft : s.headFrom? i (k :: path) = ids[k]?.bind fun j => s.headFrom? j path := by
        simp [Store.headFrom?, hn, hids]
      rw [hleft, Tree.headAt?, Tree.children_node]
      generalize ids[k]? = child, ts[k]? = below at hk ⊢
      cases hk with
      | none => rfl
      | some hj => exact ih hj

theorem headAt?_of_toDoc (h : s.toDoc = .ok d) : s.headAt? = d.headAt? := by
  funext path
  exact (shows_iff_toDoc.mpr h).headFrom? path

end Shows

/-- Where a document stands in the one store, the same stands in the other just if the document
does. -/
theorem Shows.coincide_iff (h : s.Shows i d) : s.Coincide t i j ↔ t.Shows j d := by
  -- `Coincide` recurs inside lists, so the induction is on the document at `i`.
  induction d using Tree.induct generalizing i j with
  | leaf c =>
    obtain ⟨m, hm, rfl, hnone⟩ := shows_leaf.mp h
    rw [shows_leaf]
    constructor
    · rintro (⟨hm', hn, hcontent, -, hright⟩ | ⟨hm', -, -, hleft, -, -⟩)
      · obtain rfl := Option.some.inj (hm.symm.trans hm')
        exact ⟨_, hn, hcontent.symm, hright⟩
      · rw [← Option.some.inj (hm.symm.trans hm'), hnone] at hleft
        contradiction
    · rintro ⟨n, hn, hcontent, hright⟩
      exact .leaf hm hn hcontent.symm hnone hright
  | node c ts ih =>
    obtain ⟨m, hm, rfl, ids, hids, hts⟩ := shows_node.mp h
    have hall : ∀ js, List.Forall₂ (s.Coincide t) ids js ↔ List.Forall₂ t.Shows js ts := fun js =>
      Tree.forall₂_iff_of_forall₂ hts fun u hu k l hk => ih u hu hk
    rw [shows_node]
    constructor
    · rintro (⟨hm', -, -, hleft, -⟩ | ⟨hm', hn, hcontent, hleft, hright, hjs⟩)
      · rw [← Option.some.inj (hm.symm.trans hm'), hids] at hleft
        contradiction
      · obtain rfl := Option.some.inj (hm.symm.trans hm')
        obtain rfl := Option.some.inj (hids.symm.trans hleft)
        exact ⟨_, hn, hcontent.symm, _, hright, (hall _).mp hjs⟩
    · rintro ⟨n, hn, hcontent, js, hright, hjs⟩
      exact .node hm hn hcontent.symm hids hright ((hall js).mpr hjs)

theorem Renumbers.coincide (h : s.Renumbers ρ t) (hd : s.Shows i d) (hi : s.Reaches 0 i) :
    s.Coincide t i (ρ i) := by
  induction d using Tree.induct generalizing i with
  | leaf c =>
    obtain ⟨m, hm, -, hnone⟩ := shows_leaf.mp hd
    obtain ⟨n, hn, hcontent, hchildren⟩ := h.node i m hi hm
    exact .leaf hm hn hcontent.symm hnone (by rw [hchildren, hnone]; rfl)
  | node c ts ih =>
    obtain ⟨m, hm, -, ids, hids, hts⟩ := shows_node.mp hd
    obtain ⟨n, hn, hcontent, hchildren⟩ := h.node i m hi hm
    refine .node hm hn hcontent.symm hids (by rw [hchildren, hids]; rfl) ?_
    rw [List.forall₂_map_right_iff, List.forall₂_same]
    intro j hj
    have hij : s.Lists i j := ⟨m, ids, hm, hids, hj⟩
    obtain ⟨e, he, hje⟩ := hd.child hij
    exact ih e he hje (hi.tail hij)

theorem Renumbers.toDoc (h : s.Renumbers ρ t) (hd : s.toDoc = .ok d) : t.toDoc = .ok d := by
  have hshows := shows_iff_toDoc.mpr hd
  rw [← shows_iff_toDoc, ← hshows.coincide_iff]
  simpa [h.root] using h.coincide hshows .refl

theorem diff_eq_none_iff (hd : s.toDoc = .ok d) (he : t.toDoc = .ok e) :
    s.diff t = .ok none ↔ d = e := by
  rw [diff_of_toDoc hd he, Except.ok.injEq, Tree.diff_eq_none_iff]

/-- Comparing two stores gives an answer. It is that there is no difference just if the same stands
below both roots, and otherwise the first difference in document order. Having no difference is an
equivalence, and neither the numbers of the nodes nor links or detached nodes count. -/
theorem diff_finds_first_difference (s t : Store) (hs : s.Rooted) (ht : t.Rooted) :
    (∃ r, s.diff t = .ok r) ∧ (s.diff t = .ok none ↔ s.Coincide t 0 0) ∧
      (∀ v, s.diff t = .ok (some v) ↔ FirstDifference s.headAt? t.headAt? v) ∧
      s.diff s = .ok none ∧ (s.diff t = .ok none → t.diff s = .ok none) ∧
      (∀ u : Store, u.Rooted → s.diff t = .ok none → t.diff u = .ok none → s.diff u = .ok none) ∧
      ∀ ρ s', s.Renumbers ρ s' → ∀ u, s'.diff u = s.diff u ∧ u.diff s' = u.diff s := by
  obtain ⟨d, hd⟩ := exists_toDoc_iff_rooted.mpr hs
  obtain ⟨e, he⟩ := exists_toDoc_iff_rooted.mpr ht
  refine ⟨⟨_, diff_of_toDoc hd he⟩, ?_, ?_, ?_, ?_, ?_, ?_⟩
  · rw [diff_eq_none_iff hd he, (shows_iff_toDoc.mpr hd).coincide_iff,
      shows_iff_toDoc, he, Except.ok.injEq]
    exact eq_comm
  · intro v
    rw [diff_of_toDoc hd he, Except.ok.injEq, Tree.diff_eq_some_iff,
      headAt?_of_toDoc hd, headAt?_of_toDoc he]
  · exact (diff_eq_none_iff hd hd).mpr rfl
  · rw [diff_eq_none_iff hd he, diff_eq_none_iff he hd]
    exact Eq.symm
  · intro u hu
    obtain ⟨f, hf⟩ := exists_toDoc_iff_rooted.mpr hu
    rw [diff_eq_none_iff hd he, diff_eq_none_iff he hf, diff_eq_none_iff hd hf]
    exact Eq.trans
  · intro ρ s' h u
    have hd' := h.toDoc hd
    rw [diff, diff, diff, diff, hd, hd']
    exact ⟨rfl, rfl⟩

/-- The twins again, the second one with another text. -/
def unlikeDoc : Doc :=
  .node { kind := .root }
    [.node twin [.leaf twinText], .node twin [.leaf { twinText with kind := .text "x" }]]

def tangle : NodeId → NodeId
  | 0 => 0
  | 1 => 3
  | 3 => 3
  | _ => 1

theorem diff_finds_first_difference_tangledStore :
    tangledStore.Rooted ∧ (ofDoc twinDoc).Rooted ∧ (ofDoc unlikeDoc).Rooted ∧
      tangledStore.Coincide (ofDoc twinDoc) 0 0 ∧
      (ofDoc twinDoc).diff tangledStore = .ok none ∧
      FirstDifference tangledStore.headAt? (ofDoc unlikeDoc).headAt?
        ⟨[1, 0], ⟨twinText, none⟩, ⟨{ twinText with kind := .text "x" }, none⟩⟩ ∧
      (ofDoc twinDoc).Renumbers tangle tangledStore ∧
      tangledStore.diff (ofDoc unlikeDoc) = (ofDoc twinDoc).diff (ofDoc unlikeDoc) := by
  have htangled : tangledStore.toDoc = .ok twinDoc := rfl
  have htwin := toDoc_ofDoc twinDoc
  have hunlike := toDoc_ofDoc unlikeDoc
  have hrooted := exists_toDoc_iff_rooted.mp ⟨_, htangled⟩
  have hrooted' := exists_toDoc_iff_rooted.mp ⟨_, htwin⟩
  have hrooted'' := exists_toDoc_iff_rooted.mp ⟨_, hunlike⟩
  have hnone : tangledStore.diff (ofDoc twinDoc) = .ok none :=
    (diff_eq_none_iff htangled htwin).mpr rfl
  have hsome : tangledStore.diff (ofDoc unlikeDoc) = .ok (some
      ⟨[1, 0], ⟨twinText, none⟩, ⟨{ twinText with kind := .text "x" }, none⟩⟩) := by
    rw [diff_of_toDoc htangled hunlike]
    decide
  have hrenumbers : (ofDoc twinDoc).Renumbers tangle tangledStore := by
    refine ⟨rfl, fun i m _ hm => ?_⟩
    have hcases : ∀ k : Nat, k < 5 → k = 0 ∨ k = 1 ∨ k = 2 ∨ k = 3 ∨ k = 4 := by omega
    rcases hcases i (lt_size_of_node? hm) with rfl | rfl | rfl | rfl | rfl <;>
      (obtain rfl := Option.some.inj hm; exact ⟨_, rfl, rfl, rfl⟩)
  obtain ⟨-, hcoincide, -, -, hsymm, -, -⟩ :=
    diff_finds_first_difference tangledStore (ofDoc twinDoc) hrooted hrooted'
  obtain ⟨-, -, hfirst, -⟩ :=
    diff_finds_first_difference tangledStore (ofDoc unlikeDoc) hrooted hrooted''
  obtain ⟨-, -, -, -, -, -, hfree⟩ :=
    diff_finds_first_difference (ofDoc twinDoc) tangledStore hrooted' hrooted
  exact ⟨hrooted, hrooted', hrooted'', hcoincide.mp hnone, hsymm hnone, (hfirst _).mp hsome,
    hrenumbers, (hfree _ _ hrenumbers _).1⟩

end Store

end Markup
