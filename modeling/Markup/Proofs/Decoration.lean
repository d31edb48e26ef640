import Markup.Proofs.Annotation
import Mathlib.Data.List.Chain

/-! Decorated documents. Every tree inside one is decorated too, and decorating a document again
changes nothing if every content is already what its surroundings make of it. -/
namespace Markup.Tree

/-- `P true` holds of the tree, and `P false` of all trees below it. -/
def Throughout {α : Type} (P : Bool → Tree α → Prop) (t : Tree α) : Prop :=
  P true t ∧ ∀ u ∈ t.children, Everywhere (P false) u

theorem Throughout.related {α β : Type} {R : α → β → Prop} {P : Bool → Tree α → Prop}
    {Q : Bool → Tree β → Prop} (hPQ : ∀ isTop t u, Related R t u → P isTop t → Q isTop u)
    {t : Tree α} {u : Tree β} (hrel : Related R t u) (h : Throughout P t) : Throughout Q u := by
  refine ⟨hPQ true t u hrel h.1, ?_⟩
  intro v hv
  obtain ⟨w, hw, hwv⟩ := exists_of_mem_forall₂ hrel.children hv
  exact hwv.everywhere (hPQ false) (h.2 w hw)

theorem Everywhere.throughout {α : Type} {P : Bool → Tree α → Prop} {t : Tree α}
    (h : Everywhere (fun u => ∀ isTop, P isTop u) t) : Throughout P t :=
  ⟨h.self true, fun _ hu => (h.of_mem_children hu).mono fun _ hv => hv false⟩

variable {g : Surroundings → Doc → Content} {a : Surroundings} {t v : Doc}

theorem exists_of_mem_subtrees_decorate (h : v ∈ (decorate g a t).subtrees) :
    v = decorate g a t ∨
      ∃ (b : Surroundings) (u : Doc), b.parent.isSome = true ∧ v = decorate g b u := by
  induction t using induct generalizing a with
  | leaf c =>
    rw [decorate_leaf, subtrees_leaf, List.mem_singleton] at h
    rw [decorate_leaf]
    exact .inl h
  | node c ts ih =>
    rw [decorate_node, subtrees_node, List.mem_cons, List.mem_flatMap] at h
    rw [decorate_node]
    rcases h with hv | ⟨w, hw, hvw⟩
    · exact .inl hv
    · obtain ⟨u, hu, b, hb, rfl⟩ := mem_decorateAll hw
      rcases ih u hu hvw with hv | hv
      · exact .inr ⟨b, u, by simp [hb], hv⟩
      · exact .inr hv

theorem everywhere_decorate {P : Doc → Prop} (h : ∀ a t, P (decorate g a t)) (a : Surroundings)
    (t : Doc) : Everywhere P (decorate g a t) := by
  intro v hv
  rcases exists_of_mem_subtrees_decorate hv with rfl | ⟨b, u, -, rfl⟩
  · exact h a t
  · exact h b u

theorem throughout_decorate {P : Bool → Doc → Prop} {d : Doc} (htop : P true (decorate g {} d))
    (h : ∀ a t, a.parent.isSome = true → P false (decorate g a t)) :
    Throughout P (decorate g {} d) := by
  refine ⟨htop, ?_⟩
  intro u hu v hv
  cases d with
  | leaf c => simp at hu
  | node c ts =>
    rw [decorate_node, children_node] at hu
    obtain ⟨t, -, b, hb, rfl⟩ := mem_decorateAll hu
    rcases exists_of_mem_subtrees_decorate hv with rfl | ⟨b', u, hb', rfl⟩
    · exact h b t (by simp [hb])
    · exact h b' u hb'

/-- The children of the node are what `g` makes of them already. -/
def Steady (g : Surroundings → Doc → Content) (isTop : Bool) (t : Doc) : Prop :=
  ∀ before u after, t.children = before ++ u :: after →
    g { parent := some t.label, isTop, prev := before.getLast?.map label
        next := after.head?.map label } u = u.label

theorem decorateAll_eq_self {parent : Content} {isTop : Bool} {ts : List Doc} (before : List Doc)
    (hts : ∀ t ∈ ts, ∀ a : Surroundings, a.parent = some parent → g a t = t.label →
      decorate g a t = t)
    (h : ∀ l u r, ts = l ++ u :: r →
      g { parent := some parent, isTop, prev := (before ++ l).getLast?.map label
          next := r.head?.map label } u = u.label) :
    decorateAll g parent isTop (before.getLast?.map label) ts = ts := by
  induction ts generalizing before with
  | nil => simp
  | cons t ts ih =>
    have hself := h [] t ts rfl
    rw [List.append_nil] at hself
    have hprev : some t.label = (before ++ [t]).getLast?.map label := by simp
    have hrest : decorateAll g parent isTop (some t.label) ts = ts := by
      rw [hprev]
      apply ih (before ++ [t]) fun u hu => hts u (List.mem_cons_of_mem _ hu)
      intro l u r hl
      rw [List.append_assoc]
      exact h (t :: l) u r (by rw [hl, List.cons_append])
    rw [decorateAll_cons, hts t List.mem_cons_self _ rfl hself, hrest]

theorem decorate_eq_self (hself : g a t = t.label) (h : Steady g a.parent.isNone t)
    (hbelow : ∀ u ∈ t.children, Everywhere (Steady g false) u) : decorate g a t = t := by
  induction t using induct generalizing a with
  | leaf c => rw [decorate_leaf, hself, label_leaf]
  | node c ts ih =>
    have hts : decorateAll g c a.parent.isNone none ts = ts := by
      apply decorateAll_eq_self [] _ h
      intro u hu b hb hgu
      refine ih u hu hgu ?_ fun v hv => (hbelow u hu).of_mem_children hv
      rw [hb]
      exact (hbelow u hu).self
    rw [decorate_node, hself, label_node, hts]

/-- Decorating changes nothing if all contents are what they are made already. -/
theorem Throughout.decorate_eq_self {d : Doc} (h : Throughout (Steady g) d)
    (hself : g {} d = d.label) : d.decorate g {} = d :=
  Tree.decorate_eq_self hself h.1 h.2

theorem Everywhere.decorate_eq_self {d : Doc} (h : Everywhere (fun t => ∀ a, g a t = t.label) d) :
    d.decorate g {} = d := by
  refine Throughout.decorate_eq_self ⟨?_, ?_⟩ (h.self {})
  · intro before u after hchildren
    exact (h.of_mem_children (by simp [hchildren])).self _
  · intro t ht v hv before u after hchildren
    exact (((h.of_mem_children ht).of_mem_subtrees hv).of_mem_children (by simp [hchildren])).self _

theorem isChain_neighbours {α : Type} {R : α → α → Prop} {before after : List (Tree α)}
    {u : Tree α} (h : ((before ++ u :: after).map label).IsChain R) :
    (∀ c ∈ before.getLast?.map label, R c u.label) ∧ ∀ c ∈ after.head?.map label, R u.label c := by
  rw [List.map_append, List.map_cons, List.isChain_append] at h
  obtain ⟨-, hrest, hjoint⟩ := h
  rw [List.isChain_cons] at hrest
  rw [← List.getLast?_map, ← List.head?_map]
  exact ⟨fun c hc => hjoint c hc u.label rfl, hrest.1⟩

end Markup.Tree
