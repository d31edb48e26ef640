import Markup.Proofs.Hanging
import Markup.Proofs.Linking

/-! Well-formed stores: what is listed below the root forms a tree, and links agree with it. Built
stores are well formed, and so are stores laid out from documents, where nothing is detached and
nodes are numbered in document order. -/
namespace Markup.Store

variable {s : Store} {id : NodeId} {n : Node} {d : Doc}

/-- A store whose links agree with its child lists. What is listed below the root forms a tree. -/
structure WellFormed (s : Store) : Prop where
  root : ∃ n, s.node? 0 = some n ∧ n.kind = .root
  rootFree : s.Placed 0 none none none
  planted : s.Planted 0
  linked : s.Linked
  sorted : s.Sorted

/-- A store that holds a document and nothing else, numbered in document order. -/
structure LaidOut (s : Store) : Prop where
  dfs : s.dfs = .ok (List.range s.size)
  attached : ∀ id, s.Reaches 0 id ↔ id < s.size
  planted : s.Planted 0
  linked : s.Linked
  rootFree : s.Placed 0 none none none

theorem Hung.wellFormed (h : s.Hung) (hsorted : s.Sorted) : s.WellFormed where
  root := h.root
  rootFree := by
    obtain ⟨n, hn, -⟩ := h.root
    exact h.unlisted 0 n hn h.rootFree
  planted := h.planted
  linked := h.linked
  sorted := hsorted

theorem Built.wellFormed (h : s.Built) : s.WellFormed := h.hung.wellFormed h.sorted

section Layout

theorem getLast?_cons_or {α : Type} (a : α) (l : List α) (prev : Option α) :
    (a :: l).getLast?.or prev = l.getLast?.or (some a) := by
  rw [List.getLast?_cons]
  cases l.getLast? <;> rfl

/-- Documents that stand side by side have the links that their places give them. -/
theorem SitsAll.placed {parent c : NodeId} {prev : Option NodeId} {ts : List Doc}
    {before after : List NodeId} (h : s.SitsAll parent prev id ts)
    (hsplit : rootIds id ts = before ++ c :: after) :
    s.Placed c (some parent) (before.getLast?.or prev) after.head? := by
  induction ts generalizing id prev before with
  | nil => simp [rootIds] at hsplit
  | cons t ts ih =>
    obtain ⟨ht, hts⟩ := sitsAll_cons.mp h
    rw [rootIds] at hsplit
    cases before with
    | nil =>
      obtain ⟨rfl, rfl⟩ := List.cons.inj hsplit
      exact ⟨_, ht.node?, rfl, rfl, head?_rootIds.symm⟩
    | cons i before =>
      obtain ⟨rfl, htail⟩ := List.cons.inj hsplit
      have hplaced := ih hts htail
      rwa [getLast?_cons_or]

theorem linked_ofDoc (d : Doc) : (ofDoc d).Linked := by
  intro i n before c after hn hids
  obtain ⟨t, -, parent, prev, next, hsits⟩ := exists_sits_of_node?_ofDoc hn
  obtain rfl := Option.some.inj (hn.symm.trans hsits.node?)
  have hplaced := hsits.children.placed (rootIds_children hids)
  rwa [Option.or_none] at hplaced

theorem planted_ofDoc (d : Doc) : (ofDoc d).Planted 0 := by
  obtain ⟨u, hu, -⟩ := unfold_ofDoc d
  have hids := Except.ok.inj ((dfs_of_unfold hu).symm.trans (dfs_ofDoc d))
  exact planted_of_unfoldFrom hu (hids ▸ List.nodup_range)

theorem reaches_ofDoc_iff (d : Doc) : (ofDoc d).Reaches 0 id ↔ id < (ofDoc d).size := by
  constructor
  · exact (planted_ofDoc d).allocated id
  · intro hid
    obtain ⟨t, ht, hlabel, hnodup⟩ := (planted_ofDoc d).exists_bears
    have hids := Except.ok.inj ((ht.toDoc hlabel hnodup).2.symm.trans (dfs_ofDoc d))
    rw [size_ofDoc] at hid
    rw [← hlabel]
    exact ht.reaches id (by rwa [hids, List.mem_range])

theorem laidOut_ofDoc (d : Doc) : (ofDoc d).LaidOut where
  dfs := by rw [size_ofDoc, dfs_ofDoc]
  attached _ := reaches_ofDoc_iff d
  planted := planted_ofDoc d
  linked := linked_ofDoc d
  rootFree := ⟨_, (sits_ofDoc d).node?, rfl, rfl, rfl⟩

theorem sorted_ofDoc (h : Tree.Everywhere Shaped d) : (ofDoc d).Sorted := by
  intro i n hn
  obtain ⟨t, ht, hcontent, hchildren, -⟩ := node?_ofDoc hn
  rw [hchildren, Option.isSome_map, hcontent]
  exact h t ht

theorem wellFormed_ofDoc (h : Tree.Everywhere Shaped d) (hroot : d.label.kind = .root) :
    (ofDoc d).WellFormed where
  root := ⟨_, (sits_ofDoc d).node?, hroot⟩
  rootFree := (laidOut_ofDoc d).rootFree
  planted := planted_ofDoc d
  linked := linked_ofDoc d
  sorted := sorted_ofDoc h

end Layout

theorem WellFormed.exists_toDoc (h : s.WellFormed) : ∃ d ids, s.toDoc = .ok d ∧
    d.label.kind = .root ∧ Tree.Everywhere Shaped d ∧ s.dfs = .ok ids ∧
    ∀ i ∈ ids, s.Reaches 0 i := by
  obtain ⟨t, ht, hlabel, hnodup⟩ := h.planted.exists_bears
  obtain ⟨hdoc, hdfs⟩ := ht.toDoc hlabel hnodup
  refine ⟨_, _, hdoc, ?_, ?_, hdfs, ?_⟩
  · obtain ⟨n, hn, hcontent, -⟩ := ht.self
    obtain ⟨m, hm, hkind⟩ := h.root
    rw [hlabel] at hn
    obtain rfl : n = m := Option.some.inj (hn.symm.trans hm)
    rw [Tree.label_map, ← hcontent, hkind]
  · exact (h.sorted.everywhere_toDoc (P := fun _ => True) hdoc fun _ _ _ => trivial).mono
      fun _ ht => ht.1
  · rw [← hlabel]
    exact ht.reaches

theorem WellFormed.reaches_link (h : s.WellFormed) (hid : s.Reaches 0 id)
    (hn : s.node? id = some n) {i : NodeId}
    (hi : n.parent = some i ∨ n.prev = some i ∨ n.next = some i) : s.Reaches 0 i := by
  rcases Relation.ReflTransGen.cases_tail hid with rfl | ⟨k, hk, hlists⟩
  · obtain ⟨m, hm, hparent, hprev, hnext⟩ := h.rootFree
    obtain rfl : n = m := Option.some.inj (hn.symm.trans hm)
    simp [hparent, hprev, hnext] at hi
  · rcases h.linked.link_cases hlists hn hi with rfl | hi
    · exact hk
    · exact hk.tail hi

theorem exists_linked {link : Option NodeId} (hlink : ∀ i, link = some i → i < s.size) :
    ∃ c, s.linked link = .ok c := by
  cases link with
  | none => exact ⟨none, rfl⟩
  | some i =>
    obtain ⟨n, hn⟩ := exists_node?_of_lt (hlink i rfl)
    exact ⟨_, linked_eq_ok hn⟩

theorem WellFormed.exists_linked (h : s.WellFormed) {link : Option NodeId}
    (hlink : ∀ i, link = some i → s.Reaches 0 i) : ∃ c, s.linked link = .ok c :=
  Store.exists_linked fun i hi => h.planted.allocated i (hlink i hi)

theorem WellFormed.exists_place (h : s.WellFormed) (hid : s.Reaches 0 id) :
    ∃ p, s.place id = .ok p := by
  obtain ⟨n, hn⟩ := exists_node?_of_lt (h.planted.allocated id hid)
  obtain ⟨a, ha⟩ := h.exists_linked fun i hi => h.reaches_link hid hn (.inl hi)
  obtain ⟨b, hb⟩ := h.exists_linked fun i hi => h.reaches_link hid hn (.inr (.inl hi))
  obtain ⟨c, hc⟩ := h.exists_linked fun i hi => h.reaches_link hid hn (.inr (.inr hi))
  exact ⟨_, place_eq_ok hn ha hb hc⟩

end Markup.Store
