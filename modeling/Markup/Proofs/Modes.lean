import Markup.Proofs.Freshness
import Markup.Proofs.Refusal

/-! The modes without styles. Where every node has the same display, tags, styles and dialects have
no say in which whitespace shows: all of it does between inline nodes, and between blocks only what
stands in running text or in a node that keeps its line structure. -/
namespace Markup

open Annotate Content Markup.Tree

/-- The display that the mode gives to every node, whatever the node is. -/
def Sensitivity.display? : Sensitivity → Option Css.Display
  | css => none
  | strict => some .inline
  | ignore => some .block

def Kind.Undirected (k : Kind) : Prop := ∀ value, k = .comment value → directive? value = none

theorem Kind.lasting_undirected : Lasting Undirected where
  root value hkind := by simp at hkind
  text v value hkind := by simp at hkind
  interpolation value hkind := by simp at hkind
  similar h hk := by
    rcases h with rfl | ⟨x, y, rfl, rfl⟩ | ⟨e, closing, rfl, rfl⟩
    · exact hk
    · intro value hkind
      simp at hkind
    · intro value hkind
      simp at hkind
  guarded openTag condition _ value hkind := by simp at hkind

theorem Kind.Undirected.requested? {c : Content} (h : c.kind.Undirected) :
    Annotate.requested? c = none := by
  rw [Annotate.requested?]
  split
  case h_1 value hkind => exact h value hkind
  case h_2 => rfl

theorem Store.throughout_of_reaches {Q : Kind → Prop} {s : Store} {d : Doc} (h : s.toDoc = .ok d)
    (hQ : ∀ id n, s.Reaches 0 id → s.node? id = some n → Q n.kind) : Markup.Throughout Q d :=
  everywhere_label_of_reaches (P := fun c : Content => Q c.kind) h hQ

section Uniform

variable {o : Options} {isTop : Bool} {t d : Doc} {display : Css.Display}

theorem Annotate.displayOf_of_mode {c : Content} {prev : Option Content}
    (hmode : o.sensitivity.display? = some display) (hprev : prev.bind requested? = none) :
    displayOf o c isTop prev = display := by
  rw [displayOf, hprev]
  cases hs : o.sensitivity <;> simp_all [Sensitivity.display?]

/-- Where no comment asks for a display, the children of a node have that of the mode. -/
theorem Displayed.display_children (h : Displayed o isTop t)
    (hmode : o.sensitivity.display? = some display)
    (hkinds : ∀ u ∈ t.children, u.label.kind.Undirected) :
    ∀ u ∈ t.children, u.label.display = display := by
  intro u hu
  obtain ⟨before, after, hsplit⟩ := List.append_of_mem hu
  have hdisplay := congrArg Content.display (h.steady before u after hsplit)
  have hprev : (before.getLast?.map label).bind requested? = none := by
    cases hlast : before.getLast? with
    | none => rfl
    | some v =>
      have hv : v ∈ t.children := hsplit ▸ List.mem_append_left _ (List.mem_of_getLast? hlast)
      exact (hkinds v hv).requested?
  rw [← hdisplay, displayContent, Content.display, Option.getD_some, displayOf_of_mode hmode hprev]

/-- In a prepared document without such comments every node has the display of the mode. -/
theorem display_applyAll (hmode : o.sensitivity.display? = some display)
    (hd : Markup.Throughout Kind.Undirected d) :
    Everywhere (fun t => t.label.display = display) (Pass.applyAll o Pass.all d) := by
  have hkinds := Pass.lasting_applyAll Kind.lasting_undirected o Pass.all hd
  obtain ⟨hroot, hbelow⟩ := displayed_applyAll o d
  generalize Pass.applyAll o Pass.all d = out at hkinds hroot hbelow ⊢
  have hself : out.label.display = display := by
    rw [Content.display, hroot.whole rfl, Option.getD_some, displayOf_of_mode hmode rfl]
  have hundirected : ∀ t ∈ out.subtrees, ∀ u ∈ t.children, u.label.kind.Undirected :=
    fun t ht u hu => ((hkinds.of_mem_subtrees ht).of_mem_children hu).self
  cases out with
  | leaf c => exact everywhere_leaf.mpr hself
  | node c ts =>
    have hchildren :
        Everywhere (fun t => ∀ u ∈ t.children, u.label.display = display) (.node c ts) := by
      refine everywhere_node.mpr ⟨?_, ?_⟩
      · exact hroot.display_children hmode (hundirected _ (self_mem_subtrees _))
      · intro u hu t ht
        apply (hbelow u hu t ht).display_children hmode (hundirected t _)
        rw [subtrees_node]
        exact List.mem_cons_of_mem _ (List.mem_flatMap.mpr ⟨u, hu, ht⟩)
    exact everywhere_node.mpr ⟨hself, hchildren.below⟩

end Uniform

theorem Store.exists_neighbours_ofDoc {d : Doc} {id a b : NodeId} {n : Node}
    {before after : List NodeId} (hn : (ofDoc d).node? id = some n)
    (hids : n.children = some (before ++ a :: b :: after)) :
    ∃ t ∈ d.subtrees, ∃ ts₁ v w ts₂ x y, t.label = n.toContent ∧ t.children = ts₁ ++ v :: w :: ts₂ ∧
      (ofDoc d).node? a = some x ∧ x.toContent = v.label ∧
      (ofDoc d).node? b = some y ∧ y.toContent = w.label := by
  obtain ⟨t, ht, parent, prev, next, hsits⟩ := exists_sits_of_node?_ofDoc hn
  have hnode := Option.some.inj (hn.symm.trans hsits.node?)
  rw [hnode] at hids
  obtain ⟨ts₁, v, w, ts₂, hchildren, ⟨x, -, hx, hxv, -⟩, y, -, hy, hyw, -⟩ :=
    hsits.children.neighbours hn ⟨none, rfl⟩ (rootIds_children hids)
  exact ⟨t, ht, ts₁, v, w, ts₂, x, y, by rw [hnode], hchildren, hx, hxv, hy, hyw⟩

/-- Where no comment asks for a display, the mode alone decides between neighbours: in strict mode
the whitespace between them shows, and in ignore mode it shows just if their parent keeps
indentation or both are running text. -/
theorem modes_decide_boundaries (o : Options) (s out : Store)
    (hplain : ∀ id n value, s.Reaches 0 id → s.node? id = some n → n.kind = .comment value →
      directive? value = none)
    (h : prepare o s = .ok out) :
    ∀ id n before a b after, out.node? id = some n → n.children = some (before ++ a :: b :: after) →
      ∃ x y shows, out.node? a = some x ∧ out.node? b = some y ∧
        x.notes.isTrailingSensitive = some shows ∧ y.notes.isLeadingSensitive = some shows ∧
        (o.sensitivity = .strict → shows = true) ∧
        (o.sensitivity = .ignore → (shows = true ↔
          n.keepsIndentation = true ∨ x.kind.isTextLike = true ∧ y.kind.isTextLike = true)) := by
  intro id n before a b after hn hids
  obtain ⟨d, hd, rfl⟩ := prepare_eq_ok h
  have hundirected : Markup.Throughout Kind.Undirected d :=
    Store.throughout_of_reaches hd fun id n hid hn value => hplain id n value hid hn
  obtain ⟨t, ht, ts₁, v, w, ts₂, x, y, hlabel, hchildren, hx, hxv, hy, hyw⟩ :=
    Store.exists_neighbours_ofDoc hn hids
  have hagree : Agree t.label v.label w.label := by
    have hchain := agreed_applyAll o d t ht
    rw [Agreed, hchildren, List.map_append, List.map_cons, List.map_cons] at hchain
    exact (List.isChain_append_cons_cons.mp hchain).2.1
  have hdisplay : ∀ display, o.sensitivity.display? = some display →
      t.label.display = display ∧ v.label.display = display ∧ w.label.display = display := by
    intro display hmode
    have heverywhere := (display_applyAll hmode hundirected).of_mem_subtrees ht
    exact ⟨heverywhere.self, (heverywhere.of_mem_children (by simp [hchildren])).self,
      (heverywhere.of_mem_children (by simp [hchildren])).self⟩
  refine ⟨x, y, keepsBetween (some t.label) v.label w.label, hx, hy, ?_, ?_, ?_, ?_⟩
  · rw [hxv, hagree.trailing]
  · rw [hyw, hagree.leading]
  · intro hmode
    obtain ⟨-, hv, hw⟩ := hdisplay .inline (by rw [hmode]; rfl)
    rw [keepsBetween_eq, hv, hw]
    simp [Css.Display.keepsNextLeading, Css.Display.keepsPrevTrailing, Css.Display.isBlockLike]
  · intro hmode
    obtain ⟨ht, hv, hw⟩ := hdisplay .block (by rw [hmode]; rfl)
    rw [keepsBetween_eq, hv, hw, showsSpaces, ht, hlabel, ← hxv, ← hyw, keepsIndentation]
    simp [Css.Display.keepsNextLeading, Css.Display.isBlockLike, or_comm]

/-- Two elements in one that keeps its line structure, behind a comment that asks for nothing. -/
def linedStore : Store :=
  (Store.new {}).growAll
    [(0, { kind := .comment "display block" }),
     (0, { kind := .element { name := "pre", openTag := {} } }),
     (2, { kind := .element { name := "b", openTag := {} } }),
     (2, { kind := .element { name := "i", openTag := {} } })]

theorem modes_decide_boundaries_linedStore :
    (∀ id n value, linedStore.Reaches 0 id → linedStore.node? id = some n →
        n.kind = .comment value → directive? value = none) ∧
      ∃ out n x y shows,
        prepare { source := .ofString "", sensitivity := .ignore } linedStore = .ok out ∧
        out.node? 2 = some n ∧ n.children = some [3, 4] ∧
        out.node? 3 = some x ∧ out.node? 4 = some y ∧
        x.notes.isTrailingSensitive = some shows ∧ y.notes.isLeadingSensitive = some shows ∧
        (shows = true ↔
          n.keepsIndentation = true ∨ x.kind.isTextLike = true ∧ y.kind.isTextLike = true) := by
  have hplain : ∀ id n value, linedStore.Reaches 0 id → linedStore.node? id = some n →
      n.kind = .comment value → directive? value = none := by
    have hall : ∀ m ∈ linedStore.nodes.toList, requested? m.toContent = none := by decide +kernel
    intro id n value _ hn hkind
    have hrequested := hall n (Array.mem_toList_iff.mpr (Array.mem_of_getElem? hn))
    rwa [requested?, hkind] at hrequested
  have hprepared :
      ((prepare { source := .ofString "", sensitivity := .ignore } linedStore).toOption.map
        fun out => (out.node? 2).map (·.children)) = some (some (some [3, 4])) := by
    decide +kernel
  refine ⟨hplain, ?_⟩
  cases hout : prepare { source := .ofString "", sensitivity := .ignore } linedStore with
  | error e => simp [hout, Except.toOption] at hprepared
  | ok out =>
    simp only [hout, Except.toOption, Option.map_some, Option.some.injEq,
      Option.map_eq_some_iff] at hprepared
    obtain ⟨n, hn, hchildren⟩ := hprepared
    obtain ⟨x, y, shows, hx, hy, htrailing, hleading, -, hignore⟩ :=
      modes_decide_boundaries _ _ out hplain hout 2 n [] 3 4 [] hn hchildren
    exact ⟨out, n, x, y, shows, rfl, hn, hchildren, hx, hy, htrailing, hleading, hignore rfl⟩

end Markup
