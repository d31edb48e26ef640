import Markup.Proofs.Freshness
import Markup.Proofs.Mirroring

/-! Attributes are recorded independently. A pass that annotates a store writes one entry of each
node below the root and reads none that another such pass writes. So it does not matter in which
order display, closing tags and component tags are noted, nor how often, and everything else stays
as it was. A node that several lists name is written several times; the later writes find the entry
as they would leave it. -/
namespace Markup

open Annotate

namespace Store

variable {s mid out out' : Store} {i : NodeId} {n : Node} {done ids : List NodeId}
  {f : NodeId → Node → Except Error Content} {g h : NodeId → Node → Content}

theorem Rooted.exists_dfs (hs : s.Rooted) :
    ∃ ids, s.dfs = .ok ids ∧ ∀ i, i ∈ ids ↔ s.Reaches 0 i := by
  obtain ⟨t, ht⟩ := exists_unfold_iff_rooted.mpr hs
  obtain ⟨hbears, hroot⟩ := bears_of_unfoldFrom ht
  have hlabel : (t.map fun p => (p.1, p.2.toContent)).label.1 = 0 := by rw [Tree.label_map, hroot]
  refine ⟨t.ids, dfs_of_unfold ht, ?_⟩
  intro i
  rw [← Tree.ids_map Node.toContent, ← hlabel]
  exact ⟨hbears.reaches i, hbears.mem_ids_of_reaches⟩

/-- Contents below the root are what `g` makes of the nodes of the first store. All else is as it
was there. -/
structure Noted (s : Store) (g : NodeId → Node → Content) (out : Store) : Prop where
  size : out.size = s.size
  reached : ∀ i n, s.Reaches 0 i → s.node? i = some n →
    out.node? i = some { n with toContent := g i n }
  elsewhere : ∀ i, ¬ s.Reaches 0 i → out.node? i = s.node? i

theorem Noted.revised (ho : s.Noted g out) (hg : ∀ i (n : Node), n.kind.Similar (g i n).kind) :
    s.Revised out := by
  refine ⟨ho.size, ?_⟩
  intro i n hn
  by_cases hi : s.Reaches 0 i
  case pos => exact ⟨_, ho.reached i n hi hn, hg i n⟩
  case neg => exact ⟨n.toContent, by rw [ho.elsewhere i hi, hn], .inl rfl⟩

theorem Revised.rooted (h : s.Revised out) (hs : s.Rooted) : out.Rooted := by
  constructor
  · rw [h.lists, h.size]
    exact hs.allocated
  · rw [h.lists]
    exact hs.acyclic

theorem Revised.anchored (h : s.Revised out) (hs : s.Anchored) : out.Anchored := by
  rw [anchored_iff, h.size]
  intro id m hm i hi
  obtain ⟨n, c, hn, -, rfl⟩ := h.exists_node hm
  exact hs.lt_size hn hi

theorem Noted.unique (ho : s.Noted g out) (ho' : s.Noted g out') (hs : s.Rooted) : out = out' := by
  apply ext_node?
  intro i
  by_cases hi : s.Reaches 0 i
  case pos =>
    obtain ⟨n, hn⟩ := exists_node?_of_lt (hs.allocated i hi)
    rw [ho.reached i n hi hn, ho'.reached i n hi hn]
  case neg => rw [ho.elsewhere i hi, ho'.elsewhere i hi]

/-- Noting twice is noting once what comes of it. -/
theorem Noted.trans (ho : s.Noted g mid) (ho' : mid.Noted h out) (hmid : s.Revised mid) :
    s.Noted (fun i n => h i { n with toContent := g i n }) out := by
  have hreaches : mid.Reaches = s.Reaches := by rw [Reaches, Reaches, hmid.lists]
  refine ⟨ho'.size.trans ho.size, ?_, ?_⟩
  · intro i n hi hn
    rw [ho'.reached i _ (hreaches ▸ hi) (ho.reached i n hi hn)]
  · intro i hi
    rw [ho'.elsewhere i (hreaches ▸ hi), ho.elsewhere i hi]

theorem Noted.congr (ho : s.Noted g out)
    (hgh : ∀ i n, s.Reaches 0 i → s.node? i = some n → g i n = h i n) : s.Noted h out := by
  refine ⟨ho.size, ?_, ho.elsewhere⟩
  intro i n hi hn
  rw [ho.reached i n hi hn, hgh i n hi hn]

/-- The step function finds `g` at a node, and finds it again where `g` has been noted already. -/
def Settles (s : Store) (f : NodeId → Node → Except Error Content) (g : NodeId → Node → Content) :
    Prop :=
  ∀ i n, s.Reaches 0 i → s.node? i = some n →
    f i n = .ok (g i n) ∧ f i { n with toContent := g i n } = .ok (g i n)

theorem Settles.annotateAt (hf : s.Settles f g) (hi : s.Reaches 0 i) (hn : s.node? i = some n) :
    annotateAt f (s.annotated g done) i = .ok (s.annotated g (done ++ [i])) := by
  apply annotateAt_annotated hn
  split
  case isTrue => exact (hf i n hi hn).2
  case isFalse => exact (hf i n hi hn).1

theorem Settles.foldlM_annotateAt (hf : s.Settles f g) (hs : s.Rooted)
    (hids : ∀ i ∈ ids, s.Reaches 0 i) :
    ids.foldlM (Store.annotateAt f) (s.annotated g done) = .ok (s.annotated g (done ++ ids)) := by
  induction ids generalizing done with
  | nil =>
    rw [List.append_nil]
    rfl
  | cons i ids ih =>
    rw [List.forall_mem_cons] at hids
    obtain ⟨n, hn⟩ := exists_node?_of_lt (hs.allocated i hids.1)
    rw [List.append_cons, List.foldlM_cons, hf.annotateAt hids.1 hn]
    exact ih hids.2

theorem Settles.exists_annotate (hf : s.Settles f g) (hs : s.Rooted) :
    ∃ out, s.annotate f = .ok out ∧ s.Noted g out := by
  obtain ⟨ids, hdfs, hids⟩ := hs.exists_dfs
  have hnone : s.annotated g [] = s := mapNodes_eq_self fun _ _ => by simp
  have hrun : ids.foldlM (Store.annotateAt f) (s.annotated g []) = .ok (s.annotated g ids) :=
    hf.foldlM_annotateAt hs fun i hi => (hids i).mp hi
  refine ⟨s.annotated g ids, ?_, size_mapNodes .., ?_, ?_⟩
  · rw [annotate_eq, hdfs]
    rwa [hnone] at hrun
  · intro i n hi hn
    rw [node?_annotated hn, if_pos ((hids i).mpr hi)]
  · intro i hi
    rw [annotated, node?_mapNodes]
    cases s.node? i <;> simp [hids, hi]

theorem Anchored.exists_places (hs : s.Anchored) :
    ∃ p : NodeId → Place, ∀ i < s.size, s.place i = .ok (p i) := by
  have : Nonempty Place := ⟨{ self := { kind := .root } }⟩
  have hplace : ∀ i < s.size, ∃ p, s.place i = .ok p := by
    intro i hi
    obtain ⟨n, hn⟩ := exists_node?_of_lt hi
    obtain ⟨a, ha⟩ := exists_linked fun j (hj : n.parent = some j) =>
      hs.lt_size hn (Node.mem_links.mpr (.inl hj))
    obtain ⟨b, hb⟩ := exists_linked fun j (hj : n.prev = some j) =>
      hs.lt_size hn (Node.mem_links.mpr (.inr (.inl hj)))
    obtain ⟨c, hc⟩ := exists_linked fun j (hj : n.next = some j) =>
      hs.lt_size hn (Node.mem_links.mpr (.inr (.inr hj)))
    exact ⟨_, place_eq_ok hn ha hb hc⟩
  choose! p hp using hplace
  exact ⟨p, hp⟩

def content? (s : Store) (link : Option NodeId) : Option Content :=
  link.bind fun i => (s.node? i).map Node.toContent

theorem linked_eq_content? {link : Option NodeId} (h : ∀ i, link = some i → i < s.size) :
    s.linked link = .ok (s.content? link) := by
  cases link with
  | none => rfl
  | some i =>
    obtain ⟨n, hn⟩ := exists_node?_of_lt (h i rfl)
    rw [linked_eq_ok hn]
    simp [content?, hn]

end Store

/-- The kind with what there is to note of its closing tag. -/
def Kind.noteClosing (src : Source) : Kind → Kind
  | .element e => .element { e with hasComponentClosing := some (hasComponentClosing src e) }
  | k => k

theorem Kind.similar_noteClosing (src : Source) (k : Kind) : k.Similar (k.noteClosing src) := by
  cases k with
  | element e => exact .inr (.inr ⟨e, _, rfl, rfl⟩)
  | _ => exact .inl rfl

/-- Closing tags say nothing about what is noted of them. -/
@[simp] theorem Kind.noteClosing_noteClosing (src : Source) (k : Kind) :
    (k.noteClosing src).noteClosing src = k.noteClosing src := by
  cases k <;> rfl

theorem Annotate.isSelfClosing_noteClosing (src : Source) (n : Node) :
    isSelfClosing { n with kind := n.kind.noteClosing src } = isSelfClosing n := by
  cases hkind : n.kind <;> simp [isSelfClosing, Kind.noteClosing, hkind]

namespace Pass

variable {o : Options} {s mid out : Store} {p q : Pass} {n : Node}

/-- The passes that note one attribute of each node. -/
def attributes : List Pass := [display, selfClosing, componentClosing]

theorem mem_attributes : p ∈ attributes ↔ p = display ∨ p = selfClosing ∨ p = componentClosing := by
  simp [attributes]

def note (o : Options) (s : Store) : Pass → Node → Content
  | display, n =>
    { n.toContent with notes := { n.notes with
        display := some (displayOf o n.toContent (n.parent = some 0) (s.content? n.prev)) } }
  | selfClosing, n =>
    { n.toContent with notes := { n.notes with isSelfClosing := some (isSelfClosing n) } }
  | componentClosing, n => { n.toContent with kind := n.kind.noteClosing o.source }
  | _, n => n.toContent

theorem similar_note (o : Options) (s : Store) (p : Pass) (n : Node) :
    n.kind.Similar (note o s p n).kind := by
  cases p with
  | componentClosing => exact Kind.similar_noteClosing o.source n.kind
  | _ => exact .inl rfl

/-! ### Reading and writing -/

/-- A pass reads nothing of a neighbour but the display that it asks for. -/
theorem note_congr (h : ∀ link, (mid.content? link).bind requested? =
    (s.content? link).bind requested?) : note o mid p n = note o s p n := by
  cases p with
  | display => simp only [note, displayOf, h]
  | _ => rfl

/-- What a pass writes is what it would write again. -/
theorem note_note_self (hp : p ∈ attributes) (o : Options) (s : Store) (n : Node) :
    note o s p { n with toContent := note o s p n } = note o s p n := by
  rcases mem_attributes.mp hp with rfl | rfl | rfl
  · rfl
  · rfl
  · simp only [note, Kind.noteClosing_noteClosing]

theorem note_display_component (o : Options) (s : Store) (n : Node) :
    note o s componentClosing { n with toContent := note o s display n } =
      note o s display { n with toContent := note o s componentClosing n } := by
  have hsimilar := Kind.similar_noteClosing o.source n.kind
  have hdisplay :
      displayOf o (note o s componentClosing n) (n.parent = some 0) (s.content? n.prev) =
        displayOf o n.toContent (n.parent = some 0) (s.content? n.prev) :=
    displayOf_similar hsimilar rfl
  simp only [note] at hdisplay ⊢
  rw [hdisplay]

theorem note_selfClosing_component (o : Options) (s : Store) (n : Node) :
    note o s componentClosing { n with toContent := note o s selfClosing n } =
      note o s selfClosing { n with toContent := note o s componentClosing n } := by
  simp only [note, isSelfClosing_noteClosing]

/-- No pass reads what another one writes, and no two write the same entry. -/
theorem note_comm (hp : p ∈ attributes) (hq : q ∈ attributes) (o : Options) (s : Store) (n : Node) :
    note o s q { n with toContent := note o s p n } =
      note o s p { n with toContent := note o s q n } := by
  rcases mem_attributes.mp hp with rfl | rfl | rfl <;>
    rcases mem_attributes.mp hq with rfl | rfl | rfl
  · rfl
  · rfl
  · exact note_display_component o s n
  · rfl
  · rfl
  · exact note_selfClosing_component o s n
  · exact (note_display_component o s n).symm
  · exact (note_selfClosing_component o s n).symm
  · rfl

/-! ### Runs -/

theorem exists_run_componentClosing (o : Options) (hs : s.Rooted) :
    ∃ out, componentClosing.run o s = .ok out ∧
      s.Noted (fun _ => note o s componentClosing) out := by
  rw [run_componentClosing]
  refine Store.Settles.exists_annotate ?_ hs
  intro i n _ _
  obtain ⟨⟨kind, span, notes⟩, parent, prev, next, children⟩ := n
  cases kind <;> exact ⟨rfl, rfl⟩

theorem exists_run (hp : p ∈ attributes) (o : Options) (hlinks : s.Anchored) (hs : s.Rooted) :
    ∃ out, p.run o s = .ok out ∧ s.Noted (fun _ => note o s p) out := by
  rcases mem_attributes.mp hp with rfl | rfl | rfl
  · rw [run_display]
    refine Store.Settles.exists_annotate ?_ hs
    intro i n _ hn
    have hprev : s.linked n.prev = .ok (s.content? n.prev) :=
      Store.linked_eq_content? fun j hj => hlinks.lt_size hn (Node.mem_links.mpr (.inr (.inl hj)))
    simp only [hprev, bind, Except.bind, pure, Except.pure]
    exact ⟨rfl, rfl⟩
  · rw [run_selfClosing]
    exact Store.Settles.exists_annotate (fun _ _ _ _ => ⟨rfl, rfl⟩) hs
  · exact exists_run_componentClosing o hs

theorem requested?_content? (hmid : s.Noted (fun _ => note o s p) mid) (hs : s.Rooted)
    (link : Option NodeId) :
    (mid.content? link).bind requested? = (s.content? link).bind requested? := by
  cases link with
  | none => rfl
  | some i =>
    by_cases hi : s.Reaches 0 i
    case neg => simp only [Store.content?, Option.bind_some, hmid.elsewhere i hi]
    case pos =>
      obtain ⟨n, hn⟩ := Store.exists_node?_of_lt (hs.allocated i hi)
      have hsame := requested?_similar (similar_note o s p n)
      simp [Store.content?, hn, hmid.reached i n hi hn, hsame]

/-- A pass behind another one notes what it would have noted before. -/
theorem exists_run_after (hq : q ∈ attributes) (hmid : s.Noted (fun _ => note o s p) mid)
    (hlinks : s.Anchored) (hs : s.Rooted) :
    ∃ out, q.run o mid = .ok out ∧
      s.Noted (fun _ n => note o s q { n with toContent := note o s p n }) out := by
  have hrevised := hmid.revised fun _ => similar_note o s p
  obtain ⟨out, hrun, hout⟩ := exists_run hq o (hrevised.anchored hlinks) (hrevised.rooted hs)
  refine ⟨out, hrun, (hmid.trans hout hrevised).congr ?_⟩
  exact fun i n _ _ => note_congr (requested?_content? hmid hs)

theorem runAll_pair (hp : p.run o s = .ok mid) (hq : q.run o mid = .ok out) :
    runAll o s [p, q] = .ok out := by
  simp only [runAll, List.foldlM_cons, List.foldlM_nil, hp, hq, bind, Except.bind, pure,
    Except.pure]

theorem runAll_comm (hp : p ∈ attributes) (hq : q ∈ attributes) (o : Options) (hlinks : s.Anchored)
    (hs : s.Rooted) : ∃ out, runAll o s [p, q] = .ok out ∧ runAll o s [q, p] = .ok out := by
  obtain ⟨mid, hmid, hnoted⟩ := exists_run hp o hlinks hs
  obtain ⟨out, hout, hfirst⟩ := exists_run_after hq hnoted hlinks hs
  obtain ⟨mid', hmid', hnoted'⟩ := exists_run hq o hlinks hs
  obtain ⟨out', hout', hsecond⟩ := exists_run_after hp hnoted' hlinks hs
  obtain rfl : out = out' :=
    (hfirst.congr fun _ n _ _ => note_comm hp hq o s n).unique hsecond hs
  exact ⟨out, runAll_pair hmid hout, runAll_pair hmid' hout'⟩

theorem run_idem (hp : p ∈ attributes) (o : Options) (hlinks : s.Anchored) (hs : s.Rooted) :
    ∃ out, p.run o s = .ok out ∧ p.run o out = .ok out := by
  obtain ⟨out, hout, hnoted⟩ := exists_run hp o hlinks hs
  obtain ⟨again, hagain, hnoted'⟩ := exists_run_after hp hnoted hlinks hs
  obtain rfl : again = out :=
    (hnoted'.congr fun _ n _ _ => note_note_self hp o s n).unique hnoted hs
  exact ⟨again, hout, hagain⟩

/-! ### What a pass leaves alone -/

/-- What a pass may make of a node: it sets its own entry and nothing else. -/
inductive Sets (o : Options) (s : Store) (n : Node) : Pass → Content → Prop where
  | display {prev : Option Content} (linked : s.linked n.prev = .ok prev) :
    Sets o s n .display { n.toContent with notes := { n.notes with
      display := some (displayOf o n.toContent (n.parent = some 0) prev) } }
  | selfClosing : Sets o s n .selfClosing { n.toContent with notes := { n.notes with
      isSelfClosing := some (isSelfClosing n) } }
  | componentClosing {e : Element} (kind : n.kind = .element e) :
    Sets o s n .componentClosing { n.toContent with kind := .element { e with
      hasComponentClosing := some (hasComponentClosing o.source e) } }
  | other (kind : n.kind.isElement = false) : Sets o s n .componentClosing n.toContent
  | boundary (leading trailing dangling : Option Bool) :
    Sets o s n .boundary { n.toContent with notes := { n.notes with
      isLeadingSensitive := leading, isTrailingSensitive := trailing
      isDanglingSensitive := dangling } }

/-- A pass has set its own entry of the nodes below the root. Their links and child lists stay, and
so do all other nodes. -/
structure Alters (p : Pass) (o : Options) (s out : Store) : Prop where
  size : out.size = s.size
  reached : ∀ i n, s.Reaches 0 i → s.node? i = some n →
    ∃ c, Sets o s n p c ∧ out.node? i = some { n with toContent := c }
  elsewhere : ∀ i, ¬ s.Reaches 0 i → out.node? i = s.node? i

theorem alters_of_noted {g : NodeId → Node → Content} (h : s.Noted g out)
    (hg : ∀ i n, s.node? i = some n → Sets o s n p (g i n)) : Alters p o s out where
  size := h.size
  reached i n hi hn := ⟨_, hg i n hn, h.reached i n hi hn⟩
  elsewhere := h.elsewhere

theorem sets_note (hp : p ∈ attributes) (o : Options) (hlinks : s.Anchored) {i : NodeId}
    (hn : s.node? i = some n) : Sets o s n p (note o s p n) := by
  rcases mem_attributes.mp hp with rfl | rfl | rfl
  · apply Sets.display
    exact Store.linked_eq_content? fun j hj =>
      hlinks.lt_size hn (Node.mem_links.mpr (.inr (.inl hj)))
  · exact .selfClosing
  · obtain ⟨⟨kind, span, notes⟩, parent, prev, next, children⟩ := n
    cases kind with
    | element e => exact .componentClosing rfl
    | _ => exact .other rfl

end Pass

namespace Annotate

variable {s : Store} {p : NodeId → Place} {i : NodeId} {n : Node}

theorem sets_boundaryAt (o : Options) (s : Store) (p : NodeId → Place) (i : NodeId) (n : Node) :
    Pass.Sets o s n .boundary (boundaryAt p i n) := by
  obtain ⟨dangling, hdangling⟩ := exists_noteDangling n
  rw [boundaryAt, hdangling]
  split
  case isTrue =>
    exact .boundary n.notes.isLeadingSensitive n.notes.isTrailingSensitive dangling
  case isFalse => exact .boundary _ _ dangling

/-- Whether whitespace shows does not depend on what is noted of it. -/
theorem boundaryAt_boundaryAt (p : NodeId → Place) (i : NodeId) (n : Node) :
    boundaryAt p i { n with toContent := boundaryAt p i n } = boundaryAt p i n := by
  by_cases hparent : n.parent.isNone = true
  case pos =>
    simp only [boundaryAt, noteDangling, hparent, ↓reduceIte]
    split <;> rfl
  case neg =>
    simp only [boundaryAt, noteDangling, hparent, Bool.false_eq_true, ↓reduceIte]
    split <;> rfl

theorem exists_boundary (hlinks : s.Anchored) (hs : s.Rooted) :
    ∃ p out, boundary s = .ok out ∧ s.Noted (boundaryAt p) out := by
  obtain ⟨p, hp⟩ := hlinks.exists_places
  obtain ⟨f, hf, hstep⟩ := exists_boundary_step hlinks hp
  have hsettles : s.Settles f (boundaryAt p) := by
    intro i n _ hn
    refine ⟨hstep i n n.toContent hn, ?_⟩
    rw [hstep i n _ hn, boundaryAt_boundaryAt]
  obtain ⟨out, hout, hnoted⟩ := hsettles.exists_annotate hs
  exact ⟨p, out, hf.trans hout, hnoted⟩

end Annotate

/-- Display, closing tags and component tags are noted independently. On a store whose links name
nodes that are there and whose child lists run in no circle below the root, any two of these passes
can change places and each can be repeated, with the same store node by node. Each of them sets its
own entry of the nodes below the root and leaves all else as it was, and so does the pass that notes
boundaries with its three entries. -/
theorem attributes_noted_independently (o : Options) (s : Store) (hlinks : s.Anchored)
    (hs : s.Rooted) :
    (∀ p ∈ Pass.attributes, ∀ q ∈ Pass.attributes,
      ∃ out, Pass.runAll o s [p, q] = .ok out ∧ Pass.runAll o s [q, p] = .ok out) ∧
    (∀ p ∈ Pass.attributes, ∃ out, p.run o s = .ok out ∧ p.run o out = .ok out) ∧
    ∀ p ∈ .boundary :: Pass.attributes, ∃ out, p.run o s = .ok out ∧ p.Alters o s out := by
  refine ⟨fun p hp q hq => Pass.runAll_comm hp hq o hlinks hs,
    fun p hp => Pass.run_idem hp o hlinks hs, ?_⟩
  rw [List.forall_mem_cons]
  constructor
  · obtain ⟨places, out, hout, hnoted⟩ := exists_boundary hlinks hs
    rw [← Pass.run_boundary o] at hout
    exact ⟨out, hout, Pass.alters_of_noted hnoted fun i n _ => sets_boundaryAt o s places i n⟩
  · intro p hp
    obtain ⟨out, hout, hnoted⟩ := Pass.exists_run hp o hlinks hs
    exact ⟨out, hout, Pass.alters_of_noted hnoted fun i n hn => Pass.sets_note hp o hlinks hn⟩

/-- A component that is listed twice, behind a comment that asks for its display, with a wrong link
in its text and a detached element that hangs below itself. -/
def sharedStore : Store :=
  let element (name : String) : Element :=
    { name, openTag := ⟨.ofOffset 0, .ofOffset 5⟩, closeTag := some ⟨.ofOffset 6, .ofOffset 13⟩ }
  ⟨#[{ kind := .root, children := some [1, 2, 2] },
     { kind := .comment " display: table ", parent := some 0, next := some 2 },
     { kind := .element (element "Foo"), parent := some 0, prev := some 1, children := some [3] },
     { kind := .text "x", parent := some 2, prev := some 4 },
     { kind := .element (element "i"), parent := some 4, next := some 0, children := some [4] }]⟩

def sharedOptions : Options := { dialect := .vue, source := .ofString "<Foo>x< / / >" }

theorem attributes_noted_independently_sharedStore :
    sharedStore.Anchored ∧ sharedStore.Rooted ∧
      (∃ out, Pass.runAll sharedOptions sharedStore [.display, .componentClosing] = .ok out ∧
        Pass.runAll sharedOptions sharedStore [.componentClosing, .display] = .ok out) ∧
      (∃ out, Pass.display.run sharedOptions sharedStore = .ok out ∧
        Pass.display.run sharedOptions out = .ok out) ∧
      ∃ out, Pass.boundary.run sharedOptions sharedStore = .ok out ∧
        Pass.boundary.Alters sharedOptions sharedStore out ∧ ¬ sharedStore.Reaches 0 4 ∧
        out.node? 4 = sharedStore.node? 4 := by
  have hlinks : sharedStore.Anchored := by decide
  have hs : sharedStore.Rooted := Store.exists_toDoc_iff_rooted.mp ⟨_, rfl⟩
  obtain ⟨hcomm, hidem, halters⟩ :=
    attributes_noted_independently sharedOptions sharedStore hlinks hs
  obtain ⟨out, hout, hframe⟩ := halters .boundary List.mem_cons_self
  have hfree : ¬ sharedStore.Reaches 0 4 := by
    obtain ⟨ids, hdfs, hids⟩ := hs.exists_dfs
    obtain rfl : [0, 1, 2, 3, 2, 3] = ids := Except.ok.inj hdfs
    rw [← hids]
    decide
  exact ⟨hlinks, hs, hcomm _ (by decide) _ (by decide), hidem _ (by decide), out, hout, hframe,
    hfree, hframe.elsewhere 4 hfree⟩

end Markup
