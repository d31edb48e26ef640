import Markup.Proofs.Copying
import Markup.Proofs.Expressions
import Markup.Rewrite.Interpolation

/-! Copies that share their children. Where a text is split, each stretch of it is a copy that lists
the children of the whole text. A harvest takes them with the first stretch, and for the others only
husks are left. -/
namespace Markup

namespace Text

variable {pattern bs : List UInt8} {n : Nat}

theorem find?_eq_some (h : pattern <+: bs.drop n) (hfirst : ∀ m < n, ¬ pattern <+: bs.drop m) :
    find? pattern bs = some n := by
  induction bs generalizing n with
  | nil =>
    obtain rfl : pattern = [] := by simpa using h
    obtain rfl : n = 0 := by
      by_contra hn
      exact hfirst 0 (Nat.pos_of_ne_zero hn) (List.nil_prefix)
    rfl
  | cons b bs ih =>
    cases n with
    | zero =>
      rw [List.drop_zero] at h
      rw [find?, if_pos (List.isPrefixOf_iff_prefix.mpr h)]
    | succ n =>
      have hfront := hfirst 0 (Nat.succ_pos n)
      rw [List.drop_zero, ← List.isPrefixOf_iff_prefix] at hfront
      rw [find?, if_neg hfront, ih h fun m hm => hfirst (m + 1) (Nat.succ_lt_succ hm)]
      rfl

theorem find?_eq_none (h : ∀ n, ¬ pattern <+: bs.drop n) : find? pattern bs = none := by
  induction bs with
  | nil =>
    have hne : pattern ≠ [] := by
      rintro rfl
      exact h 0 List.nil_prefix
    simp [find?, hne]
  | cons b bs ih =>
    have hfront := h 0
    rw [List.drop_zero, ← List.isPrefixOf_iff_prefix] at hfront
    rw [find?, if_neg hfront, ih fun n => h (n + 1)]
    rfl

end Text

namespace Rewrite

open Store Reshape Text

section Search

variable {x : Char} {cs : List Char}

/-- Searching the bytes of a text for a pair finds the place where the text breaks. -/
theorem find?_pair (hx : x.toNat < 128) (cs : List Char) :
    find? (bytes [x, x]) (bytes cs) = (breakPair x cs).map fun p => byteLength p.1 := by
  cases hbreak : breakPair x cs with
  | none =>
    refine find?_eq_none fun n hn => ?_
    obtain ⟨before, after, rfl, -⟩ := (standsAt_pair_iff hx).mp hn
    exact breakPair_eq_none_iff.mp hbreak ⟨before, after, by simp⟩
  | some p =>
    obtain ⟨t, rest⟩ := p
    obtain ⟨rfl, hfirst⟩ := breakPair_eq_some_iff.mp hbreak
    show _ = some (byteLength t)
    refine find?_eq_some ((standsAt_pair_iff hx).mpr ⟨t, rest, rfl, rfl⟩) fun m hm hstands => ?_
    obtain ⟨before, after, hsplit, rfl⟩ := (standsAt_pair_iff hx).mp hstands
    have hpair : before ++ [x, x] <+: t ++ x :: x :: rest := hsplit ▸ prefix_pair before after
    have hlength := hfirst.length_le (prefix_pair t rest) hpair
    obtain ⟨more, rfl⟩ := List.prefix_of_prefix_length_le
      ((List.prefix_append _ _).trans (prefix_pair t rest)) ((List.prefix_append _ _).trans hpair)
      hlength
    rw [byteLength_append] at hm
    omega

theorem find?_openBraces (cs : List Char) :
    find? openBraces (bytes cs) = (breakPair '\x7b' cs).map fun p => byteLength p.1 :=
  find?_pair (x := '\x7b') (by decide) cs

theorem find?_closeBraces (cs : List Char) :
    find? closeBraces (bytes cs) = (breakPair '\x7d' cs).map fun p => byteLength p.1 :=
  find?_pair (x := '\x7d') (by decide) cs

theorem firstExpression_eq_ok (cs : List Char) : firstExpression cs = .ok (match? cs) := by
  rw [firstExpression, match?, find?_openBraces]
  cases hopen : breakPair '\x7b' cs with
  | none => rfl
  | some p =>
    obtain ⟨text, body⟩ := p
    obtain rfl := breakPair_some_spec hopen
    have hbody : Checked.cut (text ++ '\x7b' :: '\x7b' :: body)
        (byteLength text + openBraces.length) = .ok (text ++ ['\x7b', '\x7b'], body) :=
      Checked.cut_eq_ok_iff.mpr ⟨by simp, by rw [byteLength_append]; rfl⟩
    have htext := Checked.cut_append text ('\x7b' :: '\x7b' :: body)
    simp only [Option.map_some, hbody, htext, bind, Except.bind]
    cases body with
    | nil => rfl
    | cons c body =>
      have hbehind : Checked.from_ (bytes (c :: body)) c.utf8Size = .ok (bytes body) := by
        rw [Checked.from_eq_ok, bytes_cons, ← String.length_utf8EncodeChar, List.drop_left]
        rw [bytes_cons, List.length_append, String.length_utf8EncodeChar]
        exact Nat.le_add_right _ _
      simp only [hbehind, find?_closeBraces]
      cases hclose : breakPair '\x7d' body with
      | none => rfl
      | some p =>
        obtain ⟨e, rest⟩ := p
        obtain rfl := breakPair_some_spec hclose
        have hexpression : Checked.cut (c :: (e ++ '\x7d' :: '\x7d' :: rest))
            (byteLength e + c.utf8Size) = .ok (c :: e, '\x7d' :: '\x7d' :: rest) :=
          Checked.cut_eq_ok_iff.mpr ⟨rfl, by rw [byteLength_cons, Nat.add_comm]⟩
        have hrest : Checked.cut (c :: (e ++ '\x7d' :: '\x7d' :: rest))
            (byteLength e + c.utf8Size + closeBraces.length) =
              .ok (c :: e ++ ['\x7d', '\x7d'], rest) := by
          refine Checked.cut_eq_ok_iff.mpr ⟨by simp, ?_⟩
          rw [byteLength_append, byteLength_cons, Nat.add_comm (byteLength e)]
          rfl
        simp only [Option.map_some, hexpression, hrest]
        rfl

theorem segments_of_none {cs : List Char} (h : match? cs = none) : segments cs = [.text cs] := by
  rw [segments]
  split <;> simp_all

theorem segments_of_some {cs : List Char} {m : Match} (h : match? cs = some m) :
    segments cs = .text m.text :: .expression m.expression :: segments m.rest := by
  rw [segments]
  split <;> simp_all

theorem split_eq_ok (cs : List Char) : split cs = .ok (segments cs) := by
  have hfirst := firstExpression_eq_ok cs
  fun_induction segments cs with
  | case1 cs hnone =>
    rw [hnone] at hfirst
    rw [Rewrite.split]
    split <;> simp_all
  | case2 cs m hsome ih =>
    rw [hsome] at hfirst
    rw [Rewrite.split]
    split
    · simp_all
    · simp_all
    · next m' hm' =>
      obtain rfl : m' = m := by simpa [hfirst] using hm'.symm
      rw [ih (firstExpression_eq_ok _)]
      rfl

end Search

section Share

variable {out mid out' : Store} {t u : Plant} {ts us : List Plant} {ds : List Doc} {d : Doc}
  {taken : Finset NodeId} {src : Source} {scope scope' : List NodeId}

/-- Nodes were added to a store, and of those that were there before only the links of some have
changed. -/
structure Grown (out out' : Store) (scope : List NodeId) : Prop where
  retained : out.Retained out'
  frame : ∀ i < out.size, i ∉ scope → out'.node? i = out.node? i

theorem Grown.refl (out : Store) (scope : List NodeId) : Grown out out scope :=
  ⟨.refl out, fun _ _ _ => rfl⟩

theorem Grown.trans (h : Grown out mid scope) (h' : Grown mid out' scope) :
    Grown out out' scope where
  retained := h.retained.trans h'.retained
  frame i hi hscope := (h'.frame i (Nat.lt_of_lt_of_le hi h.retained.size) hscope).trans
    (h.frame i hi hscope)

theorem Grown.mono (h : Grown out out' scope) (hscope : scope ⊆ scope') : Grown out out' scope' :=
  ⟨h.retained, fun i hi hmem => h.frame i hi fun hin => hmem (hscope hin)⟩

theorem Grown.bears (h : Grown out out' scope) (ht : out.Bears t) : out'.Bears t :=
  ht.congr fun i _ n hn => h.retained.nodes i n hn

theorem grown_alloc (out : Store) (n : Node) : Grown out (out.alloc n).1 [] := by
  refine ⟨⟨by rw [size_alloc]; exact Nat.le_succ _, fun i m hm => ⟨m, ?_, rfl, rfl⟩⟩,
    fun i hi _ => node?_alloc_of_lt hi n⟩
  rw [node?_alloc_of_lt (lt_size_of_node? hm), hm]

theorem Grown.relist {parent : NodeId} (h : Grown out mid scope) (hparent : out.size ≤ parent)
    (ids : List NodeId) : Grown out (mid.relist parent ids) (scope ++ ids) := by
  have hlinked : mid.Retained (linkFrom parent none ids mid) := retained_linkFrom
  have hne : ∀ i < out.size, i ≠ parent := fun i hi => Nat.ne_of_lt (Nat.lt_of_lt_of_le hi hparent)
  refine ⟨⟨by rw [size_relist]; exact h.retained.size, fun i n hn => ?_⟩, fun i hi hscope => ?_⟩
  · obtain ⟨m, hm, hcontent, hchildren⟩ := (h.retained.trans hlinked).nodes i n hn
    refine ⟨m, ?_, hcontent, hchildren⟩
    rw [Store.relist, node?_adjust_of_ne _ (Ne.symm (hne i (lt_size_of_node? hn))), hm]
  · rw [List.mem_append, not_or] at hscope
    rw [node?_relist_of_notMem (hne i hi) hscope.2, h.frame i hi hscope.1]

theorem exists_copyWith (h : out.Bears t) (kind : Kind) (span : Span) :
    ∃ out', out.copyWith t.label.1 (fun n => { n with kind, span }) = .ok (out', out.size) ∧
      out'.size = out.size + 1 ∧ Grown out out' (roots t.children) ∧
      out'.Bears (t.setLabel (out.size, { t.label.2 with kind, span })) := by
  obtain ⟨n, hn, hcontent, hchildren⟩ := h.node_eq_ok
  have hnotes : n.notes = t.label.2.notes := congrArg Content.notes hcontent
  cases t with
  | leaf p =>
    simp only [Tree.label_leaf, Tree.children?_leaf, Option.map_none] at hn hnotes hchildren
    refine ⟨(out.alloc { kind, span, notes := p.2.notes }).1, ?_, size_alloc _ _,
      grown_alloc _ _, ?_⟩
    · simp [copyWith, hn, hchildren, hnotes, Node.detach, bind, Except.bind, pure, Except.pure]
    · exact bears_leaf.mpr ⟨_, node?_alloc_self _ _, rfl, rfl⟩
  | node p us =>
    simp only [Tree.label_node, Tree.children?_node, Option.map_some] at hn hnotes hchildren
    have halloc := node?_alloc_self out { kind, span, notes := p.2.notes, children := some [] }
    have hgrown := grown_alloc out { kind, span, notes := p.2.notes, children := some [] }
    have hlt : ∀ i ∈ us.flatMap Tree.ids, i < out.size := fun i hi =>
      h.lt_size i (by rw [Tree.ids_node]; exact List.mem_cons_of_mem _ hi)
    have hroots : ∀ i ∈ roots us,
        i < (out.alloc { kind, span, notes := p.2.notes, children := some [] }).1.size := by
      intro i hi
      rw [size_alloc]
      exact Nat.lt_succ_of_lt (hlt i (mem_roots hi))
    refine ⟨_, ?_, by rw [size_relist, size_alloc], hgrown.relist (Nat.le_refl _) (roots us), ?_⟩
    · have hset := setChildren_eq_ok hroots (lt_size_of_node? halloc)
      simp [copyWith, hn, hchildren, hnotes, Node.detach, hset, bind, Except.bind,
        pure, Except.pure]
    · have hbears : ∀ u ∈ us, Store.Bears _ u := fun u hu => hgrown.bears ((bears_node.mp h).2 u hu)
      exact (bears_relist (p := (out.size, { p.2 with kind, span })) halloc rfl rfl hbears
        fun hmem => Nat.lt_irrefl _ (hlt _ hmem) :)

theorem exists_expression (out : Store) (value : String) (inner span : Span) :
    ∃ out' v, ((out.alloc (.ofContent { kind := .text value, span := inner })).1.alloc
        (.ofContent { kind := .interpolation, span })).1.setChildren (out.size + 1) [out.size] =
          .ok out' ∧
      Grown out out' [] ∧ out'.Bears v ∧ v.label.1 = out.size + 1 ∧ v.ids.Nodup ∧
      (∀ i ∈ v.ids, out.size ≤ i) ∧ v.map Prod.snd =
        .node { kind := .interpolation, span } [.leaf { kind := .text value, span := inner }] := by
  have hgrown : Grown out ((out.alloc (.ofContent { kind := .text value, span := inner })).1.alloc
      (.ofContent { kind := .interpolation, span })).1 [] :=
    (grown_alloc _ _).trans (grown_alloc _ _)
  have htext : ((out.alloc (.ofContent { kind := .text value, span := inner })).1.alloc
      (.ofContent { kind := .interpolation, span })).1.node? out.size =
        some (.ofContent { kind := .text value, span := inner }) := by
    simp [node?_alloc]
  have hself : ((out.alloc (.ofContent { kind := .text value, span := inner })).1.alloc
      (.ofContent { kind := .interpolation, span })).1.node? (out.size + 1) =
        some (.ofContent { kind := .interpolation, span }) := by
    simp [node?_alloc]
  refine ⟨_, .node (out.size + 1, { kind := .interpolation, span })
    [.leaf (out.size, { kind := .text value, span := inner })],
    setChildren_eq_ok ?_ (lt_size_of_node? hself), ?_, ?_, rfl, by simp [Tree.ids],
    by simp [Tree.ids], by simp⟩
  · exact List.forall_mem_singleton.mpr (lt_size_of_node? htext)
  · have hrelist := hgrown.relist (Nat.le_succ out.size) [out.size]
    refine ⟨hrelist.retained, fun i hi _ => hrelist.frame i hi ?_⟩
    exact fun hmem => Nat.ne_of_lt hi (List.mem_singleton.mp hmem)
  · have hleaf : ∀ u ∈ [(.leaf (out.size, { kind := .text value, span := inner }) : Plant)],
        Store.Bears _ u :=
      List.forall_mem_singleton.mpr (bears_leaf.mpr ⟨_, htext, rfl, rfl⟩)
    exact (bears_relist (p := (out.size + 1, { kind := .interpolation, span })) hself rfl rfl
      hleaf (by simp [Tree.ids]) :)

theorem size_le_of_mem_subtrees {α : Type} {a b : Tree α} (h : b ∈ a.subtrees) :
    b.size ≤ a.size := by
  induction a using Tree.induct with
  | leaf x => simp_all
  | node x ts ih =>
    rw [Tree.subtrees_node, List.mem_cons] at h
    rcases h with rfl | h
    · exact Nat.le_refl _
    · obtain ⟨a, ha, hb⟩ := List.mem_flatMap.mp h
      have hsize := Tree.size_le_sizeAll ha
      rw [Tree.size_node]
      exact (ih a ha hb).trans (hsize.trans (Nat.le_succ _))

theorem bears_unique (h : out.Bears t) (hu : out.Bears u) (hroot : t.label.1 = u.label.1) :
    t = u := by
  obtain ⟨x, hx, rfl⟩ := h.unfoldFrom (Nat.le_max_left t.size u.size)
  obtain ⟨y, hy, rfl⟩ := hu.unfoldFrom (Nat.le_max_right _ u.size)
  rw [hroot, hy] at hx
  rw [Except.ok.inj hx]

theorem root_notMem_of_bears {p : NodeId × Content} (h : out.Bears (.node p ts)) :
    p.1 ∉ ts.flatMap Tree.ids := by
  intro hmem
  obtain ⟨t, ht, hp⟩ := List.mem_flatMap.mp hmem
  obtain ⟨u, hu, hroot⟩ := Tree.mem_ids_iff.mp hp
  have hbears : out.Bears u := Tree.Everywhere.of_mem_subtrees ((bears_node.mp h).2 t ht) hu
  obtain rfl : u = .node p ts := bears_unique hbears h hroot
  have hle := size_le_of_mem_subtrees hu
  have hlt := Tree.size_le_sizeAll ht
  rw [Tree.size_node] at hle
  omega

theorem husk_prune (t : Plant) (taken : Finset NodeId) :
    husk (prune t taken).1 = .leaf { t.label.2 with kind := .root } := by
  by_cases hmem : t.label.1 ∈ taken
  · rw [prune_of_mem hmem]
    rfl
  · cases t with
    | leaf p => rw [prune_leaf (p := p) hmem]; rfl
    | node p ts => rw [prune_node (p := p) hmem]; rfl

theorem map_husk_pruneAll (ts : List Plant) (taken : Finset NodeId) :
    (pruneAll ts taken).1.map husk = ts.map fun t => .leaf { t.label.2 with kind := .root } := by
  induction ts generalizing taken with
  | nil => simp
  | cons t ts ih => rw [pruneAll_cons, List.map_cons, husk_prune, ih, List.map_cons]

/-- Of plants whose roots were taken only husks are left. -/
theorem pruneAll_of_mem (h : ∀ t ∈ ts, t.label.1 ∈ taken) :
    pruneAll ts taken = (ts.map fun t => .leaf { t.label.2 with kind := .root }, taken) := by
  induction ts with
  | nil => simp
  | cons t ts ih =>
    rw [List.forall_mem_cons] at h
    rw [pruneAll_cons, prune_of_mem h.1, ih h.2, List.map_cons]

theorem roots_mem_pruneAll (ts : List Plant) (taken : Finset NodeId) :
    ∀ t ∈ ts, t.label.1 ∈ (pruneAll ts taken).2 := by
  induction ts generalizing taken with
  | nil => simp
  | cons t ts ih =>
    rw [pruneAll_cons]
    exact List.forall_mem_cons.mpr ⟨subset_pruneAll ts _ (root_mem_prune t taken), ih _⟩

theorem pruneAll_of_disjoint (h : ∀ i ∈ ts.flatMap Tree.ids, i ∉ taken) :
    (pruneAll ts taken).1 = (pruneAll ts ∅).1 := by
  refine (pruneAll_congr (S := (· ∈ ts.flatMap Tree.ids))
    (fun t ht _ _ => prune_congr fun i hi => ?_)
    fun i hi => ?_).1
  · exact List.mem_flatMap.mpr ⟨t, ht, hi⟩
  · simpa using h i hi

theorem ids_eq_cons (t : Plant) : t.ids = t.label.1 :: t.children.flatMap Tree.ids := by
  cases t with
  | leaf p => simp [Tree.ids]
  | node p ts => exact Tree.ids_node p ts

/-- The plant stands for the document. As long as no stretch of it is taken, what stands below it is
there, and after that the roots of it are gone. -/
structure Offered (t : Plant) (d : Doc) (isFirst : Bool) (taken : Finset NodeId) : Prop where
  label : d.label = t.label.2
  children : d.children? = t.children?.map fun us => (pruneAll us ∅).1
  free : isFirst = true → ∀ i ∈ t.children.flatMap Tree.ids, i ∉ taken
  spent : isFirst = false → ∀ u ∈ t.children, u.label.1 ∈ taken

theorem Offered.grow {isFirst : Bool} {taken' : Finset NodeId} (h : Offered t d isFirst taken)
    (ht : out.Bears t) (hsub : taken ⊆ taken') (hnew : ∀ i ∈ taken', i ∈ taken ∨ out.size ≤ i) :
    Offered t d isFirst taken' where
  label := h.label
  children := h.children
  free hfirst i hi hmem := by
    have hlt : i < out.size := ht.lt_size i (by rw [ids_eq_cons]; exact List.mem_cons_of_mem _ hi)
    rcases hnew i hmem with hmem | hle
    · exact h.free hfirst i hi hmem
    · exact Nat.not_le_of_lt hlt hle
  spent hfirst u hu := hsub (h.spent hfirst u hu)

/-- The next stretch takes what is left below the text. -/
theorem Offered.textPiece {isFirst : Bool} (h : Offered t d isFirst taken) (ht : out.Bears t)
    (htaken : ∀ i ∈ taken, i < out.size) (cs : List Char) (span : Span) :
    (prune (t.setLabel (out.size, { t.label.2 with kind := .text (String.ofList cs), span }))
        taken).1 = Reshape.textPiece d isFirst cs span ∧
      Offered t d false (prune
        (t.setLabel (out.size, { t.label.2 with kind := .text (String.ofList cs), span }))
          taken).2 := by
  have hfresh : out.size ∉ taken := fun hmem => Nat.lt_irrefl _ (htaken _ hmem)
  cases t with
  | leaf p =>
    obtain ⟨c, rfl⟩ : ∃ c, d = .leaf c := by
      cases d with
      | leaf c => exact ⟨c, rfl⟩
      | node c es => simpa using h.children
    obtain rfl : c = p.2 := h.label
    rw [Tree.setLabel, prune_leaf hfresh]
    exact ⟨rfl, h.label, h.children, by simp, by simp⟩
  | node p us =>
    obtain ⟨c, rfl⟩ : ∃ c, d = .node c (pruneAll us ∅).1 := by
      cases d with
      | leaf c => simpa using h.children
      | node c es => exact ⟨c, by simpa using h.children⟩
    obtain rfl : c = p.2 := h.label
    have hlt : ∀ i ∈ us.flatMap Tree.ids, i < out.size := fun i hi =>
      ht.lt_size i (by rw [Tree.ids_node]; exact List.mem_cons_of_mem _ hi)
    rw [Tree.setLabel, prune_node hfresh]
    cases isFirst with
    | true =>
      have hbelow : (pruneAll us (insert out.size taken)).1 = (pruneAll us ∅).1 := by
        refine pruneAll_of_disjoint fun i hi hmem => ?_
        rcases Finset.mem_insert.mp hmem with rfl | hmem
        · exact Nat.lt_irrefl _ (hlt _ hi)
        · exact h.free rfl i hi hmem
      exact ⟨by rw [hbelow]; rfl, h.label, h.children, by simp, fun _ => roots_mem_pruneAll us _⟩
    | false =>
      have hspent : ∀ u ∈ us, u.label.1 ∈ insert out.size taken := fun u hu =>
        Finset.mem_insert_of_mem (h.spent rfl u hu)
      rw [pruneAll_of_mem hspent]
      refine ⟨?_, h.label, h.children, by simp, fun _ => hspent⟩
      simp only [Reshape.textPiece, Tree.label_node, map_husk_pruneAll]
      rfl

end Share

section Split

variable {out out' : Store} {t : Plant} {ts : List Plant} {ds : List Doc} {d : Doc}
  {taken : Finset NodeId} {src : Source}

def foundEvent (e : String × Nat) : Event := .foundExpression e.1 e.2

/-- What a text, or a list of them, is split into: plants of what stood there and of new nodes. -/
structure Parted (out out' : Store) (old : List NodeId) (vs : List Plant) : Prop where
  bears : ∀ v ∈ vs, out'.Bears v
  ids : ∀ i ∈ vs.flatMap Tree.ids, i ∈ old ∨ out.size ≤ i

theorem Parted.cons {mid : Store} {old : List NodeId} {v : Plant} {vs : List Plant}
    (h : Parted mid out' old vs) (hsize : out.size ≤ mid.size) (hv : out'.Bears v)
    (hids : ∀ i ∈ v.ids, i ∈ old ∨ out.size ≤ i) : Parted out out' old (v :: vs) where
  bears := List.forall_mem_cons.mpr ⟨hv, h.bears⟩
  ids i hi := by
    rw [List.flatMap_cons] at hi
    rcases List.mem_append.mp hi with hi | hi
    · exact hids i hi
    · exact (h.ids i hi).imp_right hsize.trans

theorem lt_size_of_mem_prune {mid : Store} (hsize : out.size ≤ mid.size)
    (htaken : ∀ i ∈ taken, i < out.size) (ht : mid.Bears t) :
    ∀ i ∈ (prune t taken).2, i < mid.size := by
  intro i hi
  rcases mem_prune hi with hi | hi
  · exact Nat.lt_of_lt_of_le (htaken i hi) hsize
  · exact ht.lt_size i hi

/-- The segments of a text from `cursor` on become copies of it and expressions between them. -/
theorem exists_piecesFrom (src : Source) (cursor : Location) (segs : List Segment)
    (h : out.Bears t) :
    ∃ out' vs, piecesFrom src t.label.1 cursor segs out =
        .ok (out', (expressionsFrom src cursor segs).map foundEvent, roots vs) ∧
      Grown out out' (roots t.children) ∧ Parted out out' (t.children.flatMap Tree.ids) vs ∧
      ∀ taken d isFirst, (∀ i ∈ taken, i < out.size) → Offered t d isFirst taken →
        (pruneAll vs taken).1 = pieces src d isFirst cursor segs := by
  induction segs generalizing cursor out with
  | nil => exact ⟨out, [], rfl, .refl out _, ⟨by simp, by simp⟩, fun _ _ _ _ _ => by simp [pieces]⟩
  | cons seg segs ih =>
    cases seg with
    | text cs =>
      by_cases hcs : cs = []
      · obtain ⟨out', vs, hrun, hgrown, hparted, hyields⟩ := ih (src.shift cursor (byteLength cs)) h
        refine ⟨out', vs, ?_, hgrown, hparted, ?_⟩
        · simpa [piecesFrom, expressionsFrom, Source.moved_eq_ok, hcs, bind, Except.bind] using hrun
        · intro taken d isFirst htaken hoffered
          rw [hyields taken d isFirst htaken hoffered, pieces, if_pos hcs]
      · have hstop : src.moved cursor (byteLength cs) = .ok (src.shift cursor (byteLength cs)) :=
          src.moved_eq_ok _ _
        obtain ⟨mid, hcopy, hsize, hcopied, hbears⟩ := exists_copyWith h (.text (String.ofList cs))
          ⟨cursor, src.shift cursor (byteLength cs)⟩
        obtain ⟨out', vs, hrun, hgrown, hparted, hyields⟩ :=
          ih (src.shift cursor (byteLength cs)) (hcopied.bears h)
        refine ⟨out', _ :: vs, ?_, hcopied.trans hgrown,
          hparted.cons hcopied.retained.size (hgrown.bears hbears) ?_, ?_⟩
        · simp [piecesFrom, expressionsFrom, hstop, hcs, hcopy, hrun, bind, Except.bind, pure,
            Except.pure]
        · intro i hi
          rw [ids_eq_cons, Tree.label_setLabel, Tree.children_setLabel, List.mem_cons] at hi
          exact hi.symm.imp_right fun heq => Nat.le_of_eq heq.symm
        · intro taken d isFirst htaken hoffered
          obtain ⟨hpiece, hnext⟩ := hoffered.textPiece h htaken cs
            ⟨cursor, src.shift cursor (byteLength cs)⟩
          have hlt := lt_size_of_mem_prune hcopied.retained.size htaken hbears
          rw [pruneAll_cons, hpiece, hyields _ d false hlt hnext, pieces, if_neg hcs]
    | expression cs =>
      obtain ⟨mid, v, hset, hadded, hbears, hroot, hnodup, hnew, hv⟩ :=
        exists_expression out (String.ofList cs)
        ⟨src.shift cursor 2, src.shift (src.shift cursor (byteLength cs + 4)) (-2)⟩
        ⟨cursor, src.shift cursor (byteLength cs + 4)⟩
      have hgrows : Grown out mid (roots t.children) := hadded.mono (List.nil_subset _)
      obtain ⟨out', vs, hrun, hgrown, hparted, hyields⟩ :=
        ih (src.shift cursor (byteLength cs + 4)) (hadded.bears h)
      refine ⟨out', v :: vs, ?_, hgrows.trans hgrown,
        hparted.cons hadded.retained.size (hgrown.bears hbears) fun i hi => .inr (hnew i hi), ?_⟩
      · simp [piecesFrom, expressionsFrom, Source.moved_eq_ok, hset, hrun, hroot, foundEvent, bind,
          Except.bind, pure, Except.pure]
      · intro taken d isFirst htaken hoffered
        have hfresh : ∀ i, out.size ≤ i → i ∉ taken := fun i hi hmem =>
          Nat.not_le_of_lt (htaken i hmem) hi
        have hlt := lt_size_of_mem_prune hadded.retained.size htaken hbears
        have hnext : Offered t d isFirst (prune v taken).2 :=
          hoffered.grow h (subset_prune _ _) fun i hi => (mem_prune hi).imp_right (hnew i)
        rw [pruneAll_cons, hyields _ d isFirst hlt hnext,
          prune_of_nodup hnodup fun i hi => hfresh i (hnew i hi), hv]
        simp [pieces, expressionPiece]

/-- The plant gives the document if it is taken as a whole. -/
def Gives (t : Plant) (d : Doc) : Prop := (prune t ∅).1 = d

theorem ripe_gives : Ripe Gives where
  leaf p := by rw [Gives, prune_leaf (by simp)]
  harvest out t d hbears h := by rw [hbears.harvest_eq, h]

theorem Gives.label (h : Gives t d) : d.label = t.label.2 := by
  subst h
  cases t with
  | leaf p => rw [prune_leaf (by simp)]; rfl
  | node p ts => rw [prune_node (by simp)]; rfl

theorem Gives.offered (h : Gives t d) (ht : out.Bears t) (htaken : ∀ i ∈ t.ids, i ∉ taken) :
    Offered t d true taken := by
  refine ⟨h.label, ?_, fun _ i hi => htaken i ?_, by simp⟩
  · subst h
    cases t with
    | leaf p => rw [prune_leaf (by simp)]; rfl
    | node p ts =>
      rw [prune_node (by simp), Tree.children?_node, Tree.children?_node, Option.map_some,
        pruneAll_of_disjoint]
      intro i hi hmem
      obtain rfl : i = p.1 := by simpa using hmem
      exact root_notMem_of_bears ht hi
  · rw [ids_eq_cons]
    exact List.mem_cons_of_mem _ hi

/-- Splitting the child `t` leaves plants in its place that give what the document is split into. -/
def SplitsAs (src : Source) (out : Store) (t : Plant) (d : Doc) : Prop :=
  ∃ out' pieces? vs, splitChild src out t.label.1 =
      .ok (out', (expressions src d).map foundEvent, pieces?) ∧
    pieces?.getD [t.label.1] = roots vs ∧ Grown out out' t.ids ∧ Parted out out' t.ids vs ∧
    ∀ taken : Finset NodeId, (∀ i ∈ taken, i < out.size ∧ i ∉ t.ids) →
      (pruneAll vs taken).1 = splitText src d

theorem splitsAs_of_stays (h : out.Bears t) (hd : Gives t d)
    (hrun : splitChild src out t.label.1 = .ok (out, [], none)) (hnone : expressions src d = [])
    (hsplit : splitText src d = [d]) : SplitsAs src out t d := by
  refine ⟨out, none, [t], by rw [hnone]; exact hrun, rfl, .refl _ _, ⟨by simpa, ?_⟩, ?_⟩
  · simpa using fun i hi => .inl hi
  · intro taken htaken
    rw [hsplit, pruneAll_of_disjoint]
    · simpa [Gives] using hd
    · simpa using fun i hi hmem => (htaken i hmem).2 hi

theorem splitsAs_of_match {value : String} {m : Match} (h : out.Bears t) (hd : Gives t d)
    (hk : t.label.2.kind = .text value) (hmatch : match? value.toList = some m) :
    SplitsAs src out t d := by
  obtain ⟨n, hn, hcontent, -⟩ := h.node_eq_ok
  have hsegs := segments_of_some hmatch
  have hsome : (find? openBraces (bytes value.toList)).isNone = false := by
    rw [find?_openBraces]
    cases hopen : breakPair '\x7b' value.toList with
    | none => simp [match?, hopen] at hmatch
    | some p => rfl
  obtain ⟨out', vs, hrun, hgrown, hparted, hyields⟩ :=
    exists_piecesFrom src t.label.2.span.start (segments value.toList) h
  have hbelow : t.children.flatMap Tree.ids ⊆ t.ids := by
    rw [ids_eq_cons]
    exact List.subset_cons_self _ _
  refine ⟨out', some (roots vs), vs, ?_, rfl, hgrown.mono fun i hi => hbelow (mem_roots hi),
    ⟨hparted.bears, fun i hi => (hparted.ids i hi).imp_left (hbelow ·)⟩, ?_⟩
  · rw [hsegs] at hrun
    simp [splitChild, hn, hcontent, hk, hsome, split_eq_ok, hsegs, hrun, expressions, hd.label,
      bind, Except.bind, pure, Except.pure]
  · intro taken htaken
    have hoffered := hd.offered h fun i hi hmem => (htaken i hmem).2 hi
    rw [hyields taken d true (fun i hi => (htaken i hi).1) hoffered]
    simp only [splitText, hd.label, hk, hsegs]

theorem splitsAs (src : Source) (h : out.Bears t) (hd : Gives t d) : SplitsAs src out t d := by
  obtain ⟨n, hn, hcontent, -⟩ := h.node_eq_ok
  have hlabel := hd.label
  cases hk : t.label.2.kind with
  | text value =>
    cases hmatch : match? value.toList with
    | none =>
      have hwhole := segments_of_none hmatch
      refine splitsAs_of_stays h hd ?_ ?_ ?_
      · cases hnone : (find? openBraces (bytes value.toList)).isNone <;>
          simp [splitChild, hn, hcontent, hk, hnone, split_eq_ok, hwhole, bind, Except.bind, pure,
            Except.pure]
      · simp [expressions, hlabel, hk, hwhole, expressionsFrom]
      · simp [splitText, hlabel, hk, hwhole]
    | some m => exact splitsAs_of_match h hd hk hmatch
  | _ =>
    refine splitsAs_of_stays h hd ?_ ?_ ?_
    · simp [splitChild, hn, hcontent, hk, bind, Except.bind, pure, Except.pure]
    · simp [expressions, hlabel, hk]
    · simp [splitText, hlabel, hk]

theorem pruneAll_append (us vs : List Plant) (taken : Finset NodeId) :
    (pruneAll (us ++ vs) taken).1 =
      (pruneAll us taken).1 ++ (pruneAll vs (pruneAll us taken).2).1 := by
  induction us generalizing taken with
  | nil => simp
  | cons u us ih => simp [ih]

theorem mem_pruneAll {i : NodeId} (h : i ∈ (pruneAll ts taken).2) :
    i ∈ taken ∨ i ∈ ts.flatMap Tree.ids := by
  refine pruneAll_keeps (P := fun taken' => ∀ i ∈ taken', i ∈ taken ∨ i ∈ ts.flatMap Tree.ids) ?_
    (fun _ => .inl) i h
  intro t ht taken' htaken' j hj
  rcases mem_prune hj with hj | hj
  · exact htaken' j hj
  · exact .inr (List.mem_flatMap.mpr ⟨t, ht, hj⟩)

theorem exists_splitAll (src : Source) (hts : ∀ t ∈ ts, out.Bears t)
    (hds : List.Forall₂ Gives ts ds) (hapart : ts.Pairwise fun t u => t.ids.Disjoint u.ids) :
    ∃ out' changed vs, splitAll src (roots ts) out =
        .ok (out', (ds.flatMap (expressions src)).map foundEvent, changed, roots vs) ∧
      (changed = false → roots vs = roots ts) ∧ Grown out out' (ts.flatMap Tree.ids) ∧
      Parted out out' (ts.flatMap Tree.ids) vs ∧
      ∀ taken : Finset NodeId, (∀ i ∈ taken, i < out.size ∧ i ∉ ts.flatMap Tree.ids) →
        (pruneAll vs taken).1 = ds.flatMap (splitText src) := by
  induction hds generalizing out with
  | nil =>
    exact ⟨out, false, [], rfl, fun _ => rfl, .refl _ _, ⟨by simp, by simp⟩, fun _ _ => by simp⟩
  | @cons t d ts ds hd _ ih =>
    rw [List.forall_mem_cons] at hts
    rw [List.pairwise_cons] at hapart
    obtain ⟨mid, pieces?, us, hrun, hpieces, hgrown, hparted, hyields⟩ :=
      splitsAs src hts.1 hd
    obtain ⟨out', changed, vs, hruns, hsame, hgrown', hparted', hyields'⟩ :=
      ih (fun u hu => hgrown.bears (hts.2 u hu)) hapart.2
    rw [List.flatMap_cons]
    refine ⟨out', pieces?.isSome || changed, us ++ vs, ?_, ?_,
      (hgrown.mono (List.subset_append_left _ _)).trans
        (hgrown'.mono (List.subset_append_right _ _)), ⟨?_, ?_⟩, ?_⟩
    · simp [splitAll, hrun, hruns, hpieces, bind, Except.bind, pure, Except.pure]
    · intro hnone
      rw [Bool.or_eq_false_iff] at hnone
      rw [Option.isSome_eq_false_iff, Option.isNone_iff_eq_none] at hnone
      rw [hnone.1] at hpieces
      simp only [List.map_append, hsame hnone.2, ← hpieces]
      rfl
    · intro v hv
      rcases List.mem_append.mp hv with hv | hv
      · exact hgrown'.bears (hparted.bears v hv)
      · exact hparted'.bears v hv
    · intro i hi
      rw [List.flatMap_append] at hi
      rcases List.mem_append.mp hi with hi | hi
      · exact (hparted.ids i hi).imp_left (List.mem_append_left _)
      · exact (hparted'.ids i hi).imp (List.mem_append_right _) hgrown.retained.size.trans
    · intro taken htaken
      have hfirst := hyields taken fun i hi =>
        ⟨(htaken i hi).1, fun hmem => (htaken i hi).2 (List.mem_append_left _ hmem)⟩
      rw [pruneAll_append, hfirst, hyields' _ ?_, List.flatMap_cons]
      intro i hi
      rcases mem_pruneAll hi with hi | hi
      · exact ⟨Nat.lt_of_lt_of_le (htaken i hi).1 hgrown.retained.size,
          fun hmem => (htaken i hi).2 (List.mem_append_right _ hmem)⟩
      · obtain ⟨v, hv, hiv⟩ := List.mem_flatMap.mp hi
        refine ⟨(hparted.bears v hv).lt_size i hiv, fun hmem => ?_⟩
        obtain ⟨u, hu, hiu⟩ := List.mem_flatMap.mp hmem
        rcases hparted.ids i hi with hit | hle
        · exact hapart.1 u hu hit hiu
        · exact Nat.not_le_of_lt ((hts.2 u hu).lt_size i hiu) hle

/-- Plants that stand apart are taken one after another. -/
theorem pruneAll_of_gives (hds : List.Forall₂ Gives ts ds)
    (hapart : ts.Pairwise fun t u => t.ids.Disjoint u.ids)
    (htaken : ∀ i ∈ ts.flatMap Tree.ids, i ∉ taken) : (pruneAll ts taken).1 = ds := by
  induction hds generalizing taken with
  | nil => simp
  | @cons t d ts ds hd _ ih =>
    rw [List.pairwise_cons] at hapart
    rw [List.flatMap_cons] at htaken
    have hfirst : (prune t taken).1 = d := by
      refine (prune_congr (S := (· ∈ t.ids)) (fun i hi => hi) fun i hi => ?_).1.trans hd
      simpa using htaken i (List.mem_append_left _ hi)
    rw [pruneAll_cons, hfirst, ih hapart.2 fun i hi hmem => ?_]
    rcases mem_prune hmem with hmem | hmem
    · exact htaken i (List.mem_append_right _ hi) hmem
    · obtain ⟨u, hu, hiu⟩ := List.mem_flatMap.mp hi
      exact hapart.1 u hu hmem hiu

theorem follows_interpolation (src : Source) : (interpolation src).Follows Gives
    (interpolationStep src) fun c ds =>
      if c.isScriptLike then [] else (ds.flatMap (expressions src)).map foundEvent := by
  intro out lo id c ts ds h
  have hid : id < out.size := lt_size_of_node? h.copy
  have hchildren : out.children id = .ok (roots ts) := by
    rw [Store.children, node_eq_ok h.copy]
    rfl
  obtain ⟨out', changed, vs, hrun, hsame, hgrown, hparted, hyields⟩ :=
    exists_splitAll src h.bears h.related h.apart
  by_cases hscript : c.isScriptLike = true
  · refine ⟨out, none, ts, ?_, Nat.le_refl _, fun _ _ => rfl, ⟨_, _, h.copy, ?_, rfl, rfl⟩,
      h.bears, ?_, h.fresh, fun i hi => h.low i (List.mem_cons_of_mem _ hi)⟩
    · simp [interpolation, node_eq_ok h.copy, hscript, bind, Except.bind, pure, Except.pure]
    · rfl
    · have hfresh : ∀ i ∈ ts.flatMap Tree.ids, i ∉ ({id} : Finset NodeId) := fun i hi hmem =>
        h.fresh (Finset.mem_singleton.mp hmem ▸ hi)
      have hgives := pruneAll_of_gives h.related h.apart hfresh
      rw [Gives, prune_node (by simp)]
      simp [interpolationStep, hscript, hgives]
  · obtain ⟨n, hn, hcontent, hids⟩ := hgrown.retained.nodes id _ h.copy
    have hbelow : ∀ i ∈ vs.flatMap Tree.ids, i ≠ id ∧ lo ≤ i := by
      intro i hi
      rcases hparted.ids i hi with hi | hle
      · exact ⟨fun heq => h.fresh (heq ▸ hi), h.low i (List.mem_cons_of_mem _ hi)⟩
      · exact ⟨fun heq => Nat.not_le_of_lt hid (heq ▸ hle),
          (h.low id List.mem_cons_self).trans ((Nat.le_of_lt hid).trans hle)⟩
    refine ⟨out', if changed then some (roots vs) else none, vs, ?_, hgrown.retained.size, ?_,
      ⟨n, roots ts, hn, ?_, hids, ?_⟩, hparted.bears, ?_, fun hmem => (hbelow id hmem).1 rfl,
      fun i hi => (hbelow i hi).2⟩
    · simp [interpolation, node_eq_ok h.copy, hscript, hchildren, hrun, bind, Except.bind, pure,
        Except.pure]
    · intro i hi
      have hlow := h.low id List.mem_cons_self
      refine hgrown.frame i (Nat.lt_trans (Nat.lt_of_lt_of_le hi hlow) hid) fun hmem => ?_
      exact Nat.not_le_of_lt hi (h.low i (List.mem_cons_of_mem _ hmem))
    · exact hcontent
    · cases changed with
      | true => rfl
      | false => exact (hsame rfl).symm
    · have hgives := hyields {id} fun i hi => by
        obtain rfl := Finset.mem_singleton.mp hi
        exact ⟨hid, h.fresh⟩
      rw [Gives, prune_node (by simp)]
      simp [interpolationStep, hscript, hgives]

end Split

end Rewrite

end Markup
