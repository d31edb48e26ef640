import Markup.Proofs.Tending
import Markup.Reshape.Cdata
import Markup.Reshape.SimpleElement
import Markup.Rewrite.Cdata
import Markup.Rewrite.SimpleElement
import Mathlib.Data.List.Induction

/-! Editors that join children. Both loops keep a list of the nodes that are done and append to the
last of them, where the functions on documents join a list from its end or two neighbours at a
time. -/
namespace Markup.Rewrite

open Store

variable {out mid out' : Store} {id : NodeId} {c : Content} {t m : Plant} {ts ms us : List Plant}

section Cdata

open Reshape (joinText coalesce isCdata)

def pushText (ds : List Doc) (d : Doc) : List Doc :=
  match ds.getLast? with
  | none => [d]
  | some l => ds.dropLast ++ joinText l [d]

def joined (l d : Doc) (value : String) : Doc :=
  l.setLabel { l.label with
    kind := .text value, span := { l.label.span with stop := d.label.span.stop } }

theorem joinText_of_text {l d : Doc} {v w : String} (hl : l.label.kind = .text v)
    (hd : d.label.kind = .text w) (ds : List Doc) :
    joinText l (d :: ds) = joined l d (v ++ w) :: ds := by
  simp [joinText, hl, hd, joined]

theorem joinText_of_not_text {l d : Doc}
    (h : (l.label.kind.isText && d.label.kind.isText) = false) (ds : List Doc) :
    joinText l (d :: ds) = l :: d :: ds := by
  cases hl : l.label.kind <;> cases hd : d.label.kind <;> simp_all [joinText, Kind.isText]

theorem joinText_eq_cons (d : Doc) (ds : List Doc) :
    ∃ e es, joinText d ds = e :: es ∧ e.label.kind.isText = d.label.kind.isText := by
  cases ds with
  | nil => exact ⟨d, [], by cases hd : d.label.kind <;> simp [joinText, hd], rfl⟩
  | cons e es =>
    by_cases hboth : (d.label.kind.isText && e.label.kind.isText) = true
    · rw [Bool.and_eq_true] at hboth
      obtain ⟨v, hd⟩ := Kind.isText_iff.mp hboth.1
      obtain ⟨w, he⟩ := Kind.isText_iff.mp hboth.2
      exact ⟨_, es, joinText_of_text hd he es, by simp [joined, hd, Kind.isText]⟩
    · rw [Bool.not_eq_true] at hboth
      exact ⟨d, e :: es, joinText_of_not_text hboth es, rfl⟩

/-- It does not matter in which order texts are joined. -/
theorem joinText_joined {l d : Doc} {v w : String} (hl : l.label.kind = .text v)
    (hd : d.label.kind = .text w) (ds : List Doc) :
    joinText (joined l d (v ++ w)) ds = joinText l (joinText d ds) := by
  have hjoined : (joined l d (v ++ w)).label.kind = .text (v ++ w) := by simp [joined]
  cases ds with
  | nil => simp [joinText, hl, hd, joined]
  | cons e ds =>
    by_cases he : e.label.kind.isText = true
    · obtain ⟨x, hx⟩ := Kind.isText_iff.mp he
      have hde : (joined d e (w ++ x)).label.kind = .text (w ++ x) := by simp [joined]
      rw [joinText_of_text hjoined hx, joinText_of_text hd hx, joinText_of_text hl hde]
      simp [joined, Tree.setLabel_setLabel, String.append_assoc]
    · rw [joinText_of_not_text (by simp [he]), joinText_of_not_text (by simp [he]),
        joinText_of_text hl hd]

/-- Joining as one goes along is joining from the end. -/
theorem foldl_pushText (init : List Doc) (l : Doc) (ds : List Doc) :
    ds.foldl pushText (init ++ [l]) = init ++ coalesce (l :: ds) := by
  induction ds generalizing init l with
  | nil => simp [coalesce, joinText]
  | cons d ds ih =>
    have hpush : pushText (init ++ [l]) d = init ++ joinText l [d] := by simp [pushText]
    have hcoalesce : coalesce (l :: d :: ds) = joinText l (joinText d (coalesce ds)) := rfl
    rw [List.foldl_cons, hpush, hcoalesce]
    by_cases hboth : (l.label.kind.isText && d.label.kind.isText) = true
    · rw [Bool.and_eq_true] at hboth
      obtain ⟨v, hl⟩ := Kind.isText_iff.mp hboth.1
      obtain ⟨w, hd⟩ := Kind.isText_iff.mp hboth.2
      rw [joinText_of_text hl hd, ih, ← joinText_joined hl hd]
      rfl
    · rw [Bool.not_eq_true] at hboth
      obtain ⟨e, es, hes, he⟩ := joinText_eq_cons d (coalesce ds)
      have hcons : init ++ [l, d] = (init ++ [l]) ++ [d] := by simp
      rw [joinText_of_not_text hboth, hcons, ih, hes,
        joinText_of_not_text (by rw [he]; exact hboth), ← hes, List.append_assoc]
      rfl

theorem foldl_pushText_nil (ds : List Doc) : ds.foldl pushText [] = coalesce ds := by
  cases ds with
  | nil => rfl
  | cons d ds => exact foldl_pushText [] d ds

theorem exists_appendText {a b : List Plant} (h : Garden out (a ++ m :: b)) (ht : out.Bears t)
    {v w : String} (hv : m.label.2.kind = .text v) (hw : t.label.2.kind = .text w) :
    ∃ out' m', appendText out m.label.1 t.label.1 = .ok out' ∧ Turns out out' m m' ∧
      m'.map Prod.snd = joined (m.map Prod.snd) (t.map Prod.snd) (v ++ w) := by
  obtain ⟨n, hn, hcontent, -⟩ := ht.node_eq_ok
  obtain ⟨out', m', hedit, hturns, hm'⟩ := h.edit (.extendText w t.label.2.span.stop)
  refine ⟨out', m', ?_, hturns, ?_⟩
  · simp [appendText, hn, hcontent, hw, Kind.text?, hedit, bind, Except.bind]
  · simp [hm', joined, Tree.label_map, Content.extendText, hv]

theorem exists_placeText (h : Garden out (ms ++ t :: ts)) (ht : t.label.2.kind.isText = true) :
    ∃ out' ms', placeText out (roots ms) t.label.1 = .ok (out', roots ms') ∧
      Tended out out' (ms ++ t :: ts) (ms' ++ ts) ∧
      docs ms' = pushText (docs ms) (t.map Prod.snd) := by
  have hstay : Tended out out (ms ++ t :: ts) ((ms ++ [t]) ++ ts) := by
    simpa using h.tended
  rcases List.eq_nil_or_concat ms with rfl | ⟨init, m, rfl⟩
  · exact ⟨out, [t], rfl, hstay, rfl⟩
  · rw [List.concat_eq_append] at *
    have hm : out.Bears m := h.bears m (by simp)
    have htb : out.Bears t := h.bears t (by simp)
    obtain ⟨n, hn, hcontent, -⟩ := hm.node_eq_ok
    have hpush : pushText (docs (init ++ [m])) (t.map Prod.snd) =
        docs init ++ joinText (m.map Prod.snd) [t.map Prod.snd] := by simp [pushText]
    rw [hpush]
    by_cases hmt : m.label.2.kind.isText = true
    · obtain ⟨v, hv⟩ := Kind.isText_iff.mp hmt
      obtain ⟨w, hw⟩ := Kind.isText_iff.mp ht
      have hmid : Garden out (init ++ m :: t :: ts) := by simpa using h
      obtain ⟨out', m', hrun, hturns, hm'⟩ := exists_appendText hmid htb hv hw
      refine ⟨out', init ++ [m'], ?_, ?_, ?_⟩
      · simp [placeText, hn, hcontent, hmt, hrun, hturns.root, bind, Except.bind, pure, Except.pure]
      · have hdrop : Garden out' ((init ++ [m']) ++ t :: ts) := by simpa using hmid.turn hturns
        have htended : Tended out out' (init ++ m :: t :: ts) ((init ++ [m']) ++ ts) :=
          hturns.tended (by simpa using hdrop.drop.tended.drop (t := t))
        simpa using htended
      · rw [joinText_of_text (by rw [Tree.label_map]; exact hv) (by rw [Tree.label_map]; exact hw)]
        simp [hm']
    · refine ⟨out, (init ++ [m]) ++ [t], ?_, hstay, ?_⟩
      · simp [placeText, hn, hcontent, hmt, bind, Except.bind, pure, Except.pure]
      · rw [joinText_of_not_text (by simp [Tree.label_map, hmt])]
        simp

/-- What does not become text is put behind the plants that are done as it is. -/
theorem pushText_of_not_text {d : Doc} (hd : d.label.kind.isText = false) (ds : List Doc) :
    pushText ds d = ds ++ [d] := by
  rcases List.eq_nil_or_concat ds with rfl | ⟨init, l, rfl⟩
  · rfl
  · simp [pushText, joinText_of_not_text (l := l) (d := d) (by simp [hd])]

theorem exists_toText {a b : List Plant} (h : Garden out (a ++ t :: b)) (value : String) :
    ∃ out', toText out t.label.1 value = .ok out' ∧
      Turns out out' t (.leaf (t.label.1, { t.label.2 with kind := .text value })) := by
  have hmem : t ∈ a ++ t :: b := List.mem_append_right _ List.mem_cons_self
  obtain ⟨mid, hedit, hturns⟩ := (h.bears t hmem).edit ((List.nodup_flatMap.mp h.nodup).1 t hmem)
    fun c => { c with kind := .text value }
  obtain ⟨n, hn, hcontent, -⟩ := hturns.bears.self
  rw [Tree.label_setLabel] at hn hcontent
  refine ⟨_, by rw [toText, hedit]; rfl, ?_, ?_, ?_, rfl⟩
  · exact hturns.touches.trans (touches_adjust mid _ (List.mem_singleton_self _))
      (by simpa using root_mem_ids t)
  · refine bears_leaf.mpr ⟨{ n with children := none }, ?_, hcontent, rfl⟩
    rw [node?_adjust_self, hn]
    rfl
  · simpa [Tree.ids] using root_mem_ids t

theorem isCdata_eq (d : Doc) : (sectionText? d.label.kind).isSome = isCdata d := by
  cases hd : d.label.kind <;> simp [sectionText?, isCdata, hd]

/-- The nodes from some point of the list on are put behind those that are done. -/
theorem exists_mergeFrom (h : Garden out (ms ++ ts)) :
    ∃ out' us, mergeFrom (ts.map fun t => (t.label.1, isCdata (t.map Prod.snd))) (roots ms) out =
        .ok (out', roots us) ∧ Tended out out' (ms ++ ts) us ∧
      docs us = ((docs ts).map Reshape.literal).foldl pushText (docs ms) := by
  induction ts generalizing out ms with
  | nil => exact ⟨out, ms, rfl, by simpa using h.tended, rfl⟩
  | cons t ts ih =>
    have hbears : out.Bears t := h.bears t (by simp)
    obtain ⟨n, hn, hcontent, -⟩ := hbears.node_eq_ok
    have hkind : n.kind = t.label.2.kind := congrArg Content.kind hcontent
    have hmark : isCdata (t.map Prod.snd) = (sectionText? t.label.2.kind).isSome := by
      rw [← isCdata_eq, Tree.label_map]
    cases hk : t.label.2.kind with
    | cdata value =>
      obtain ⟨mid, htext, hturns⟩ := exists_toText h ("<![CDATA[" ++ value ++ "]]>")
      obtain ⟨mid', ms', hplace, hms', hdocs⟩ := exists_placeText (h.turn hturns) rfl
      obtain ⟨out', us, hrun, hus, hdocs'⟩ := ih (hms'.garden (h.turn hturns))
      refine ⟨out', us, ?_, hturns.tended (hms'.trans hus), ?_⟩
      · simp only [Tree.label_leaf] at hplace
        simp [mergeFrom, hmark, hn, hkind, hk, sectionText?, htext, hplace, hrun, bind, Except.bind]
      · rw [hdocs', hdocs]
        simp [Reshape.literal, Tree.label_map, hk]
    | text value =>
      obtain ⟨mid, ms', hplace, hms', hdocs⟩ := exists_placeText h (by rw [hk]; rfl)
      obtain ⟨out', us, hrun, hus, hdocs'⟩ := ih (hms'.garden h)
      refine ⟨out', us, ?_, hms'.trans hus, ?_⟩
      · simp [mergeFrom, hmark, hn, hkind, hk, sectionText?, Kind.isText, hplace, hrun, bind,
          Except.bind]
      · rw [hdocs', hdocs]
        simp [Reshape.literal, Tree.label_map, hk]
    | _ =>
      obtain ⟨out', us, hrun, hus, hdocs⟩ := ih
        (show Garden out ((ms ++ [t]) ++ ts) by simpa using h)
      refine ⟨out', us, ?_, by simpa using hus, ?_⟩
      · simpa [mergeFrom, hmark, hn, hkind, hk, sectionText?, Kind.isText, bind,
          Except.bind] using hrun
      · rw [hdocs, docs_cons, List.map_cons, List.foldl_cons, pushText_of_not_text]
        · simp [Reshape.literal, Tree.label_map, hk]
        · simp [Reshape.literal, Tree.label_map, hk, Kind.isText]

theorem mapM_isSection (h : ∀ t ∈ ts, out.Bears t) :
    ((roots ts).mapM fun id => (out.node id).map fun n => (sectionText? n.kind).isSome) =
      .ok ((docs ts).map isCdata) := by
  induction ts with
  | nil => rfl
  | cons t ts ih =>
    rw [List.forall_mem_cons] at h
    obtain ⟨n, hn, hcontent, -⟩ := h.1.node_eq_ok
    have hmark : (sectionText? n.kind).isSome = isCdata (t.map Prod.snd) := by
      rw [← isCdata_eq, Tree.label_map, ← hcontent]
    rw [roots_cons, List.mapM_cons, hn, ih h.2]
    simp [Except.map, hmark, bind, Except.bind, pure, Except.pure]

theorem tidies_cdata : cdata.Tidies Reshape.cdataStep fun _ _ => [] := by
  intro out id c ts h
  have hmarks := mapM_isSection h.garden.bears
  have hany : ((docs ts).map isCdata).contains true = (docs ts).any isCdata := by
    rw [List.contains_eq_any_beq, List.any_map]
    simp [Function.comp_def]
  cases hsome : (docs ts).any isCdata with
  | true =>
    obtain ⟨out', us, hrun, hus, hdocs⟩ := exists_mergeFrom
      (show Garden out ([] ++ ts) from h.garden)
    refine ⟨out', some (roots us), us, ?_, ?_, ?_⟩
    · have hzip : (roots ts).zip ((docs ts).map isCdata) =
          ts.map fun t => (t.label.1, isCdata (t.map Prod.snd)) := by
        simp [docs, List.zip_map']
      simp only [cdata, h.children_eq_ok, hmarks, hany, hsome, hzip, Bool.not_true, bind,
        Except.bind, pure, Except.pure]
      rw [show mergeFrom _ [] out = .ok (out', roots us) from hrun]
      rfl
    · simpa [Reshape.cdataStep, hsome] using h.tidied hus rfl
    · simpa [Reshape.cdataStep, hsome, foldl_pushText_nil] using hdocs
  | false =>
    refine h.stays ?_ ?_ rfl
    · simp only [cdata, h.children_eq_ok, hmarks, hany, hsome, Bool.not_false, if_true, bind,
        Except.bind, pure, Except.pure]
    · simp [Reshape.cdataStep, hsome]

end Cdata

section SimpleElement

open Reshape (isSimpleBetween joinAcross markup textOf foldBehind foldedBehind)

variable {p : Option Plant} {q : Plant}

def isTextDoc (d : Doc) : Bool := d.label.kind.isText

/-- Which documents of a list are simple elements between two texts. -/
def simplesIn : Option Doc → List Doc → List Bool
  | _, [] => []
  | prev, d :: ds =>
    (prev.any isTextDoc && Reshape.isSimple d && ds.head?.any isTextDoc) :: simplesIn (some d) ds

theorem isTextAt_eq_ok (hp : ∀ u ∈ p, out.Bears u) :
    isTextAt out (p.map fun u => u.label.1) = .ok ((p.map (Tree.map Prod.snd)).any isTextDoc) := by
  cases p with
  | none => rfl
  | some u =>
    obtain ⟨n, hn, hcontent, -⟩ := (hp u rfl).node_eq_ok
    simp [isTextAt, hn, hcontent, Except.map, isTextDoc, Tree.label_map]

theorem isSimple_eq_ok {q : Option Plant} {n : Node} (hp : ∀ u ∈ p, out.Bears u)
    (hq : ∀ u ∈ q, out.Bears u) (ht : out.Bears t) (hn : out.node? t.label.1 = some n)
    (hprev : n.prev = p.map fun u => u.label.1) (hnext : n.next = q.map fun u => u.label.1) :
    isSimple out t.label.1 = .ok ((p.map (Tree.map Prod.snd)).any isTextDoc &&
      Reshape.isSimple (t.map Prod.snd) && (q.map (Tree.map Prod.snd)).any isTextDoc) := by
  obtain ⟨m, hm, hcontent, -⟩ := ht.self
  obtain rfl : m = n := Option.some.inj (hm.symm.trans hn)
  have hnode := Store.node_eq_ok hn
  have hchildren := ht.children_eq_ok
  cases hk : t.label.2.kind with
  | element e =>
    match hts : t.children with
    | [] => simp [isSimple, Reshape.isSimple, hnode, hchildren, hcontent, hk, hts, Tree.label_map,
        Tree.children_map, bind, Except.bind, pure, Except.pure]
    | [u] =>
      have hmem : u ∈ t.children := by rw [hts]; exact List.mem_cons_self
      obtain ⟨inner, hinner, hcontent', -⟩ := (ht.of_mem_children hmem).node_eq_ok
      have hrun : isSimple out t.label.1 = if Reshape.isSimple (t.map Prod.snd) then do
          return (← isTextAt out m.prev) && (← isTextAt out m.next) else pure false := by
        simp [isSimple, Reshape.isSimple, Reshape.isWord, hnode, hchildren, hinner, hcontent,
          hcontent', hk, hts, Tree.label_map, Tree.children_map, and_assoc, bind, Except.bind]
      rw [hrun, hprev, hnext, isTextAt_eq_ok hp, isTextAt_eq_ok hq]
      cases Reshape.isSimple (t.map Prod.snd) <;>
        simp [bind, Except.bind, pure, Except.pure]
    | _ :: _ :: _ => simp [isSimple, Reshape.isSimple, hnode, hchildren, hcontent, hk, hts,
        Tree.label_map, Tree.children_map, bind, Except.bind, pure, Except.pure]
  | _ => simp [isSimple, Reshape.isSimple, hnode, hchildren, hcontent, hk, Tree.label_map, bind,
      Except.bind, pure, Except.pure]

theorem mapM_isSimple (hp : ∀ u ∈ p, out.Bears u) (hts : ∀ t ∈ ts, out.Bears t)
    (hstrung : out.Strung (p.map fun u => u.label.1) (roots ts)) :
    (roots ts).mapM (isSimple out) =
      .ok (simplesIn (p.map (Tree.map Prod.snd)) (docs ts)) := by
  induction ts generalizing p with
  | nil => rfl
  | cons t ts ih =>
    rw [List.forall_mem_cons] at hts
    obtain ⟨⟨n, hn, hprev, hnext⟩, hrest⟩ := hstrung
    have htail := ih (p := some t) (by simpa using hts.1) hts.2 hrest
    have hq : ∀ u ∈ ts.head?, out.Bears u := fun u hu => hts.2 u (List.mem_of_head? hu)
    rw [List.head?_map] at hnext
    rw [roots_cons, List.mapM_cons, isSimple_eq_ok hp hq hts.1 hn hprev hnext, htail,
      ← List.head?_map]
    rfl

theorem literal_eq_ok (ht : out.Bears t) :
    literal out t.label.1 = .ok (markup (t.map Prod.snd)) := by
  obtain ⟨n, hn, hcontent, -⟩ := ht.node_eq_ok
  have hfirst := ht.firstChild?_eq_ok
  cases hts : t.children with
  | nil => simp [literal, markup, hn, hcontent, hfirst, hts, Tree.label_map, Tree.children_map,
      bind, Except.bind, pure, Except.pure]
  | cons u us =>
    have hmem : u ∈ t.children := by rw [hts]; exact List.mem_cons_self
    obtain ⟨inner, hinner, hcontent', -⟩ := (ht.of_mem_children hmem).node_eq_ok
    simp [literal, markup, textOf, hn, hcontent, hfirst, hts, hinner, hcontent', Except.map,
      Tree.label_map, Tree.children_map, bind, Except.bind, pure, Except.pure]

theorem exists_extend {a b : List Plant} (h : Garden out (a ++ m :: b)) (hq : out.Bears q)
    (hm : m.label.2.kind.isText = true) (d : Doc) :
    ∃ out' m', extend out m.label.1 q.label.1 (markup d) = .ok out' ∧ Turns out out' m m' ∧
      m'.map Prod.snd = joinAcross (m.map Prod.snd) d (q.map Prod.snd) := by
  obtain ⟨n, hn, hcontent, -⟩ := hq.node_eq_ok
  obtain ⟨v, hv⟩ := Kind.isText_iff.mp hm
  obtain ⟨out', m', hedit, hturns, hm'⟩ := h.edit (goOn (markup d) q.label.2)
  refine ⟨out', m', ?_, hturns, ?_⟩
  · simp [extend, hn, hcontent, hedit, bind, Except.bind]
  · simp [hm', joinAcross, goOn, Content.extendText, textOf, hv, Kind.text?, Tree.label_map,
      String.append_assoc]

theorem foldElements_of_false {ids rest : List NodeId} {marks bs : List Bool} {i : Nat}
    (hids : ids.drop i = id :: rest) (hmarks : marks.drop i = false :: bs) (done : List NodeId)
    (out : Store) :
    foldElements ids marks i done out = foldElements ids marks (i + 1) (done ++ [id]) out := by
  have hid := Checked.getElem?_of_drop hids
  have hmark := Checked.getElem?_of_drop hmarks
  obtain ⟨hlt, -⟩ := List.getElem?_eq_some_iff.mp hid
  rw [foldElements, if_pos hlt, Checked.get_eq_ok hid, Checked.get_eq_ok hmark]
  rfl

theorem foldElements_of_true {ids rest done : List NodeId} {marks bs : List Bool} {i : Nat}
    {last next : NodeId} (hids : ids.drop i = id :: next :: rest)
    (hmarks : marks.drop i = true :: bs)
    (hlast : done.getLast? = some last) (out : Store) :
    foldElements ids marks i done out = (do
      let markup ← literal out id
      let out ← extend out last next markup
      let (out, events, done) ← foldElements ids marks (i + 2) done out
      return (out, .foldedElement markup :: events, done)) := by
  have hid := Checked.getElem?_of_drop hids
  have hnext := Checked.getElem?_of_drop (Checked.drop_succ_of_drop hids)
  have hmark := Checked.getElem?_of_drop hmarks
  obtain ⟨hlt, -⟩ := List.getElem?_eq_some_iff.mp hid
  rw [foldElements, if_pos hlt, Checked.get_eq_ok hid, Checked.get_eq_ok hmark, hlast, hnext]
  rfl

/-- A marked element is folded into the last plant that is done, with the text behind it. -/
theorem exists_foldElements_of_true {ids rest : List NodeId} {marks bs : List Bool} {i : Nat}
    {init : List Plant} {u v : Plant} (h : Garden out (init ++ m :: u :: v :: ts))
    (hids : ids.drop i = u.label.1 :: v.label.1 :: rest) (hmarks : marks.drop i = true :: bs)
    (hm : m.label.2.kind.isText = true) :
    ∃ mid m', Turns out mid m m' ∧
      m'.map Prod.snd = joinAcross (m.map Prod.snd) (u.map Prod.snd) (v.map Prod.snd) ∧
      ∀ out' events done,
        foldElements ids marks (i + 2) (roots (init ++ [m'])) mid = .ok (out', events, done) →
        foldElements ids marks i (roots (init ++ [m])) out =
          .ok (out', .foldedElement (markup (u.map Prod.snd)) :: events, done) := by
  obtain ⟨mid, m', hextend, hturns, hm'⟩ :=
    exists_extend h (h.bears v (by simp)) hm (u.map Prod.snd)
  refine ⟨mid, m', hturns, hm', fun out' events done hrun => ?_⟩
  have hroots : roots (init ++ [m']) = roots (init ++ [m]) := by simp [hturns.root]
  have hlast : (roots (init ++ [m])).getLast? = some m.label.1 := by simp
  rw [hroots] at hrun
  rw [foldElements_of_true hids hmarks hlast, literal_eq_ok (h.bears u (by simp))]
  simp only [hextend, hrun, bind, Except.bind, pure, Except.pure]

/-- From some point of the list on, the elements are folded behind the last plant that is done. That
one is text just if the document `d` before that point is. -/
theorem exists_foldElements {ids : List NodeId} {marks : List Bool} {i : Nat} {init : List Plant}
    {d : Doc} (h : Garden out (init ++ m :: ts)) (hids : ids.drop i = roots ts)
    (hmarks : marks.drop i = simplesIn (some d) (docs ts))
    (hd : isTextDoc d = isTextDoc (m.map Prod.snd)) :
    ∃ out' us, foldElements ids marks i (roots (init ++ [m])) out =
        .ok (out', (foldedBehind (m.map Prod.snd) (docs ts)).map .foldedElement, roots us) ∧
      Tended out out' (init ++ m :: ts) us ∧
      docs us = docs init ++ foldBehind (m.map Prod.snd) (docs ts) := by
  induction ts using List.twoStepInduction generalizing out init m d i with
  | nil =>
    have hlength := List.drop_eq_nil_iff.mp hids
    refine ⟨out, init ++ [m], ?_, h.tended, by simp [foldBehind]⟩
    rw [foldElements, if_neg (Nat.not_lt.mpr hlength)]
    rfl
  | singleton u =>
    have hlength : ids.length ≤ i + 1 := by
      have hdrop := congrArg List.length hids
      simp only [List.length_drop, List.length_map, List.length_singleton] at hdrop
      omega
    have hmark : marks.drop i = [false] := by simp [hmarks, simplesIn]
    refine ⟨out, init ++ [m, u], ?_, h.tended, by simp [foldBehind]⟩
    rw [foldElements_of_false hids hmark, foldElements, if_neg (Nat.not_lt.mpr hlength)]
    simp [foldedBehind]
  | cons_cons u v ts ih ih' =>
    have hrest : ids.drop (i + 1) = roots (v :: ts) := Checked.drop_succ_of_drop hids
    have hmark : marks.drop i =
        isSimpleBetween (m.map Prod.snd) (u.map Prod.snd) (v.map Prod.snd) ::
          simplesIn (some (u.map Prod.snd)) (docs (v :: ts)) := by
      rw [hmarks, docs_cons, simplesIn, Option.any_some, hd]
      rfl
    have hmarks' := Checked.drop_succ_of_drop hmark
    cases hsimple : isSimpleBetween (m.map Prod.snd) (u.map Prod.snd) (v.map Prod.snd) with
    | true =>
      rw [hsimple] at hmark
      have hrest' : ids.drop (i + 2) = roots ts := Checked.drop_succ_of_drop hrest
      have hmarks'' : marks.drop (i + 2) = simplesIn (some (v.map Prod.snd)) (docs ts) :=
        Checked.drop_succ_of_drop hmarks'
      have hboth := hsimple
      simp only [isSimpleBetween, Bool.and_eq_true, Tree.label_map] at hboth
      obtain ⟨mid, m', hturns, hm', hstep⟩ := exists_foldElements_of_true h hids hmark hboth.1.1
      have hgarden : Garden mid ((init ++ [m']) ++ u :: v :: ts) := by simpa using h.turn hturns
      have hd' : isTextDoc (v.map Prod.snd) = isTextDoc (m'.map Prod.snd) := by
        rw [isTextDoc, Tree.label_map, hboth.2, hm']
        simp [isTextDoc, joinAcross, Kind.isText]
      obtain ⟨out', us, hrun, hus, hdocs⟩ :=
        ih (by simpa using hgarden.drop.drop) hrest' hmarks'' hd'
      have hus' : Tended mid out' ((init ++ [m']) ++ ts) us := by simpa using hus
      refine ⟨out', us, ?_, hturns.tended (by simpa using hus'.drop.drop (t := u)), ?_⟩
      · rw [hstep _ _ _ hrun]
        simp [foldedBehind, hsimple, hm']
      · simpa [foldBehind, hsimple, hm'] using hdocs
    | false =>
      rw [hsimple] at hmark
      have hgarden : Garden out ((init ++ [m]) ++ u :: v :: ts) := by simpa using h
      obtain ⟨out', us, hrun, hus, hdocs⟩ := ih' v hgarden hrest hmarks' rfl
      refine ⟨out', us, ?_, by simpa using hus, ?_⟩
      · rw [foldElements_of_false hids hmark]
        simpa [foldedBehind, hsimple] using hrun
      · simpa [foldBehind, hsimple] using hdocs

theorem foldBehind_of_not_contains {d : Doc} {ds : List Doc}
    (h : (simplesIn (some d) ds).contains true = false) :
    foldBehind d ds = d :: ds ∧ foldedBehind d ds = [] := by
  induction ds generalizing d with
  | nil => exact ⟨rfl, rfl⟩
  | cons e ds ih =>
    cases ds with
    | nil => exact ⟨rfl, rfl⟩
    | cons v ds =>
      rw [simplesIn, List.contains_cons, Bool.or_eq_false_iff] at h
      have hsimple : isSimpleBetween d e v = false := by
        simpa [isSimpleBetween, isTextDoc] using h.1
      obtain ⟨hfold, hfolded⟩ := ih h.2
      simp [foldBehind, foldedBehind, hsimple, hfold, hfolded]

theorem tidies_simpleElement : simpleElement.Tidies Reshape.simpleElementStep fun _ ds =>
    (Reshape.folded ds).map .foldedElement := by
  intro out id c ts h
  have hmarks : (roots ts).mapM (isSimple out) = .ok (simplesIn none (docs ts)) :=
    mapM_isSimple (p := none) (by simp) h.garden.bears h.strung
  cases ts with
  | nil =>
    refine h.stays ?_ rfl rfl
    simp [simpleElement, h.children_eq_ok, bind, Except.bind, pure, Except.pure]
  | cons t ts =>
    have hfirst : simplesIn none (docs (t :: ts)) =
        false :: simplesIn (some (t.map Prod.snd)) (docs ts) :=
      rfl
    rw [hfirst] at hmarks
    cases hsome : (simplesIn (some (t.map Prod.snd)) (docs ts)).contains true with
    | true =>
      have hrest : (roots (t :: ts)).drop 1 = roots ts := rfl
      have hmarks' : (false :: simplesIn (some (t.map Prod.snd)) (docs ts)).drop 1 =
          simplesIn (some (t.map Prod.snd)) (docs ts) := rfl
      obtain ⟨out', us, hrun, hus, hdocs⟩ :=
        exists_foldElements (show Garden out ([] ++ t :: ts) from h.garden) hrest hmarks' rfl
      refine ⟨out', some (roots us), us, ?_, h.tidied hus rfl, hdocs⟩
      simp only [simpleElement, h.children_eq_ok, hmarks, List.contains_cons, hsome, Bool.or_true,
        Bool.not_true, bind, Except.bind, pure, Except.pure]
      rw [foldElements_of_false rfl rfl,
        show foldElements _ _ (0 + 1) ([] ++ [_]) out = _ from hrun]
      rfl
    | false =>
      obtain ⟨hfold, hfolded⟩ := foldBehind_of_not_contains hsome
      refine h.stays ?_ ?_ ?_
      · simp only [simpleElement, h.children_eq_ok, hmarks, List.contains_cons, hsome, bind,
          Except.bind, pure, Except.pure]
        rfl
      · simp [Reshape.simpleElementStep, Reshape.foldSimple, hfold]
      · simp [Reshape.folded, hfolded]

end SimpleElement

end Markup.Rewrite
