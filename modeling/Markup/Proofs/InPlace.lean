import Markup.Proofs.Tending
import Markup.Rewrite.Conditional
import Markup.Rewrite.Linefeed
import Markup.Rewrite.Whitespace

/-! Editors that change each child by itself: line feeds are dropped, conditional comments folded
and whitespace cut off in place as they are in documents. -/
namespace Markup.Rewrite

open Store

variable {out mid out' : Store} {id : NodeId} {c : Content} {t : Plant} {ts us : List Plant}

section Linefeed

variable {src : Source}

theorem exists_dropLinefeed (src : Source) (h : Held out id c (t :: ts)) :
    ∃ out' children? us, dropLinefeed src out id t.label.1 = .ok (out', [], children?) ∧
      Tidied out out' id (t :: ts) c children? us ∧
      docs us = Reshape.dropLinefeed src (docs (t :: ts)) := by
  obtain ⟨n, hn, hcontent, -⟩ := (h.garden.bears t List.mem_cons_self).node_eq_ok
  have hkind : n.kind = t.label.2.kind := congrArg Content.kind hcontent
  rw [docs_cons, Reshape.dropLinefeed, Tree.label_map]
  cases hrest : t.label.2.kind.text?.bind Reshape.afterLinefeed? with
  | none =>
    refine ⟨out, none, t :: ts, ?_, h.kept, rfl⟩
    simp [dropLinefeed, hn, hkind, hrest, bind, Except.bind, pure, Except.pure]
  | some rest =>
    by_cases hempty : rest = ""
    · subst hempty
      refine ⟨out, some (roots ts), ts, ?_, h.tidied ?_ rfl, rfl⟩
      · simp [dropLinefeed, hn, hkind, hrest, h.children_eq_ok, Checked.from_eq_ok, bind,
          Except.bind, pure, Except.pure]
      · exact Tended.drop (a := []) h.garden.tail.tended
    · obtain ⟨out', t', hedit, hturns, ht'⟩ := h.garden.edit (a := []) (.setText rest
        { t.label.2.span with start := src.shift t.label.2.span.start 1 })
      refine ⟨out', none, t' :: ts, ?_, h.tidied (h.garden.tended_cons hturns ?_) ?_, ?_⟩
      · simp [dropLinefeed, hn, hrest, hempty, Source.moved_eq_ok, hcontent, hedit, bind,
          Except.bind, pure, Except.pure]
      · exact (h.garden.turn (a := []) hturns).tail.tended
      · simp [hturns.root]
      · simp [ht', Content.setText]

theorem tidies_linefeed (src : Source) :
    (linefeed src).Tidies (Reshape.linefeedStep src) fun _ _ => [] := by
  intro out id c ts h
  cases hkind : c.kind with
  | element e =>
    by_cases hignores : e.tag.ignoresFirstLinefeed = true
    · cases ts with
      | nil =>
        refine h.stays ?_ ?_ rfl
        · simp [linefeed, h.node_eq_ok, h.firstChild?_eq_ok, hkind, hignores, bind, Except.bind,
            pure, Except.pure]
        · simp [Reshape.linefeedStep, hkind, hignores, Reshape.dropLinefeed]
      | cons t ts =>
        obtain ⟨out', children?, us, hrun, htidied, hdocs⟩ := exists_dropLinefeed src h
        simp only [Editor.TidiesAt, Reshape.linefeedStep, hkind, hignores, if_true]
        refine ⟨out', children?, us, ?_, htidied, hdocs⟩
        simp [linefeed, h.node_eq_ok, h.firstChild?_eq_ok, hkind, hignores, hrun, bind, Except.bind]
    · refine h.stays ?_ ?_ rfl
      · simp [linefeed, h.node_eq_ok, hkind, hignores, bind, Except.bind, pure, Except.pure]
      · simp [Reshape.linefeedStep, hkind, hignores]
  | _ =>
    refine h.stays ?_ ?_ rfl
    · simp [linefeed, h.node_eq_ok, hkind, bind, Except.bind, pure, Except.pure]
    · simp [Reshape.linefeedStep, hkind]

end Linefeed

section Conditional

open Reshape (Guard guard? foldGuards guards)

def guardsBehind : Option Doc → List Doc → List (Option Guard)
  | _, [] => []
  | prev, d :: ds => (prev.bind fun p => guard? p d) :: guardsBehind (some d) ds

theorem guardOf_eq_ok {p : Option Plant} {n : Node} (hp : ∀ u ∈ p, out.Bears u) (ht : out.Bears t)
    (hn : out.node? t.label.1 = some n) (hprev : n.prev = p.map fun u => u.label.1) :
    guardOf out t.label.1 = .ok ((p.map (Tree.map Prod.snd)).bind fun d =>
      guard? d (t.map Prod.snd)) := by
  obtain ⟨m, hm, hcontent, -⟩ := ht.self
  obtain rfl : m = n := Option.some.inj (hm.symm.trans hn)
  have hkind : m.kind = t.label.2.kind := congrArg Content.kind hcontent
  cases p with
  | none =>
    cases hk : t.label.2.kind <;>
      simp [guardOf, Store.node_eq_ok hn, hkind, hk, hprev, bind, Except.bind, pure, Except.pure]
  | some u =>
    obtain ⟨before, hbefore, hcontent', -⟩ := (hp u rfl).node_eq_ok
    cases hk : t.label.2.kind with
    | element e =>
      cases hstart : u.label.2.kind with
      | conditionalStart condition =>
        cases hchildren : t.children with
        | nil =>
          simp [guardOf, guard?, Store.node_eq_ok hn, ht.firstChild?_eq_ok, Tree.label_map,
            Tree.children_map, hkind, hk, hprev, hbefore, hcontent', hstart, hchildren, bind,
            Except.bind, pure, Except.pure]
        | cons v vs =>
          have hmem : v ∈ t.children := by rw [hchildren]; exact List.mem_cons_self
          obtain ⟨inner, hinner, hcontent'', -⟩ := (ht.of_mem_children hmem).node_eq_ok
          simp [guardOf, guard?, Store.node_eq_ok hn, ht.firstChild?_eq_ok, Tree.label_map,
            Tree.children_map, hkind, hk, hprev, hbefore, hcontent', hstart, hchildren, hinner,
            hcontent'', bind, Except.bind, pure, Except.pure]
          by_cases hopen : u.label.2.span.stop.offset = e.openTag.start.offset
          · by_cases hclose : v.label.2.kind = .conditionalEnd ∧
              v.label.2.span.start.offset = e.openTag.stop.offset <;> simp [hopen, hclose]
          · simp [hopen]
      | _ =>
        simp [guardOf, guard?, Store.node_eq_ok hn, Tree.label_map, hkind, hk, hprev, hbefore,
          hcontent', hstart, bind, Except.bind, pure, Except.pure]
    | _ => simp [guardOf, guard?, Store.node_eq_ok hn, Tree.label_map, hkind, hk, hprev, bind,
        Except.bind, pure, Except.pure]

theorem mapM_guardOf {p : Option Plant} (hp : ∀ u ∈ p, out.Bears u) (hts : ∀ t ∈ ts, out.Bears t)
    (hstrung : out.Strung (p.map fun u => u.label.1) (roots ts)) :
    (roots ts).mapM (guardOf out) =
      .ok (guardsBehind (p.map (Tree.map Prod.snd)) (docs ts)) := by
  induction ts generalizing p with
  | nil => rfl
  | cons t ts ih =>
    rw [List.forall_mem_cons] at hts
    obtain ⟨⟨n, hn, hprev, -⟩, hrest⟩ := hstrung
    have htail := ih (p := some t) (by simpa using hts.1) hts.2 hrest
    rw [roots_cons, List.mapM_cons, guardOf_eq_ok hp hts.1 hn hprev, htail]
    rfl

theorem foldGuards_of_all_isNone {prev : Option Doc} {ds : List Doc}
    (h : (guardsBehind prev ds).all Option.isNone = true) :
    foldGuards ds = ds ∧ guards ds = [] := by
  induction ds generalizing prev with
  | nil => exact ⟨rfl, rfl⟩
  | cons d ds ih =>
    rw [guardsBehind, List.all_cons, Bool.and_eq_true] at h
    cases ds with
    | nil => exact ⟨rfl, rfl⟩
    | cons e ds =>
      have hnone : guard? d e = none := by
        have hhead := h.2
        rw [guardsBehind, List.all_cons, Bool.and_eq_true] at hhead
        simpa using hhead.1
      obtain ⟨hfold, hguards⟩ := ih h.2
      simp [foldGuards, guards, hnone, hfold, hguards]

/-- A guarded node is an element with children, and no guard is formed with it. -/
theorem guard?_spec {p d : Doc} {g : Guard} (h : guard? p d = some g) :
    d.children ≠ [] ∧ ∀ e, guard? d e = none := by
  rw [guard?] at h
  split at h
  case h_2 => simp at h
  case h_1 condition e first rest hstart hkind hchildren =>
    refine ⟨by simp [hchildren], fun e => ?_⟩
    rw [guard?, hkind]

def foldEvent (g : Guard) : Event := .foldedConditional g.condition g.start.offset

theorem exists_foldGuard {a b : List Plant} (h : Garden out (a ++ t :: b)) (g : Guard)
    (ht : t.children ≠ []) : ∃ out' t', foldGuard out t.label.1 g = .ok out' ∧
      Turns out out' t t' ∧ t'.map Prod.snd = g.fold (t.map Prod.snd) := by
  have hmem : t ∈ a ++ t :: b := List.mem_append_right _ List.mem_cons_self
  have hbears := h.bears t hmem
  have hnodup := (List.nodup_flatMap.mp h.nodup).1 t hmem
  obtain ⟨mid, hedit, hturns⟩ := hbears.edit hnodup g.take
  have hchildren := hbears.children_eq_ok
  cases t with
  | leaf p => simp at ht
  | node p ts =>
    cases ts with
    | nil => simp at ht
    | cons u us =>
      obtain ⟨out', hset, hturns'⟩ := hturns.bears.setChildren (hnodup.sublist hturns.sublist)
        (List.sublist_cons_self u us)
      refine ⟨out', _, ?_, hturns.trans hturns', by simp [Guard.fold]⟩
      simp only [Tree.label_node] at hchildren hedit
      simp only [Tree.label_node, foldGuard, hchildren, hedit, Tree.children_node, roots_cons,
        Checked.from_one_cons, bind, Except.bind]
      exact hset

/-- Fold the guards of a list into the documents that they belong to. What stands before a guarded
document is dropped. -/
def foldBy : List (Option Guard) → List Doc → List Doc
  | g :: gs, d :: ds =>
    if gs.head?.any Option.isSome then foldBy gs ds
    else (match g with
      | none => d
      | some g => g.fold d) :: foldBy gs ds
  | _, _ => []

def foldedBy : List (Option Guard) → List Guard
  | [] => []
  | g :: gs => if gs.head?.any Option.isSome then foldedBy gs else g.toList ++ foldedBy gs

theorem exists_foldFrom {found gs : List (Option Guard)} {i : Nat} (h : Garden out ts)
    (hfound : found.drop i = gs)
    (hgs : List.Forall₂ (fun (g : Option Guard) t => g.isSome → Tree.children t ≠ []) gs ts) :
    ∃ out' us, foldFrom found i (roots ts) out =
        .ok (out', (foldedBy gs).map foldEvent, roots us) ∧
      Tended out out' ts us ∧ docs us = foldBy gs (docs ts) := by
  induction hgs generalizing out i with
  | nil => exact ⟨out, [], rfl, h.tended, rfl⟩
  | @cons g t gs ts hg _ ih =>
    have hget := Checked.getElem?_of_drop hfound
    have hrest := Checked.drop_succ_of_drop hfound
    have hnext : found[i + 1]? = gs.head? := by rw [← List.head?_drop, hrest]
    by_cases hskip : gs.head?.any Option.isSome = true
    · obtain ⟨out', us, hrun, htended, hdocs⟩ := ih h.tail hrest
      refine ⟨out', us, ?_, .drop (a := []) htended, ?_⟩
      · simp [foldFrom, hnext, hskip, hrun, foldedBy]
      · simpa [foldBy, hskip] using hdocs
    · cases g with
      | none =>
        obtain ⟨out', us, hrun, htended, hdocs⟩ := ih h.tail hrest
        refine ⟨out', t :: us, ?_, htended.cons (h.bears t List.mem_cons_self) h.disjoint, ?_⟩
        · simp [foldFrom, hnext, hskip, Checked.get_eq_ok hget, hrun, foldedBy, bind, Except.bind,
            pure, Except.pure]
        · simp [foldBy, hskip, hdocs]
      | some g =>
        obtain ⟨mid, t', hfold, hturns, ht'⟩ := exists_foldGuard (a := []) h g (hg rfl)
        obtain ⟨out', us, hrun, htended, hdocs⟩ := ih (h.turn (a := []) hturns).tail hrest
        refine ⟨out', t' :: us, ?_, h.tended_cons hturns htended, ?_⟩
        · simp [foldFrom, hnext, hskip, Checked.get_eq_ok hget, hfold, hrun, hturns.root, foldedBy,
            foldEvent, bind, Except.bind, pure, Except.pure]
        · simp [foldBy, hskip, hdocs, ht']

/-- Guards found along the list are folded as they are met two by two. -/
theorem foldBy_guardsBehind (d : Doc) (ds : List Doc) :
    (foldBy (none :: guardsBehind (some d) ds) (d :: ds) = foldGuards (d :: ds) ∧
      foldedBy (none :: guardsBehind (some d) ds) = guards (d :: ds)) ∧
    ∀ p g, guard? p d = some g →
      foldBy (some g :: guardsBehind (some d) ds) (d :: ds) = g.fold d :: foldGuards ds ∧
      foldedBy (some g :: guardsBehind (some d) ds) = g :: guards ds := by
  induction ds generalizing d with
  | nil => simp [foldBy, foldedBy, guardsBehind, foldGuards, guards]
  | cons e ds ih =>
    obtain ⟨⟨hfold, hfolded⟩, hguarded⟩ := ih e
    constructor
    · cases hguard : guard? d e with
      | none =>
        simp [foldBy, foldedBy, guardsBehind, foldGuards, guards, hguard] at hfold hfolded ⊢
        exact ⟨hfold, hfolded⟩
      | some g =>
        obtain ⟨hfold', hfolded'⟩ := hguarded d g hguard
        rw [foldBy, foldedBy]
        simp [guardsBehind, foldGuards, guards, hguard, hfold', hfolded']
    · intro p g hp
      have hnone := (guard?_spec hp).2 e
      rw [foldBy, foldedBy]
      simp [guardsBehind, hnone, hfold, hfolded]

theorem forall₂_guardsBehind {prev : Option Doc} :
    List.Forall₂ (fun (g : Option Guard) t => g.isSome → Tree.children t ≠ [])
      (guardsBehind prev (docs ts)) ts := by
  induction ts generalizing prev with
  | nil => exact .nil
  | cons t ts ih =>
    refine .cons ?_ ih
    intro hsome hnil
    obtain ⟨g, hg⟩ := Option.isSome_iff_exists.mp hsome
    obtain ⟨p, -, hp⟩ := Option.bind_eq_some_iff.mp hg
    apply (guard?_spec hp).1
    rw [Tree.children_map, hnil, List.map_nil]

theorem tidies_conditional : conditional.Tidies Reshape.conditionalStep fun _ ds =>
    (guards ds).map foldEvent := by
  intro out id c ts h
  have hguards : (roots ts).mapM (guardOf out) = .ok (guardsBehind none (docs ts)) :=
    mapM_guardOf (p := none) (by simp) h.garden.bears h.strung
  by_cases hall : (guardsBehind none (docs ts)).all Option.isNone = true
  · obtain ⟨hfold, hnone⟩ := foldGuards_of_all_isNone hall
    refine h.stays ?_ ?_ ?_
    · simp [conditional, h.children_eq_ok, hguards, hall, bind, Except.bind, pure, Except.pure]
    · rw [Reshape.conditionalStep, hfold]
    · rw [hnone, List.map_nil]
  · have hfound : (guardsBehind none (docs ts)).drop 0 = guardsBehind none (docs ts) :=
      List.drop_zero
    obtain ⟨out', us, hrun, htended, hdocs⟩ := exists_foldFrom h.garden hfound forall₂_guardsBehind
    have hwhole : foldBy (guardsBehind none (docs ts)) (docs ts) = foldGuards (docs ts) ∧
        foldedBy (guardsBehind none (docs ts)) = guards (docs ts) := by
      cases ts with
      | nil => exact ⟨rfl, rfl⟩
      | cons t ts => exact (foldBy_guardsBehind _ _).1
    rw [hwhole.1] at hdocs
    rw [hwhole.2] at hrun
    refine ⟨out', some (roots us), us, ?_, h.tidied htended rfl, hdocs⟩
    simp [conditional, h.children_eq_ok, hguards, hall, hrun, bind, Except.bind, pure, Except.pure]

end Conditional

section Whitespace

open Reshape (Piece)

variable {src : Source} {keeps : Bool}

theorem cutMargins_eq_ok (cs : List Char) : cutMargins cs = .ok (Text.splitSpace cs) := by
  have hlength := congrArg Text.byteLength
    (List.takeWhile_append_dropWhile (p := Text.isSpace) (l := cs))
  rw [Text.byteLength_append] at hlength
  have hsub : Checked.sub (Text.byteLength cs) (Text.byteLength (cs.dropWhile Text.isSpace)) =
      .ok (Text.byteLength (cs.takeWhile Text.isSpace)) := by
    rw [Checked.sub_eq_ok (by omega)]
    congr 1
    omega
  have hfront := Checked.cut_append (cs.takeWhile Text.isSpace) (cs.dropWhile Text.isSpace)
  rw [List.takeWhile_append_dropWhile] at hfront
  have hback := Checked.cut_append (Text.splitEnd Text.isSpace (cs.dropWhile Text.isSpace)).1
    (Text.splitEnd Text.isSpace (cs.dropWhile Text.isSpace)).2
  rw [Text.splitEnd_append] at hback
  simp only [cutMargins, hsub, hfront, hback, bind, Except.bind, pure, Except.pure, Text.splitSpace]

def items {α : Type} (ps : List (Piece α)) : List α := ps.filterMap fun
  | .space => none
  | .item a => some a

@[simp] theorem map_gap {α β : Type} (f : α → β) (cs : List Char) :
    (gap cs).map (Piece.map f) = gap cs := by
  unfold gap
  split <;> rfl

@[simp] theorem items_gap {α : Type} (cs : List Char) : items (gap cs : List (Piece α)) = [] := by
  unfold gap
  split <;> rfl

theorem items_item {α : Type} (a : α) (ps : List (Piece α)) :
    items (.item a :: ps) = a :: items ps := rfl

@[simp] theorem items_append {α : Type} (ps qs : List (Piece α)) :
    items (ps ++ qs) = items ps ++ items qs := List.filterMap_append

/-- What a document is cut into, if whitespace is not kept. -/
def cutUnless (src : Source) (keeps : Bool) (d : Doc) : List (Piece Doc) :=
  if keeps then [.item d] else Reshape.cut src d

/-- Trimming the child `t` leaves the pieces in its place that its document is cut into. -/
def TrimsAs (src : Source) (keeps : Bool) (out : Store) (t : Plant) : Prop :=
  ∃ out' ps, trimChild src keeps out t.label.1 = .ok (out', ps.map (.map fun u => u.label.1)) ∧
    Tended out out' [t] (items ps) ∧
    ps.map (.map (Tree.map Prod.snd)) = cutUnless src keeps (t.map Prod.snd)

theorem trimsAs (src : Source) (keeps : Bool) (h : Garden out [t]) : TrimsAs src keeps out t := by
  obtain ⟨n, hn, hcontent, -⟩ := (h.bears t List.mem_cons_self).node_eq_ok
  have hkind : n.kind = t.label.2.kind := congrArg Content.kind hcontent
  have hstay (hrun : trimChild src keeps out t.label.1 = .ok (out, [.item t.label.1]))
      (hcut : cutUnless src keeps (t.map Prod.snd) = [.item (t.map Prod.snd)]) :
      TrimsAs src keeps out t :=
    ⟨out, [.item t], hrun, h.tended, hcut.symm⟩
  cases keeps with
  | true =>
    refine hstay ?_ rfl
    cases hk : t.label.2.kind <;>
      simp [trimChild, hn, hkind, hk, bind, Except.bind, pure, Except.pure]
  | false =>
    cases hk : t.label.2.kind with
    | text value =>
      have hcut : cutUnless src false (t.map Prod.snd) =
          Reshape.cutText src (t.map Prod.snd) value := by
        simp [cutUnless, Reshape.cut, Tree.label_map, hk]
      rw [TrimsAs, hcut, Reshape.cutText, Tree.label_map]
      have hmargins := cutMargins_eq_ok value.toList
      generalize Text.splitSpace value.toList = parts at hmargins ⊢
      by_cases hempty : parts.text = []
      · refine ⟨out, gap parts.leading ++ gap parts.trailing, ?_, ?_, ?_⟩
        · simp [trimChild, hn, hkind, hk, hmargins, hempty, bind, Except.bind, pure, Except.pure]
        · simpa using tended_nil out [t]
        · simp only [hempty, if_true, List.append_nil, List.map_append, map_gap]
          rfl
      · obtain ⟨out', t', hedit, hturns, ht'⟩ := h.edit (a := [])
          (.setText (String.ofList parts.text)
            ⟨src.shift t.label.2.span.start (Text.byteLength parts.leading),
              src.shift t.label.2.span.stop (-(Text.byteLength parts.trailing : Int))⟩)
        refine ⟨out', gap parts.leading ++ [.item t'] ++ gap parts.trailing, ?_, ?_, ?_⟩
        · simp [trimChild, hn, hcontent, hk, hmargins, hempty, Source.moved_eq_ok, hedit,
            hturns.root, Piece.map, bind, Except.bind, pure, Except.pure]
        · simpa [items_item] using hturns.tended_singleton
        · simp only [hempty, if_false, List.map_append, map_gap, List.map_singleton, Piece.map, ht']
          rfl
    | _ =>
      apply hstay
      · simp [trimChild, hn, hkind, hk, bind, Except.bind, pure, Except.pure]
      · simp [cutUnless, Reshape.cut, Tree.label_map, hk]

theorem exists_trimAll (src : Source) (keeps : Bool) (h : Garden out ts) :
    ∃ out' ps, trimAll src keeps (roots ts) out = .ok (out', ps.map (.map fun u => u.label.1)) ∧
      Tended out out' ts (items ps) ∧
      ps.map (.map (Tree.map Prod.snd)) = (docs ts).flatMap (cutUnless src keeps) := by
  induction ts generalizing out with
  | nil => exact ⟨out, [], rfl, h.tended, rfl⟩
  | cons t ts ih =>
    have hhead : Garden out [t] :=
      ⟨by simpa using h.bears t List.mem_cons_self,
        by simpa using (List.nodup_flatMap.mp h.nodup).1 t List.mem_cons_self⟩
    obtain ⟨mid, ps, hrun, hps, hcut⟩ := trimsAs src keeps hhead
    obtain ⟨out', qs, hruns, hqs, hcuts⟩ := ih (h.right (a := [t]) hps)
    refine ⟨out', ps ++ qs, ?_, ?_, ?_⟩
    · simp [trimAll, hrun, hruns, bind, Except.bind, pure, Except.pure]
    · rw [items, List.filterMap_append]
      exact h.tended_append (a := [t]) hps hqs
    · rw [List.map_append, hcut, hcuts, docs_cons, List.flatMap_cons]

/-- The nodes among the pieces from index `i` on are marked with what stands next to them. -/
theorem exists_markFrom {pieces : List (Piece NodeId)} {ps : List (Piece Plant)} {i : Nat}
    {before : Bool} (h : Garden out (items ps))
    (hps : pieces.drop i = ps.map (.map fun u => u.label.1))
    (hbefore : isSpaceBefore pieces i = .ok before) :
    ∃ out' us, markFrom pieces i (ps.map (.map fun u => u.label.1)) out = .ok (out', roots us) ∧
      Tended out out' (items ps) us ∧
      docs us = Reshape.settle before (ps.map (.map (Tree.map Prod.snd))) := by
  induction ps generalizing out i before with
  | nil => exact ⟨out, [], rfl, h.tended, rfl⟩
  | cons p ps ih =>
    rw [List.map_cons] at hps
    have hget := Checked.getElem?_of_drop hps
    have hrest := Checked.drop_succ_of_drop hps
    have hself : isSpaceBefore pieces (i + 1) = .ok p.isSpace := by
      simp [isSpaceBefore, Checked.sub_eq_ok, Checked.get_eq_ok hget, bind, Except.bind, pure,
        Except.pure]
    cases p with
    | space =>
      obtain ⟨out', us, hrun, hus, hdocs⟩ := ih h hrest hself
      exact ⟨out', us, hrun, hus, hdocs⟩
    | item t =>
      have hgarden : Garden out (t :: items ps) := h
      have htrailing : (pieces[i + 1]?).any Piece.isSpace = ps.head?.any Piece.isSpace := by
        rw [← List.head?_drop, hrest]
        cases ps <;> simp
      obtain ⟨mid, t', hedit, hturns, ht'⟩ :=
        hgarden.edit (a := []) (.setSpaces before (ps.head?.any Piece.isSpace))
      obtain ⟨out', us, hrun, hus, hdocs⟩ := ih (hgarden.turn (a := []) hturns).tail hrest hself
      refine ⟨out', t' :: us, ?_, hgarden.tended_cons hturns hus, ?_⟩
      · simp [markFrom, Piece.map, hbefore, htrailing, hedit, hrun, hturns.root, bind, Except.bind,
          pure, Except.pure]
      · have hhead : (ps.map (.map (Tree.map Prod.snd))).head?.any Piece.isSpace =
            ps.head?.any Piece.isSpace := by
          cases ps <;> simp
        rw [docs_cons, ht', hdocs, List.map_cons, Piece.map, Reshape.settle, hhead,
          Reshape.markSpaces, Tree.label_map]
        rfl

theorem isBlank_eq_ok (h : ∀ t ∈ ts, out.Bears t) :
    isBlank out (roots ts) = .ok (Reshape.isBlankList (docs ts)) := by
  match ts with
  | [] => rfl
  | [t] =>
    obtain ⟨n, hn, hcontent, -⟩ := (h t List.mem_cons_self).node_eq_ok
    simp [isBlank, hn, hcontent, Except.map, Reshape.isBlankList, Tree.label_map]
  | _ :: _ :: _ => rfl

theorem flatMap_cutUnless (src : Source) (keeps : Bool) (ds : List Doc) :
    ds.flatMap (cutUnless src keeps) =
      if keeps then ds.map .item else ds.flatMap (Reshape.cut src) := by
  cases keeps with
  | true => exact List.map_eq_flatMap.symm
  | false => rfl

theorem tidies_whitespace (src : Source) :
    (whitespace src).Tidies (Reshape.whitespaceStep src) fun _ _ => [] := by
  intro out id c ts h
  have hblank := isBlank_eq_ok h.garden.bears
  by_cases hlist : Reshape.isBlankList (docs ts) = true
  · have hnone : (some []).getD (roots ts) = roots [] := rfl
    obtain ⟨out', hedit, htidied⟩ := h.tidied_edit (tended_nil out ts) (fun c =>
      { c with notes := { c.notes with hasDanglingSpaces := some !(roots ts).isEmpty } }) hnone
    refine ⟨out', some [], [], ?_, ?_, ?_⟩
    · simp only [whitespace, h.children_eq_ok, hblank, hlist, if_true, hedit, bind, Except.bind,
        pure, Except.pure]
    · simpa [Reshape.whitespaceStep, hlist] using htidied
    · simp [Reshape.whitespaceStep, hlist]
  · have hkeeps : (c.keepsIndentation || c.isScriptLike) = c.keepsWhitespace := Bool.or_comm _ _
    obtain ⟨mid, ps, htrim, hps, hcut⟩ := exists_trimAll src c.keepsWhitespace h.garden
    have hstart : isSpaceBefore (ps.map (.map fun u => u.label.1)) 0 = .ok false := rfl
    obtain ⟨mid', us, hmark, hus, hdocs⟩ :=
      exists_markFrom (hps.garden h.garden) List.drop_zero hstart
    have hsome : (some (roots us)).getD (roots ts) = roots us := rfl
    obtain ⟨out', hedit, htidied⟩ := h.tidied_edit (hps.trans hus) (fun c' =>
      { c' with notes := { c'.notes with
        isWhitespaceSensitive := some c.keepsWhitespace
        isIndentationSensitive := some c.keepsIndentation } }) hsome
    rw [hcut, flatMap_cutUnless] at hdocs
    refine ⟨out', some (roots us), us, ?_, ?_, ?_⟩
    · simp [whitespace, h.children_eq_ok, h.node_eq_ok, hblank, hlist, hkeeps, htrim, hmark, hedit,
        bind, Except.bind, pure, Except.pure]
    · simpa [Reshape.whitespaceStep, hlist] using htidied
    · simpa [Reshape.whitespaceStep, hlist] using hdocs

end Whitespace

end Markup.Rewrite
