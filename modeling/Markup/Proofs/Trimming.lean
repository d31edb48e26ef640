import Markup.Proofs.Annotation
import Markup.Proofs.Gaps
import Markup.Proofs.WellFormed
import Mathlib.Data.List.DropRight

/-! What becomes of a child list when whitespace is cut off. Each text is trimmed and goes if
nothing is left of it, and the nodes that stay say whether anything went between them and their
neighbours, however many texts that took. -/
namespace Markup

namespace Text

variable {cs : List Char}

theorem fst_splitEnd (p : Char → Bool) (cs : List Char) : (splitEnd p cs).1 = cs.rdropWhile p := by
  induction cs with
  | nil => rfl
  | cons c cs ih =>
    rw [List.rdropWhile, List.reverse_cons, List.dropWhile_append, splitEnd]
    split
    case h_1 tail h =>
      have hnil : cs.reverse.dropWhile p = [] := by simpa [h, List.rdropWhile] using ih.symm
      by_cases hc : p c = true <;> simp [hnil, hc]
    case h_2 d front tail h =>
      have hfront : (cs.reverse.dropWhile p).reverse = d :: front := by
        simpa [h, List.rdropWhile] using ih.symm
      have hne : cs.reverse.dropWhile p ≠ [] := by
        rw [← List.reverse_ne_nil_iff, hfront]
        exact List.cons_ne_nil _ _
      simp [hne, hfront]

theorem snd_splitEnd (p : Char → Bool) (cs : List Char) : (splitEnd p cs).2 = cs.rtakeWhile p := by
  have happend : cs.rdropWhile p ++ (splitEnd p cs).2 = cs.rdropWhile p ++ cs.rtakeWhile p := by
    rw [← fst_splitEnd, splitEnd_append, fst_splitEnd, List.rdropWhile_append_rtakeWhile]
  exact List.append_cancel_left happend

theorem text_splitSpace (cs : List Char) : (splitSpace cs).text = trimBy isSpace cs :=
  fst_splitEnd isSpace _

/-- Whitespace is cut off the end of a text no matter what is cut off its front. -/
theorem trailing_splitSpace (h : trimBy isSpace cs ≠ []) :
    (splitSpace cs).trailing = cs.rtakeWhile isSpace := by
  have hstop : ((cs.dropWhile isSpace).reverse.takeWhile isSpace).length ≠
      (cs.dropWhile isSpace).reverse.length := by
    intro hlength
    have hall := List.takeWhile_eq_self_iff.mp
      ((List.takeWhile_prefix isSpace).eq_of_length hlength)
    exact h (List.reverse_eq_nil_iff.mpr (List.dropWhile_eq_nil_iff.mpr hall))
  calc (splitSpace cs).trailing
      = (cs.dropWhile isSpace).rtakeWhile isSpace := snd_splitEnd isSpace _
    _ = (cs.takeWhile isSpace ++ cs.dropWhile isSpace).rtakeWhile isSpace := by
        rw [List.rtakeWhile, List.rtakeWhile, List.reverse_append, List.takeWhile_append,
          if_neg hstop]
    _ = cs.rtakeWhile isSpace := by rw [List.takeWhile_append_dropWhile]

theorem trim_eq_empty_iff {v : String} : trim v = "" ↔ trimBy isSpace v.toList = [] := by
  rw [trim, ← String.toList_inj]
  simp

theorem splitSpace_of_isSpace (h : ∀ c ∈ cs, isSpace c = true) : splitSpace cs = ⟨cs, [], []⟩ := by
  have hdrop : cs.dropWhile isSpace = [] := List.dropWhile_eq_nil_iff.mpr h
  simp [splitSpace, hdrop, List.takeWhile_eq_self_iff.mpr h, splitEnd]

end Text

namespace Tree

variable {α : Type}

/-- The subtrees that have a child list, parents before children. -/
def containers (t : Tree α) : List (Tree α) := t.subtrees.filter fun u => u.children?.isSome

@[simp] theorem containers_leaf (a : α) : (leaf a).containers = [] := by simp [containers]

@[simp] theorem containers_node (a : α) (ts : List (Tree α)) :
    (node a ts).containers = node a ts :: ts.flatMap containers := by
  rw [containers, subtrees_node, List.filter_cons_of_pos (by simp), List.filter_flatMap]
  rfl

end Tree

namespace Reshape

open Markup.Tree

variable {src : Source} {t : Doc} {ts : List Doc}

def vanishes (t : Doc) : Bool := t.label.kind.text?.any fun value => Text.trim value = ""

def chars (t : Doc) : List Char := t.label.kind.text?.elim [] String.toList

def front (t : Doc) : List Char := (chars t).takeWhile Text.isSpace

def back (t : Doc) : List Char := (chars t).rtakeWhile Text.isSpace

/-- A text without the whitespace at its ends, with a span that is as much shorter. Other nodes stay
as they are. -/
def stripped (src : Source) (t : Doc) : Doc :=
  match t.label.kind with
  | .text value => t.setLabel { t.label with
      kind := .text (Text.trim value)
      span := ⟨src.shift t.label.span.start (Text.byteLength (front t)),
        src.shift t.label.span.stop (-(Text.byteLength (back t) : Int))⟩ }
  | _ => t

/-- What goes behind the last node of the list that stays: the end of that node, if it is a text,
and all the texts after it. -/
def runBehind (ts : List Doc) : List Char :=
  (ts.rdropWhile vanishes).getLast?.elim [] back ++ (ts.rtakeWhile vanishes).flatMap chars

/-- What goes before the first node of the list that stays. -/
def runBefore (ts : List Doc) : List Char :=
  (ts.takeWhile vanishes).flatMap chars ++ (ts.dropWhile vanishes).head?.elim [] front

/-- The tree without the marks of what stood next to it. -/
def unmarked (t : Doc) : Doc :=
  t.setLabel { t.label with notes := { t.label.notes with
    hasLeadingSpaces := none, hasTrailingSpaces := none } }

/-- `u` is `t`, but for what it says of the whitespace on both sides of it. -/
structure Marked (leading trailing : Bool) (t u : Doc) : Prop where
  rest : unmarked u = unmarked t
  leading : u.label.notes.hasLeadingSpaces = some leading
  trailing : u.label.notes.hasTrailingSpaces = some trailing

/-- `us` is what trimming leaves of the child list `ts`: the nodes that stay, in order, each of them
saying on both sides whether any character goes between it and the next one that stays, or the
edge. -/
structure Trims (src : Source) (ts us : List Doc) : Prop where
  length : us.length = (ts.filter fun t => !vanishes t).length
  entry : ∀ before t after, ts = before ++ t :: after → vanishes t = false →
    ∃ u, us[(before.filter fun t => !vanishes t).length]? = some u ∧
      Marked (!(runBehind before ++ front t).isEmpty) (!(back t ++ runBefore after).isEmpty)
        (stripped src t) u

def items : List (Piece Doc) → List Doc
  | [] => []
  | .space :: ps => items ps
  | .item t :: ps => t :: items ps

def mark (cs : List Char) : List (Piece Doc) := if cs = [] then [] else [.space]

theorem items_append (ps qs : List (Piece Doc)) : items (ps ++ qs) = items ps ++ items qs := by
  induction ps with
  | nil => rfl
  | cons p ps ih => cases p <;> simp [items, ih]

@[simp] theorem items_mark (cs : List Char) : items (mark cs) = [] := by
  rw [mark]
  split <;> rfl

theorem head?_mark (cs : List Char) (ps : List (Piece Doc)) :
    (mark cs ++ ps).head?.any Piece.isSpace = (!cs.isEmpty || ps.head?.any Piece.isSpace) := by
  cases cs <;> simp [mark, Piece.isSpace]

theorem getLast?_mark (cs : List Char) (ps : List (Piece Doc)) :
    (ps ++ mark cs).getLast?.any Piece.isSpace =
      (ps.getLast?.any Piece.isSpace || !cs.isEmpty) := by
  cases cs <;> simp [mark, Piece.isSpace]

theorem vanishes_iff :
    vanishes t = true ↔ ∃ v, t.label.kind = .text v ∧ Text.trim v = "" := by
  simp [vanishes, Option.any_eq_true]

theorem cut_of_vanishes (h : vanishes t = true) : cut src t = mark (chars t) := by
  obtain ⟨v, hkind, htrim⟩ := vanishes_iff.mp h
  have hsplit := Text.splitSpace_of_isSpace (Text.isSpace_of_trim htrim)
  simp only [cut, hkind, cutText, hsplit, chars, mark, Kind.text?, Option.elim_some]
  simp

theorem cut_of_stays (h : vanishes t = false) :
    cut src t = mark (front t) ++ .item (stripped src t) :: mark (back t) := by
  rw [cut]
  split
  case h_1 v hkind =>
    have htrim : Text.trimBy Text.isSpace v.toList ≠ [] := by
      rw [Ne, ← Text.trim_eq_empty_iff]
      simpa [vanishes, hkind, Kind.text?] using h
    have hchars : chars t = v.toList := by simp [chars, hkind, Kind.text?]
    rw [cutText, Text.trailing_splitSpace htrim, Text.text_splitSpace, if_neg htrim]
    simp [stripped, hkind, mark, front, back, hchars, Text.splitSpace, Text.trim]
  case h_2 hkind =>
    have htext : t.label.kind.text? = none := by
      rw [Option.eq_none_iff_forall_ne_some]
      intro v hv
      exact hkind v (Kind.text?_eq_some_iff.mp hv)
    have hsame : stripped src t = t := by
      rw [stripped]
      split
      case h_1 v hv => exact absurd hv (hkind v)
      case h_2 => rfl
    simp [hsame, mark, front, back, chars, htext]

theorem items_flatMap_cut (src : Source) (ts : List Doc) :
    items (ts.flatMap (cut src)) = (ts.filter fun t => !vanishes t).map (stripped src) := by
  induction ts with
  | nil => rfl
  | cons t ts ih =>
    rw [List.flatMap_cons, items_append, ih]
    cases h : vanishes t with
    | true => simp [cut_of_vanishes h, h]
    | false => simp [cut_of_stays h, h, items_append, items]

theorem items_map_item (ts : List Doc) : items (ts.map .item) = ts := by
  induction ts with
  | nil => rfl
  | cons t ts ih => rw [List.map_cons, items, ih]

section Runs

theorem not_isEmpty_append (xs ys : List Char) :
    (!(xs ++ ys).isEmpty) = (!xs.isEmpty || !ys.isEmpty) := by
  cases xs <;> rfl

theorem runBefore_cons (t : Doc) (ts : List Doc) :
    runBefore (t :: ts) = if vanishes t then chars t ++ runBefore ts else front t := by
  cases h : vanishes t <;> simp [runBefore, h]

theorem runBehind_concat (ts : List Doc) (t : Doc) :
    runBehind (ts ++ [t]) = if vanishes t then runBehind ts ++ chars t else back t := by
  cases h : vanishes t <;> simp [runBehind, h]

/-- One look at the next piece tells whether anything goes before the next node that stays. -/
theorem head?_flatMap_cut (src : Source) (ts : List Doc) :
    (ts.flatMap (cut src)).head?.any Piece.isSpace = !(runBefore ts).isEmpty := by
  induction ts with
  | nil => rfl
  | cons t ts ih =>
    rw [List.flatMap_cons, runBefore_cons]
    cases h : vanishes t with
    | true => rw [cut_of_vanishes h, head?_mark, ih, if_pos rfl, not_isEmpty_append]
    | false =>
      rw [cut_of_stays h, List.append_assoc, head?_mark]
      simp [Piece.isSpace]

theorem getLast?_flatMap_cut (src : Source) (ts : List Doc) :
    (ts.flatMap (cut src)).getLast?.any Piece.isSpace = !(runBehind ts).isEmpty := by
  -- From the right: what goes behind the last node that stays only grows with texts that vanish.
  induction ts using List.reverseRecOn with
  | nil => rfl
  | append_singleton ts t ih =>
    rw [List.flatMap_append, List.flatMap_singleton, runBehind_concat]
    cases h : vanishes t with
    | true => rw [cut_of_vanishes h, getLast?_mark, ih, if_pos rfl, not_isEmpty_append]
    | false =>
      rw [cut_of_stays h, ← List.append_assoc, List.append_cons, getLast?_mark]
      simp [Piece.isSpace]

end Runs

section Settle

/-- A node among the pieces is settled by the pieces next to it. -/
theorem settle_append_item (before : Bool) (ps : List (Piece Doc)) (t : Doc)
    (qs : List (Piece Doc)) :
    settle before (ps ++ .item t :: qs) = settle before ps ++
      markSpaces (ps.getLast?.elim before Piece.isSpace) (qs.head?.any Piece.isSpace) t ::
        settle false qs := by
  induction ps generalizing before with
  | nil => rfl
  | cons p ps ih =>
    have hlast (b : Bool) : (p :: ps).getLast?.elim b Piece.isSpace =
        ps.getLast?.elim p.isSpace Piece.isSpace := by
      rw [List.getLast?_cons]
      cases ps.getLast? <;> rfl
    cases p with
    | space => rw [List.cons_append, settle, settle, ih, hlast, Piece.isSpace]
    | item u =>
      have hnext : (ps ++ .item t :: qs).head?.any Piece.isSpace = ps.head?.any Piece.isSpace := by
        cases ps <;> rfl
      rw [List.cons_append, settle, settle, ih, hlast, hnext, Piece.isSpace, List.cons_append]

@[simp] theorem unmarked_markSpaces (leading trailing : Bool) (t : Doc) :
    unmarked (markSpaces leading trailing t) = unmarked t := by
  cases t <;> rfl

theorem marked_markSpaces (leading trailing : Bool) (t : Doc) :
    Marked leading trailing t (markSpaces leading trailing t) :=
  ⟨unmarked_markSpaces .., by simp [markSpaces], by simp [markSpaces]⟩

@[simp] theorem children_unmarked (t : Doc) : (unmarked t).children = t.children :=
  children_setLabel _ t

theorem map_unmarked_settle (before : Bool) (ps : List (Piece Doc)) :
    (settle before ps).map unmarked = (items ps).map unmarked := by
  induction ps generalizing before with
  | nil => rfl
  | cons p ps ih => cases p <;> simp [settle, items, ih]

theorem length_settle (before : Bool) (ps : List (Piece Doc)) :
    (settle before ps).length = (items ps).length := by
  simpa using congrArg List.length (map_unmarked_settle before ps)

theorem settle_map_item (ts : List Doc) :
    settle false (ts.map .item) = ts.map (markSpaces false false) := by
  induction ts with
  | nil => rfl
  | cons t ts ih =>
    have hnext : (ts.map Piece.item).head?.any Piece.isSpace = false := by cases ts <;> rfl
    rw [List.map_cons, settle, hnext, ih, List.map_cons]

/-- Pieces see one neighbour, which is enough: a run of whitespace, however it is spread over texts,
shows next to both nodes at its ends. -/
theorem trims_settle (src : Source) (ts : List Doc) :
    Trims src ts (settle false (ts.flatMap (cut src))) where
  length := by rw [length_settle, items_flatMap_cut, List.length_map]
  entry := by
    rintro before t after rfl ht
    have hpieces : (before ++ t :: after).flatMap (cut src) =
        (before.flatMap (cut src) ++ mark (front t)) ++ .item (stripped src t) ::
          (mark (back t) ++ after.flatMap (cut src)) := by
      simp [cut_of_stays ht]
    have hlength : (settle false (before.flatMap (cut src) ++ mark (front t))).length =
        (before.filter fun t => !vanishes t).length := by
      simp [length_settle, items_append, items_flatMap_cut]
    have hbehind : (before.flatMap (cut src) ++ mark (front t)).getLast?.elim false Piece.isSpace =
        !(runBehind before ++ front t).isEmpty := by
      rw [not_isEmpty_append, ← getLast?_flatMap_cut src, ← getLast?_mark]
      cases (before.flatMap (cut src) ++ mark (front t)).getLast? <;> rfl
    have hbefore : (mark (back t) ++ after.flatMap (cut src)).head?.any Piece.isSpace =
        !(back t ++ runBefore after).isEmpty := by
      rw [head?_mark, head?_flatMap_cut, not_isEmpty_append]
    refine ⟨_, ?_, marked_markSpaces _ _ _⟩
    rw [hpieces, settle_append_item, hbehind, hbefore, ← hlength, List.getElem?_append_right le_rfl,
      Nat.sub_self, List.getElem?_cons_zero]

end Settle

section Containers

theorem map_unmarked_containers (t : Doc) :
    (unmarked t).containers.map unmarked = t.containers.map unmarked := by
  cases t with
  | leaf c => rfl
  | node c ts => simp [unmarked, setLabel]

theorem map_unmarked_flatMap (ts : List Doc) :
    (ts.flatMap containers).map unmarked =
      (ts.map unmarked).flatMap fun t => t.containers.map unmarked := by
  simp [List.map_flatMap, List.flatMap_map, map_unmarked_containers]

theorem containers_of_vanishes (h : Shaped t) (hvanishes : vanishes t = true) :
    t.containers = [] := by
  obtain ⟨v, hkind, -⟩ := vanishes_iff.mp hvanishes
  rw [h.eq_leaf (by simp [hkind, Kind.isContainer]), containers_leaf]

theorem containers_stripped (src : Source) (h : Shaped t) :
    (stripped src t).containers = t.containers := by
  rw [stripped]
  split
  case h_1 v hkind =>
    rw [h.eq_leaf (by simp [hkind, Kind.isContainer]), setLabel, containers_leaf, containers_leaf]
  case h_2 => rfl

theorem containers_items_cut (src : Source) (h : ∀ t ∈ ts, Shaped t) :
    (items (ts.flatMap (cut src))).flatMap containers = ts.flatMap containers := by
  rw [items_flatMap_cut]
  induction ts with
  | nil => rfl
  | cons t ts ih =>
    obtain ⟨ht, hts⟩ := List.forall_mem_cons.mp h
    cases hvanishes : vanishes t with
    | true => simp [hvanishes, containers_of_vanishes ht hvanishes, ih hts]
    | false => simp [hvanishes, containers_stripped src ht, ih hts]

theorem containers_whitespaceStep (src : Source) (c : Content) (h : ∀ t ∈ ts, Shaped t) :
    ((whitespaceStep src c ts).2.flatMap containers).map unmarked =
      (ts.flatMap containers).map unmarked := by
  rw [whitespaceStep]
  split
  case isTrue hblank =>
    rcases isBlankList_cases hblank with rfl | ⟨t, v, rfl, hkind, htrim⟩
    · rfl
    · simp [containers_of_vanishes (h t List.mem_cons_self) (vanishes_iff.mpr ⟨v, hkind, htrim⟩)]
  case isFalse =>
    rw [map_unmarked_flatMap, map_unmarked_settle, ← map_unmarked_flatMap]
    split
    · rw [items_map_item]
    · rw [containers_items_cut src h]

theorem whitespace_node (src : Source) (c : Content) (ts : List Doc) :
    whitespace src (.node c ts) = .node (whitespaceStep src c (ts.map (whitespace src))).1
      (whitespaceStep src c (ts.map (whitespace src))).2 := by
  rw [whitespace, reshape_node]
  rfl

theorem children_whitespace (src : Source) (t : Doc) :
    (whitespace src t).children =
      (whitespaceStep src t.label (t.children.map (whitespace src))).2 := by
  cases t with
  | leaf c => simp [whitespace, whitespaceStep, isBlankList]
  | node c ts => rw [whitespace_node, children_node, label_node, children_node]

theorem label_whitespace (src : Source) (t : Doc) :
    ∃ notes, (whitespace src t).label = { t.label with notes } := by
  cases t with
  | leaf c => exact ⟨_, by rw [whitespace, reshape_leaf]⟩
  | node c ts =>
    rw [whitespace_node]
    exact fst_whitespaceStep src c _

theorem shaped_whitespace (src : Source) (h : Shaped t) : Shaped (whitespace src t) := by
  obtain ⟨notes, hnotes⟩ := label_whitespace src t
  rw [Shaped, hnotes, ← h]
  cases t with
  | leaf c => simp [whitespace]
  | node c ts => simp [whitespace]

/-- No container comes or goes, and its own notes and children are those that it would have had as a
document of its own, up to the marks. -/
theorem containers_whitespace (src : Source) {d : Doc} (h : Everywhere Shaped d) :
    (whitespace src d).containers.map unmarked =
      d.containers.map fun t => unmarked (whitespace src t) := by
  induction d using Tree.induct with
  | leaf c => simp [whitespace]
  | node c ts ih =>
    obtain ⟨-, hts⟩ := everywhere_node.mp h
    have hshaped : ∀ u ∈ ts.map (whitespace src), Shaped u := by
      intro u hu
      obtain ⟨t, ht, rfl⟩ := List.mem_map.mp hu
      exact shaped_whitespace src (hts t ht).self
    have htail : ((ts.map (whitespace src)).flatMap containers).map unmarked =
        (ts.flatMap containers).map fun t => unmarked (whitespace src t) := by
      rw [List.flatMap_map, List.map_flatMap, List.map_flatMap]
      exact List.flatMap_congr fun t ht => ih t ht (hts t ht)
    rw [containers_node, List.map_cons, ← htail, ← containers_whitespaceStep src c hshaped,
      whitespace_node, containers_node, List.map_cons]

theorem forall₂_containers (src : Source) {d : Doc} (h : Everywhere Shaped d) :
    List.Forall₂ (fun t u => t.children?.isSome = true ∧ unmarked u = unmarked (whitespace src t))
      d.containers (whitespace src d).containers := by
  rw [List.forall₂_and_left]
  constructor
  · intro t ht
    exact (List.mem_filter.mp ht).2
  · have hsame : List.Forall₂ Eq (d.containers.map fun t => unmarked (whitespace src t))
        ((whitespace src d).containers.map unmarked) := by
      rw [List.forall₂_eq_eq_eq, containers_whitespace src h]
    rw [List.forall₂_map_left_iff, List.forall₂_map_right_iff] at hsame
    exact hsame.imp fun _ _ heq => heq.symm

end Containers

theorem isBlankList_iff :
    isBlankList ts = true ↔ ts.length ≤ 1 ∧ ∀ t ∈ ts, vanishes t = true := by
  match ts with
  | [] => simp [isBlankList]
  | [t] => simp [isBlankList, vanishes]
  | t :: u :: ts => simp [isBlankList]

/-- The list has two nodes or more, or one that does not vanish. -/
def Filled (ts : List Doc) : Prop := 1 < ts.length ∨ ∃ t ∈ ts, vanishes t = false

theorem isBlankList_of_filled (h : Filled ts) : isBlankList ts = false := by
  rw [← Bool.not_eq_true, isBlankList_iff]
  rintro ⟨hlength, hall⟩
  rcases h with hmany | ⟨t, ht, hstays⟩
  · omega
  · simp [hall t ht] at hstays

/-- `u` is the container `t` when whitespace is cut off in it, after its children have been seen to.
Nothing is said of containers with no children or with a single text of whitespace. -/
structure Cleaned (src : Source) (t u : Doc) : Prop where
  label : ∃ notes, u.label = { t.label with notes }
  kept : Filled (t.children.map (whitespace src)) → t.label.keepsWhitespace = true →
    List.Forall₂ (Marked false false) (t.children.map (whitespace src)) u.children ∧
      u.children.map (fun v => (v.label.kind, v.label.span)) =
        t.children.map fun v => (v.label.kind, v.label.span)
  trimmed : Filled (t.children.map (whitespace src)) → t.label.keepsWhitespace = false →
    Trims src (t.children.map (whitespace src)) u.children

theorem cleaned_of_unmarked {u : Doc} (h : unmarked u = unmarked (whitespace src t)) :
    Cleaned src t u := by
  have hchildren : u.children =
      (whitespaceStep src t.label (t.children.map (whitespace src))).2 := by
    rw [← children_unmarked, h, children_unmarked, children_whitespace]
  refine ⟨?_, ?_, ?_⟩
  · obtain ⟨notes, hnotes⟩ := label_whitespace src t
    have hkind : u.label.kind = t.label.kind := by
      simpa [unmarked, hnotes] using congrArg (fun v => v.label.kind) h
    have hspan : u.label.span = t.label.span := by
      simpa [unmarked, hnotes] using congrArg (fun v => v.label.span) h
    exact ⟨u.label.notes, by simp [← hkind, ← hspan]⟩
  · intro hfilled hkeeps
    have hblank := isBlankList_of_filled hfilled
    have hmarked : u.children =
        (t.children.map (whitespace src)).map (markSpaces false false) := by
      rw [hchildren, whitespaceStep, if_neg (by simp [hblank]), if_pos hkeeps, settle_map_item]
    rw [hmarked]
    refine ⟨?_, ?_⟩
    · rw [List.forall₂_map_right_iff, List.forall₂_same]
      exact fun v _ => marked_markSpaces false false v
    rw [List.map_map, List.map_map]
    apply List.map_congr_left
    intro v _
    obtain ⟨notes, hnotes⟩ := label_whitespace src v
    simp [markSpaces, hnotes]
  · intro hfilled hkeeps
    have hblank := isBlankList_of_filled hfilled
    rw [hchildren, whitespaceStep, if_neg (by simp [hblank]), if_neg (by simp [hkeeps])]
    exact trims_settle src _

end Reshape

open Reshape

/-- Cutting off whitespace never fails on a built store, and gives each container its own turn. -/
theorem Store.Built.exists_run_whitespace {s : Store} (h : s.Built) (o : Options) :
    ∃ d out d', s.toDoc = .ok d ∧ Pass.whitespace.run o s = .ok out ∧ out.toDoc = .ok d' ∧
      List.Forall₂ (fun t u => t.children?.isSome = true ∧
        unmarked u = unmarked (whitespace o.source t)) d.containers d'.containers := by
  obtain ⟨d, -, hd, -, hshaped, -⟩ := h.wellFormed.exists_toDoc
  exact ⟨d, .ofDoc (whitespace o.source d), _, hd, Pass.run_of_toDoc hd rfl, toDoc_ofDoc _,
    forall₂_containers o.source hshaped⟩

/-- Cutting off whitespace, container by container. Where whitespace shows, the children stay as
they are and are marked with none next to them. Elsewhere the texts are trimmed, those with nothing
left go, and each node that stays is marked with whether any character went on the way to the node
before and behind it, or to the edge. -/
theorem containers_cleaned (o : Options) (s : Store) (h : s.Built) :
    ∃ d out d', s.toDoc = .ok d ∧ Pass.whitespace.run o s = .ok out ∧ out.toDoc = .ok d' ∧
      List.Forall₂ (Cleaned o.source) d.containers d'.containers := by
  obtain ⟨d, out, d', hd, hout, hd', hcontainers⟩ := h.exists_run_whitespace o
  exact ⟨d, out, d', hd, hout, hd', hcontainers.imp fun _ _ htu => cleaned_of_unmarked htu.2⟩

def looseText : String := " \n<p> é\t \n<b> </b>\t</p><pre> x </pre>\x0c"

/-- Texts of whitespace at both edges, two of them and an empty one in a row, next to an element and
at the end of a paragraph, and a text that keeps its whitespace. -/
def looseStore : Store :=
  let span (start stop : Nat) : Span := ⟨.ofOffset start, .ofOffset stop⟩
  let paragraph : Element := { name := "p", openTag := span 2 5, closeTag := some (span 20 24) }
  let bold : Element := { name := "b", openTag := span 11 14, closeTag := some (span 15 19) }
  let pre : Element := { name := "pre", openTag := span 24 29, closeTag := some (span 32 38) }
  (Store.new (span 0 39)).growAll
    [(0, { kind := .text " \n", span := span 0 2 }),
     (0, { kind := .element paragraph, span := span 2 24 }),
     (2, { kind := .text " é\t", span := span 5 9 }),
     (2, { kind := .text " ", span := span 9 10 }),
     (2, { kind := .text "", span := span 10 10 }),
     (2, { kind := .text "\n", span := span 10 11 }),
     (2, { kind := .element bold, span := span 11 19 }),
     (7, { kind := .text " ", span := span 14 15 }),
     (2, { kind := .text "\t", span := span 19 20 }),
     (0, { kind := .element pre, span := span 24 38 }),
     (10, { kind := .text " x ", span := span 29 32 }),
     (0, { kind := .text "\x0c", span := span 38 39 })]

theorem containers_cleaned_looseStore :
    looseStore.Built ∧ ∃ d out d', looseStore.toDoc = .ok d ∧
      Pass.whitespace.run { source := .ofString looseText } looseStore = .ok out ∧
      out.toDoc = .ok d' ∧
      List.Forall₂ (Cleaned (.ofString looseText)) d.containers d'.containers ∧
      (d'.preorder.map fun c => (c.kind.text?, c.span.start.offset, c.span.stop.offset,
          c.notes.hasLeadingSpaces, c.notes.hasTrailingSpaces)) =
        [(none, 0, 39, none, none), (none, 2, 24, some true, some false),
         (some "é", 6, 8, some true, some true), (none, 11, 19, some true, some true),
         (none, 24, 38, some false, some true), (some " x ", 29, 32, some false, some false)] := by
  have hbuilt : looseStore.Built := Store.Built.growAll (.new _) _
  obtain ⟨d, out, d', hd, hout, hd', hcleaned⟩ :=
    containers_cleaned { source := .ofString looseText } looseStore hbuilt
  refine ⟨hbuilt, d, out, d', hd, hout, hd', hcleaned, ?_⟩
  rw [Pass.shown_eq hout hd']
  decide +kernel

end Markup
