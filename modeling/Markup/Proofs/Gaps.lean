import Markup.Proofs.Packing
import Markup.Reshape.Whitespace
import Mathlib.Data.List.Chain
import Mathlib.Data.List.TakeWhile

/-! Whitespace cut out of a document. What is left between neighbours is blank, and they say whether
it is empty. -/
namespace Markup

namespace Text

theorem isSpace_splitEnd (p : Char → Bool) (cs : List Char) :
    ∀ c ∈ (splitEnd p cs).2, p c = true := by
  induction cs with
  | nil => simp [splitEnd]
  | cons c cs ih =>
    rw [splitEnd]
    split
    case h_1 tail h =>
      rw [h] at ih
      split
      case isTrue hc => simpa [hc] using ih
      case isFalse => exact ih
    case h_2 d front tail h =>
      rw [h] at ih
      exact ih

theorem splitSpace_append (cs : List Char) :
    (splitSpace cs).leading ++ ((splitSpace cs).text ++ (splitSpace cs).trailing) = cs := by
  have hend := splitEnd_append isSpace (cs.dropWhile isSpace)
  simp only [splitSpace, hend, List.takeWhile_append_dropWhile]

theorem isSpace_leading (cs : List Char) : ∀ c ∈ (splitSpace cs).leading, isSpace c = true :=
  fun _ hc => List.mem_takeWhile_imp hc

theorem isSpace_trailing (cs : List Char) : ∀ c ∈ (splitSpace cs).trailing, isSpace c = true :=
  isSpace_splitEnd isSpace _

theorem isSpace_of_trim {v : String} (h : trim v = "") : ∀ c ∈ v.toList, isSpace c = true := by
  have hchars : trimBy isSpace v.toList = [] := by
    have := congrArg String.toList h
    simpa [trim] using this
  rw [trimBy, List.reverse_eq_nil_iff, List.dropWhile_eq_nil_iff] at hchars
  intro c hc
  rw [← List.takeWhile_append_dropWhile (p := isSpace) (l := v.toList)] at hc
  rcases List.mem_append.mp hc with hfront | hback
  · exact List.mem_takeWhile_imp hfront
  · exact hchars c (List.mem_reverse.mpr hback)

end Text

def Source.Blank (src : Source) (a b : Nat) : Prop :=
  ∃ cs, src.Reads a cs b ∧ ∀ c ∈ cs, Text.isSpace c = true

namespace Source.Blank

variable {src : Source} {a b c : Nat}

theorem le (h : src.Blank a b) : a ≤ b := by
  obtain ⟨cs, hcs, -⟩ := h
  exact hcs.le

theorem append (h : src.Blank a b) (h' : src.Blank b c) : src.Blank a c := by
  obtain ⟨xs, hxs, hx⟩ := h
  obtain ⟨ys, hys, hy⟩ := h'
  refine ⟨xs ++ ys, hxs.append hys, ?_⟩
  intro c hc
  rcases List.mem_append.mp hc with hfront | hback
  · exact hx c hfront
  · exact hy c hback

theorem empty {cs : List Char} (h : src.Reads a cs b) : src.Blank a a :=
  ⟨[], h.start, by simp⟩

end Source.Blank

namespace Content

/-- Two neighbours both say whether there is something between them. -/
def Apart (c d : Content) : Prop :=
  (c.span.stop.offset < d.span.start.offset ↔ c.notes.hasTrailingSpaces = some true) ∧
    (c.span.stop.offset < d.span.start.offset ↔ d.notes.hasLeadingSpaces = some true)

end Content

open Content Markup.Tree

/-- A node with only whitespace before, between and behind its children. -/
structure Spaced (src : Source) (t : Doc) : Prop extends Housed src t where
  spaced : ∀ lo hi, t.label.region? src = some (lo, hi) →
    Chained src.Blank lo (t.children.map label) hi
  apart : List.IsChain Apart (t.children.map label)
  last : ∀ lo hi, t.label.region? src = some (lo, hi) → ∀ c ∈ (t.children.map label).getLast?,
    c.span.stop.offset < hi ↔ c.notes.hasTrailingSpaces = some true

/-- A spaced node that is written in the source. -/
structure Settled (src : Source) (t : Doc) : Prop extends Spaced src t where
  written : t.label.Written src true

theorem Settled.setNotes {src : Source} {t : Doc} (h : Settled src t) (notes : Annotations) :
    Settled src (t.setLabel { t.label with notes }) := by
  refine ⟨⟨⟨?_, ?_, ?_⟩, ?_, ?_, ?_⟩, ?_⟩
  · simpa using h.shape
  · rw [label_setLabel]
    exact h.framed
  · rw [label_setLabel, children_setLabel]
    exact h.empty
  · rw [label_setLabel, children_setLabel]
    exact h.spaced
  · rw [children_setLabel]
    exact h.apart
  · rw [label_setLabel, children_setLabel]
    exact h.last
  · rw [label_setLabel]
    exact h.written

theorem spaced_leaf {src : Source} {c : Content} (hkind : c.kind.isContainer = false)
    (h : src.Holds c.span) : Spaced src (.leaf c) := by
  have hregion : c.region? src = none := region?_of_not_isContainer hkind
  refine ⟨(housed_leaf hkind).mpr h, ?_, .nil, ?_⟩
  · simp [hregion]
  · simp [hregion]

theorem settled_text {src : Source} {c : Content} {v : String} (hkind : c.kind = .text v)
    (hreads : src.Reads c.span.start.offset v.toList c.span.stop.offset) :
    Settled src (.leaf c) := by
  have hcontainer : c.kind.isContainer = false := by simp [hkind, Kind.isContainer]
  exact ⟨spaced_leaf hcontainer ⟨_, hreads⟩, (written_text hkind).mpr hreads⟩

namespace Reshape

variable {src : Source} {t : Doc} {ts : List Doc} {ps qs : List (Piece Doc)} {a b : Nat}

/-- Pieces that stand one right behind the other from `a` to `b`. -/
def Tiled (src : Source) : Nat → List (Piece Doc) → Nat → Prop
  | a, [], b => a = b
  | a, .space :: ps, b => ∃ m, a < m ∧ src.Blank a m ∧ Tiled src m ps b
  | a, .item t :: ps, b => a = t.label.span.start.offset ∧ Tiled src t.label.span.stop.offset ps b

@[simp] theorem tiled_nil : Tiled src a [] b ↔ a = b := Iff.rfl

theorem Tiled.append {m : Nat} (h : Tiled src a ps m) (h' : Tiled src m qs b) :
    Tiled src a (ps ++ qs) b := by
  induction ps generalizing a with
  | nil =>
    obtain rfl : a = m := h
    exact h'
  | cons p ps ih =>
    cases p with
    | space =>
      obtain ⟨n, hlt, hblank, hrest⟩ := h
      exact ⟨n, hlt, hblank, ih hrest⟩
    | item t => exact ⟨h.1, ih h.2⟩

theorem tiled_items : Tiled src a (ts.map .item) b ↔ Chained Eq a (ts.map label) b := by
  induction ts generalizing a with
  | nil => exact Iff.rfl
  | cons t ts ih => exact and_congr_right fun _ => ih

theorem tiled_space {cs : List Char} (h : src.Reads a cs b)
    (hspace : ∀ c ∈ cs, Text.isSpace c = true) :
    Tiled src a (if cs = [] then [] else [.space]) b := by
  split
  case isTrue hcs =>
    subst hcs
    have hsame : b = a := h.stop_eq
    exact hsame.symm
  case isFalse hcs =>
    have hne : a ≠ b := by
      rintro rfl
      exact hcs h.eq_nil
    have hle := h.le
    exact ⟨b, by omega, ⟨cs, h, hspace⟩, rfl⟩

theorem reads_splitSpace {span : Span} {v : String}
    (h : src.Reads span.start.offset v.toList span.stop.offset) :
    ∃ m n, (src.shift span.start (Text.byteLength (Text.splitSpace v.toList).leading)).offset = m ∧
      (src.shift span.stop
        (-(Text.byteLength (Text.splitSpace v.toList).trailing : Int))).offset = n ∧
      src.Reads span.start.offset (Text.splitSpace v.toList).leading m ∧
      src.Reads m (Text.splitSpace v.toList).text n ∧
      src.Reads n (Text.splitSpace v.toList).trailing span.stop.offset := by
  rw [← Text.splitSpace_append v.toList] at h
  obtain ⟨hleading, hrest⟩ := h.divide
  obtain ⟨htext, htrailing⟩ := hrest.divide
  exact ⟨_, _, hleading.offset_shift rfl, htrailing.offset_shift_neg rfl, hleading,
    htext, htrailing⟩

theorem tiled_cut (ht : Settled src t) :
    Tiled src t.label.span.start.offset (cut src t) t.label.span.stop.offset := by
  rw [cut]
  split
  case h_2 => exact ⟨rfl, rfl⟩
  case h_1 v hkind =>
    obtain ⟨m, n, hm, hn, hleading, htext, htrailing⟩ := reads_splitSpace (ht.written.text hkind)
    refine ((tiled_space hleading (Text.isSpace_leading _)).append ?_).append
      (tiled_space htrailing (Text.isSpace_trailing _))
    split
    case isTrue hnil =>
      rw [hnil] at htext
      exact htext.stop_eq.symm
    case isFalse => exact ⟨by simpa using hm.symm, by simpa using hn⟩

theorem eq_of_mem_cutText {u : Doc} {v : String} (h : .item u ∈ cutText src t v) :
    u = t.setLabel { t.label with
      kind := .text (String.ofList (Text.splitSpace v.toList).text)
      span := ⟨src.shift t.label.span.start (Text.byteLength (Text.splitSpace v.toList).leading),
        src.shift t.label.span.stop
          (-(Text.byteLength (Text.splitSpace v.toList).trailing : Int))⟩ } := by
  simp only [cutText, List.mem_append] at h
  rcases h with (h | h) | h
  · split at h <;> simp at h
  · split at h
    · simp at h
    · simpa using h
  · split at h <;> simp at h

theorem settled_cut {u : Doc} (ht : Everywhere (Settled src) t) (hu : .item u ∈ cut src t) :
    Everywhere (Settled src) u := by
  rw [cut] at hu
  split at hu
  case h_2 =>
    obtain rfl : u = t := by simpa using hu
    exact ht
  case h_1 v hkind =>
    obtain ⟨m, n, rfl, rfl, -, htext, -⟩ := reads_splitSpace (ht.self.written.text hkind)
    have hleaf := ht.self.toHoused.eq_leaf (by simp [hkind, Kind.isContainer])
    rw [eq_of_mem_cutText hu, hleaf, setLabel, everywhere_leaf]
    exact settled_text rfl (by simpa using htext)

theorem mem_pieces {u : Doc} {keeps : Bool}
    (h : .item u ∈ if keeps then ts.map .item else ts.flatMap (cut src)) :
    ∃ t ∈ ts, u = t ∨ .item u ∈ cut src t := by
  cases keeps with
  | true =>
    obtain ⟨t, ht, rfl⟩ : ∃ t ∈ ts, t = u := by simpa using h
    exact ⟨t, ht, .inl rfl⟩
  | false =>
    obtain ⟨t, ht, hut⟩ := List.mem_flatMap.mp h
    exact ⟨t, ht, .inr hut⟩

section Settle

variable {before : Bool} {u : Doc} {m : Nat}

/-- Between the nodes that are left there is only what the pieces of whitespace cover. -/
theorem chained_settle (hblank : src.Blank m a) (h : Tiled src a ps b)
    (hitems : ∀ t, .item t ∈ ps → src.Holds t.label.span) :
    Chained src.Blank m ((settle before ps).map label) b := by
  induction ps generalizing before m a with
  | nil =>
    obtain rfl : a = b := h
    exact hblank
  | cons p ps ih =>
    have hrest : ∀ t, .item t ∈ ps → src.Holds t.label.span :=
      fun t ht => hitems t (List.mem_cons_of_mem _ ht)
    cases p with
    | space =>
      obtain ⟨n, -, hspace, hps⟩ := h
      exact ih (hblank.append hspace) hps hrest
    | item t =>
      obtain ⟨rfl, hps⟩ := h
      obtain ⟨cs, hcs⟩ := hitems t List.mem_cons_self
      simp only [settle, List.map_cons, chained_cons, markSpaces, label_setLabel]
      exact ⟨hblank, ih (.empty hcs.stop) hps hrest⟩

theorem hasLeadingSpaces_settle (h : (settle before ps).head? = some u) :
    u.label.notes.hasLeadingSpaces = some (before || ps.head?.any Piece.isSpace) := by
  induction ps generalizing before with
  | nil => simp [settle] at h
  | cons p ps ih =>
    cases p with
    | space =>
      rw [settle] at h
      simpa [Piece.isSpace] using ih h
    | item t =>
      obtain rfl : markSpaces before (ps.head?.any Piece.isSpace) t = u := by simpa [settle] using h
      simp [markSpaces, Piece.isSpace]

/-- What comes next, a node or the end, starts further on just if there is whitespace first. -/
theorem start_settle (before : Bool) (h : Tiled src a ps b) :
    a ≤ ((settle before ps).head?.map fun u => u.label.span.start.offset).getD b ∧
      (a < ((settle before ps).head?.map fun u => u.label.span.start.offset).getD b ↔
        ps.head?.any Piece.isSpace = true) := by
  induction ps generalizing before a with
  | nil =>
    obtain rfl : a = b := h
    simp [settle]
  | cons p ps ih =>
    cases p with
    | space =>
      obtain ⟨n, hlt, -, hps⟩ := h
      have hle := (ih true hps).1
      have hfirst : a < ((settle true ps).head?.map fun u => u.label.span.start.offset).getD b := by
        omega
      exact ⟨Nat.le_of_lt hfirst, by simpa [settle, Piece.isSpace] using hfirst⟩
    | item t =>
      obtain ⟨rfl, -⟩ := h
      simp [settle, markSpaces, Piece.isSpace]

theorem apart_settle (h : Tiled src a ps b) :
    List.IsChain Apart ((settle before ps).map label) := by
  induction ps generalizing before a with
  | nil => exact .nil
  | cons p ps ih =>
    cases p with
    | space =>
      obtain ⟨n, -, -, hps⟩ := h
      exact ih hps
    | item t =>
      obtain ⟨-, hps⟩ := h
      rw [settle, List.map_cons, List.isChain_cons]
      refine ⟨?_, ih hps⟩
      intro d hd
      obtain ⟨u, hu, rfl⟩ : ∃ u, (settle false ps).head? = some u ∧ u.label = d := by
        simpa using hd
      have hleading := hasLeadingSpaces_settle hu
      have hstart := (start_settle false hps).2
      rw [hu] at hstart
      rw [Apart, hleading]
      simpa [markSpaces] using hstart

theorem last_settle (h : Tiled src a ps b) :
    ∀ c ∈ ((settle before ps).map label).getLast?,
      c.span.stop.offset < b ↔ c.notes.hasTrailingSpaces = some true := by
  induction ps generalizing before a with
  | nil => simp [settle]
  | cons p ps ih =>
    cases p with
    | space =>
      obtain ⟨n, -, -, hps⟩ := h
      exact ih hps
    | item t =>
      obtain ⟨-, hps⟩ := h
      have hstart := (start_settle false hps).2
      have hrest : ∀ c ∈ ((settle false ps).map label).getLast?,
          c.span.stop.offset < b ↔ c.notes.hasTrailingSpaces = some true := ih hps
      cases hsettle : settle false ps with
      | nil =>
        rw [hsettle] at hstart
        simpa [settle, hsettle, markSpaces] using hstart
      | cons u us =>
        rw [hsettle] at hrest
        rw [settle, hsettle, List.map_cons, List.map_cons, List.getLast?_cons_cons]
        exact hrest

theorem mem_settle (h : u ∈ settle before ps) :
    ∃ t leading trailing, .item t ∈ ps ∧ u = markSpaces leading trailing t := by
  induction ps generalizing before with
  | nil => simp [settle] at h
  | cons p ps ih =>
    cases p with
    | space =>
      obtain ⟨t, leading, trailing, ht, hu⟩ := ih h
      exact ⟨t, leading, trailing, List.mem_cons_of_mem _ ht, hu⟩
    | item t =>
      rw [settle] at h
      rcases List.mem_cons.mp h with hu | h
      · exact ⟨t, _, _, List.mem_cons_self, hu⟩
      · obtain ⟨v, leading, trailing, hv, hu⟩ := ih h
        exact ⟨v, leading, trailing, List.mem_cons_of_mem _ hv, hu⟩

theorem settled_settle (hitems : ∀ t, .item t ∈ ps → Everywhere (Settled src) t) :
    ∀ u ∈ settle before ps, Everywhere (Settled src) u := by
  intro u hu
  obtain ⟨t, leading, trailing, ht, rfl⟩ := mem_settle hu
  exact (hitems t ht).setLabel ((hitems t ht).self.setNotes _)

end Settle

theorem tiled_flatMap_cut (hts : ∀ t ∈ ts, Settled src t) (h : Chained Eq a (ts.map label) b) :
    Tiled src a (ts.flatMap (cut src)) b := by
  induction ts generalizing a with
  | nil => exact h
  | cons t ts ih =>
    obtain ⟨rfl, hrest⟩ := h
    rw [List.forall_mem_cons] at hts
    exact (tiled_cut hts.1).append (ih hts.2 hrest)

theorem isBlankList_cases (h : isBlankList ts = true) :
    ts = [] ∨ ∃ t v, ts = [t] ∧ t.label.kind = .text v ∧ Text.trim v = "" := by
  rw [isBlankList.eq_def] at h
  split at h
  case h_1 => exact .inl rfl
  case h_2 t =>
    cases hkind : t.label.kind with
    | text v => exact .inr ⟨t, v, rfl, hkind, by simpa [hkind, Kind.text?] using h⟩
    | _ => simp [hkind, Kind.text?] at h
  case h_3 => simp at h

theorem fst_whitespaceStep (src : Source) (c : Content) (ts : List Doc) :
    ∃ notes, (whitespaceStep src c ts).1 = { c with notes } := by
  rw [whitespaceStep]
  split
  · exact ⟨_, rfl⟩
  · exact ⟨_, rfl⟩

theorem span_reshape_whitespaceStep (src : Source) (t : Doc) :
    (t.reshape (whitespaceStep src)).label.span = t.label.span := by
  cases t with
  | leaf c => simp
  | node c ts =>
    obtain ⟨notes, hnotes⟩ := fst_whitespaceStep src c (ts.map (reshape (whitespaceStep src)))
    rw [reshape_node, label_node, hnotes, label_node]

theorem blank_of_isBlankList (hts : ∀ t ∈ ts, Settled src t) (h : isBlankList ts = true)
    (hstart : src.Reads a [] a) (hchain : Chained Eq a (ts.map label) b) : src.Blank a b := by
  rcases isBlankList_cases h with rfl | ⟨t, v, rfl, hkind, htrim⟩
  · obtain rfl : a = b := hchain
    exact .empty hstart
  · obtain ⟨rfl, rfl⟩ := hchain
    have ht := hts t List.mem_cons_self
    exact ⟨v.toList, ht.written.text hkind, Text.isSpace_of_trim htrim⟩

theorem tiled_pieces (keeps : Bool) (hts : ∀ t ∈ ts, Everywhere (Settled src) t)
    (h : Chained Eq a (ts.map label) b) :
    Tiled src a (if keeps then ts.map .item else ts.flatMap (cut src)) b := by
  cases keeps with
  | true => exact tiled_items.mpr h
  | false => exact tiled_flatMap_cut (fun t ht => (hts t ht).self) h

theorem settled_pieces (keeps : Bool) (hts : ∀ t ∈ ts, Everywhere (Settled src) t) (u : Doc)
    (hu : .item u ∈ if keeps then ts.map .item else ts.flatMap (cut src)) :
    Everywhere (Settled src) u := by
  obtain ⟨t, ht, rfl | hut⟩ := mem_pieces hu
  · exact hts u ht
  · exact settled_cut (hts t ht) hut

/-- A line feed that is ignored and the ends of texts leave only blanks between the nodes. -/
theorem settled_whitespace {leads : List (List Char)} {d : Doc}
    (hleads : ∀ lead ∈ leads, ∀ c ∈ lead, Text.isSpace c = true)
    (h : Everywhere (Packed src leads true) d) :
    Everywhere (Settled src) (whitespace src d) := by
  refine Everywhere.reshape ?_ ?_ h
  · intro c hc
    have hkind : c.kind.isContainer = false := by simpa using hc.shape.symm
    exact ⟨spaced_leaf hkind hc.framed.1, hc.written⟩
  intro c ts hpacked _ hus
  have hspans : (ts.map (reshape (whitespaceStep src))).map (fun t => t.label.span) =
      ts.map (fun t => t.label.span) := by
    simp [Function.comp_def, span_reshape_whitespaceStep]
  have hnil : ts = [] → ts.map (reshape (whitespaceStep src)) = [] := by
    rintro rfl
    rfl
  generalize ts.map (reshape (whitespaceStep src)) = us at hus hspans hnil ⊢
  have hfilled : ∀ lo hi, c.region? src = some (lo, hi) → ∃ mid, src.Blank lo mid ∧
      Chained Eq mid (us.map label) hi := by
    intro lo hi hregion
    obtain ⟨lead, hlead, mid, hreads, hchain⟩ := hpacked.filled lo hi hregion
    refine ⟨mid, ⟨lead, hreads, hleads lead hlead⟩, (chained_congr ?_).mpr hchain⟩
    have := congrArg (List.map fun s : Span => (s.start.offset, s.stop.offset)) hspans
    simpa [Function.comp_def] using this
  have hempty : c.region? src = none → us = [] := fun hnone => hnil (hpacked.empty hnone)
  rw [whitespaceStep]
  split
  case isTrue hblank =>
    rw [everywhere_node]
    refine ⟨⟨⟨⟨hpacked.shape, hpacked.framed, fun _ => rfl⟩, ?_, .nil, by simp⟩, hpacked.written⟩,
      by simp⟩
    intro lo hi hregion
    obtain ⟨mid, ⟨cs, hcs, hlead⟩, hchain⟩ := hfilled lo hi hregion
    have hrest := blank_of_isBlankList (fun u hu => (hus u hu).self) hblank hcs.stop hchain
    exact Source.Blank.append ⟨cs, hcs, hlead⟩ hrest
  case isFalse hblank =>
    cases hregion : c.region? src with
    | none =>
      rw [hempty hregion] at hblank
      exact absurd rfl hblank
    | some region =>
      have hitems := settled_pieces c.keepsWhitespace hus
      have htiled : ∀ lo hi, c.region? src = some (lo, hi) → ∃ mid, src.Blank lo mid ∧
          Tiled src mid (if c.keepsWhitespace then us.map .item else us.flatMap (cut src)) hi := by
        intro lo hi hlohi
        obtain ⟨mid, hlead, hchain⟩ := hfilled lo hi hlohi
        exact ⟨mid, hlead, tiled_pieces c.keepsWhitespace hus hchain⟩
      rw [everywhere_node]
      refine ⟨⟨⟨⟨hpacked.shape, hpacked.framed, ?_⟩, ?_, ?_, ?_⟩, hpacked.written⟩,
        settled_settle hitems⟩
      · intro hnone
        exact absurd (hregion.symm.trans hnone) (by simp)
      · intro lo hi hlohi
        obtain ⟨mid, hlead, hpieces⟩ := htiled lo hi hlohi
        exact chained_settle hlead hpieces fun t ht => (hitems t ht).self.framed.1
      · obtain ⟨mid, -, hpieces⟩ := htiled region.1 region.2 hregion
        exact apart_settle hpieces
      · intro lo hi hlohi
        obtain ⟨mid, -, hpieces⟩ := htiled lo hi hlohi
        exact last_settle hpieces

end Reshape

end Markup
