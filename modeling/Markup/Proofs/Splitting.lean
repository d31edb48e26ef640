import Markup.Proofs.Expressions
import Markup.Proofs.Readback

/-! Texts split at their expressions. The pieces of a text cover it: the first starts where the text
does, each starts where the one before it ends, and the last ends where the text does. Every piece
reads in the source what it stands for. -/
namespace Markup

theorem Source.shift_eq_location (src : Source) (l : Location) (delta : Int) :
    src.shift l delta = src.location (src.shift l delta).offset :=
  (location_offset_location src _).symm

namespace Reshape

open Markup.Tree

variable {src : Source} {t w : Doc} {c : Content} {seg : Segment} {segs : List Segment}
  {cs : List Char} {span : Span}

/-- The node that stands for a segment of the text `t`. -/
inductive PieceOf (src : Source) (t : Doc) : Segment → Doc → Prop where
  /-- A stretch of text is a text that keeps what is known about `t`. -/
  | text {cs : List Char} {span : Span} (hslice : src.slice span = .ok (String.ofList cs)) :
      PieceOf src t (.text cs) (.leaf { t.label with kind := .text (String.ofList cs), span })
  /-- An expression holds its text, which starts right behind the opening braces. -/
  | expression {cs : List Char} {span inner : Span}
      (hslice : src.slice span = .ok ("\x7b\x7b" ++ String.ofList cs ++ "\x7d\x7d"))
      (hinner : src.slice inner = .ok (String.ofList cs))
      (hstart : inner.start.offset = span.start.offset + 2) :
      PieceOf src t (.expression cs) (.node { kind := .interpolation, span }
        [.leaf { kind := .text (String.ofList cs), span := inner }])

/-- Each node starts where the one before it ends, the first at `a`, and the last ends at `b`. -/
def Meets : Location → List Doc → Location → Prop
  | a, [], b => a = b
  | a, w :: ws, b => w.label.span.start = a ∧ Meets w.label.span.stop ws b

/-- The nodes stand for the segments of the text `t` that are not empty, from `a` up to `b`. -/
structure Covers (src : Source) (t : Doc) (segs : List Segment) (a : Location) (ws : List Doc)
    (b : Location) : Prop where
  pieces : List.Forall₂ (PieceOf src t) (segs.filter (· ≠ .text [])) ws
  nonempty : ∀ w ∈ ws, w.label.span.start.offset < w.label.span.stop.offset
  located : ∀ w ∈ ws, Everywhere (fun u => src.Locates u.label.span) w
  meets : Meets a ws b

theorem PieceOf.reads (h : PieceOf src t seg w) :
    src.Reads w.label.span.start.offset seg.chars w.label.span.stop.offset := by
  cases h with
  | text hslice => simpa [Segment.chars] using Source.slice_eq_ok_iff.mp hslice
  | expression hslice _ _ => simpa [Segment.chars] using Source.slice_eq_ok_iff.mp hslice

theorem chars_ne_nil (hseg : seg ≠ .text []) : seg.chars ≠ [] := by
  cases seg with
  | text cs => simpa [Segment.chars] using hseg
  | expression cs => simp [Segment.chars]

theorem PieceOf.lt (h : PieceOf src t seg w) (hseg : seg ≠ .text []) :
    w.label.span.start.offset < w.label.span.stop.offset := by
  refine Nat.lt_of_le_of_ne h.reads.le fun hsame => chars_ne_nil hseg ?_
  have hreads := h.reads
  rw [← hsame] at hreads
  exact hreads.eq_nil

theorem pieceOf_textPiece {isFirst : Bool} (ht : t = .leaf t.label)
    (hreads : src.Reads span.start.offset cs span.stop.offset) :
    PieceOf src t (.text cs) (textPiece t isFirst cs span) := by
  rw [ht, textPiece]
  exact .text (Source.slice_eq_ok_iff.mpr (by simpa using hreads))

theorem pieceOf_expressionPiece
    (hreads : src.Reads span.start.offset (Segment.expression cs).chars span.stop.offset) :
    PieceOf src t (.expression cs) (expressionPiece src cs span) := by
  obtain ⟨hstart, -, hinner⟩ := reads_between_braces hreads
  refine .expression ?_ (Source.slice_eq_ok_iff.mpr (by simpa using hinner)) hstart
  exact Source.slice_eq_ok_iff.mpr (by simpa [Segment.chars] using hreads)

theorem Covers.cons {a b : Location} {ws : List Doc} (hpiece : PieceOf src t seg w)
    (hseg : seg ≠ .text []) (hlocated : Everywhere (fun u => src.Locates u.label.span) w)
    (hstart : w.label.span.start = a) (h : Covers src t segs w.label.span.stop ws b) :
    Covers src t (seg :: segs) a (w :: ws) b where
  pieces := by
    rw [List.filter_cons_of_pos (by simpa using hseg)]
    exact .cons hpiece h.pieces
  nonempty := List.forall_mem_cons.mpr ⟨hpiece.lt hseg, h.nonempty⟩
  located := List.forall_mem_cons.mpr ⟨hlocated, h.located⟩
  meets := ⟨hstart, h.meets⟩

/-- The cursor keeps its line and column right as it moves over the segments. -/
theorem covers_pieces (ht : t = .leaf t.label) {isFirst : Bool} {cursor : Location} {b : Nat}
    (hcursor : cursor = src.location cursor.offset)
    (hreads : src.Reads cursor.offset (segs.flatMap Segment.chars) b) :
    Covers src t segs cursor (pieces src t isFirst cursor segs) (src.location b) := by
  induction segs generalizing isFirst cursor with
  | nil =>
    have hstop : b = cursor.offset := by simpa using hreads.stop_eq
    exact ⟨.nil, by simp [pieces], by simp [pieces], hstop ▸ hcursor⟩
  | cons seg segs ih =>
    obtain ⟨hfirst, hrest⟩ := reads_segment hreads
    cases seg with
    | text cs =>
      rw [Segment.chars] at hfirst hrest
      have hstop := src.shift_eq_location cursor (Text.byteLength cs)
      rw [pieces]
      split
      case isTrue hcs =>
        have hsame : src.shift cursor (Text.byteLength cs) = cursor := by
          rw [hstop, hfirst.stop_eq, hcs, Text.byteLength_nil, Nat.add_zero, ← hcursor]
        rw [hsame] at hrest ⊢
        obtain ⟨hpieces, hnonempty, hlocated, hmeets⟩ := ih hcursor hrest
        exact ⟨by simpa [hcs] using hpieces, hnonempty, hlocated, hmeets⟩
      case isFalse hcs =>
        refine .cons (pieceOf_textPiece ht hfirst) (by simpa using hcs) ?_ ?_ ?_
        all_goals rw [ht, textPiece]
        · exact everywhere_leaf.mpr ⟨hcursor, hstop⟩
        · rfl
        · rw [← ht]
          exact ih hstop hrest
    | expression cs =>
      rw [byteLength_chars_expression] at hfirst hrest
      have hstop := src.shift_eq_location cursor (Text.byteLength cs + 4)
      rw [pieces]
      refine .cons (pieceOf_expressionPiece hfirst) (by simp) ?_ rfl (ih hstop hrest)
      rw [expressionPiece, everywhere_node, List.forall_mem_singleton, everywhere_leaf]
      exact ⟨⟨hcursor, hstop⟩, src.shift_eq_location _ _, src.shift_eq_location _ _⟩

/-- What takes the place of a child: itself, unless it is a text with expressions. -/
inductive SplitOut (src : Source) (t : Doc) : List Doc → Prop where
  | whole (h : ∀ v, t.label.kind = .text v → ¬ HasExpression v.toList) : SplitOut src t [t]
  | pieces {v : String} {segs : List Segment} {ws : List Doc} (hkind : t.label.kind = .text v)
      (h : HasExpression v.toList) (hsplits : Splits v.toList segs)
      (hcovers : Covers src t segs t.label.span.start ws t.label.span.stop) : SplitOut src t ws

/-- The children `vs` are the children `us` with all texts split, except in raw text. -/
def SplitsTexts (src : Source) (c : Content) (us vs : List Doc) : Prop :=
  if c.isScriptLike then vs = us
  else ∃ parts, List.Forall₂ (SplitOut src) us parts ∧ vs = parts.flatten

/-- A text stands where the source says what it holds. -/
def TextStands (src : Source) (c : Content) : Prop :=
  ∀ v, c.kind = .text v → src.slice c.span = .ok v ∧ src.Locates c.span

theorem splitOut_splitText (hleaf : t.label.kind.isText = true → t = .leaf t.label)
    (hstands : TextStands src t.label) : SplitOut src t (splitText src t) := by
  rw [splitText]
  split
  case h_2 hkind => exact .whole fun v hv => absurd hv (hkind v)
  case h_1 v hkind =>
    obtain ⟨hslice, hlocates⟩ := hstands v hkind
    split
    case h_1 seg hsegs =>
      refine .whole fun w hw => ?_
      obtain rfl := Kind.text.inj (hkind.symm.trans hw)
      exact segments_eq_singleton_iff.mp ⟨seg, hsegs⟩
    case h_2 hmany =>
      refine .pieces hkind ?_ (splits_segments _) ?_
      · by_contra hnone
        obtain ⟨seg, hsegs⟩ := segments_eq_singleton_iff.mpr hnone
        exact hmany seg hsegs
      · rw [hlocates.stop]
        apply covers_pieces (hleaf (by rw [hkind]; rfl)) hlocates.start
        rw [flatMap_chars_segments]
        exact Source.slice_eq_ok_iff.mp hslice

theorem splitOut_reshape (hshape : Shaped t) (hstands : TextStands src t.label) :
    SplitOut src (t.reshape (interpolationStep src))
      (splitText src (t.reshape (interpolationStep src))) := by
  have hlabel := label_reshape (fst_interpolationStep src) t
  refine splitOut_splitText ?_ (hlabel ▸ hstands)
  intro hkind
  rw [hlabel] at hkind ⊢
  obtain ⟨v, hv⟩ := Kind.isText_iff.mp hkind
  have hleaf := hshape.eq_leaf (by rw [hv]; rfl)
  rw [hleaf, reshape_leaf, label_leaf]

theorem splitsTexts_interpolationStep {ts : List Doc} (hts : ∀ t ∈ ts, Shaped t)
    (hstands : ∀ t ∈ ts, TextStands src t.label) :
    SplitsTexts src c (ts.map (reshape (interpolationStep src)))
      (interpolationStep src c (ts.map (reshape (interpolationStep src)))).2 := by
  rw [SplitsTexts, interpolationStep]
  split
  case isTrue => rfl
  case isFalse =>
    refine ⟨(ts.map (reshape (interpolationStep src))).map (splitText src), ?_, List.flatMap_def⟩
    rw [List.forall₂_map_right_iff, List.forall₂_same, List.forall_mem_map]
    exact fun t ht => splitOut_reshape (hts t ht) (hstands t ht)

end Reshape

open Reshape Markup.Tree

/-- Splitting the texts of a document, container by container from the inside out. A text without
expressions stays as it is, and so does every text in raw text; nodes that cover it take the place
of every other text. -/
theorem pieces_cover_texts (o : Options) (hdialect : o.dialect = .vue ∨ o.dialect = .angular)
    (s : Store) (h : s.Built)
    (htexts : ∀ id n, s.Reaches 0 id → s.node? id = some n → TextStands o.source n.toContent) :
    ∃ d out d', s.toDoc = .ok d ∧ Pass.interpolation.run o s = .ok out ∧ out.toDoc = .ok d' ∧
      d.Rewrites (SplitsTexts o.source) d' := by
  obtain ⟨d, -, hd, -, hshaped, -⟩ := h.wellFormed.exists_toDoc
  refine ⟨d, .ofDoc (interpolation o.source d), _, hd, ?_, Store.toDoc_ofDoc _, ?_⟩
  · have hsplits : o.dialect.hasInterpolation = true := by
      rcases hdialect with hdialect | hdialect <;> rw [hdialect] <;> rfl
    have hrun := Pass.run_of_toDoc hd (p := .interpolation) hsplits
    rwa [Pass.apply, if_pos hsplits] at hrun
  · have hstands := Store.everywhere_label_of_reaches hd htexts
    have hall : Everywhere (fun t => Shaped t ∧ TextStands o.source t.label) d :=
      fun t ht => ⟨hshaped t ht, hstands t ht⟩
    refine rewrites_reshape (fst_interpolationStep o.source) ?_ hall
    intro c ts _ hts
    exact splitsTexts_interpolationStep (fun t ht => (hts t ht).self.1)
      (fun t ht => (hts t ht).self.2)

def bracedText : String :=
  "ü\x7b\x7b a\n\x7d\x7d\x7b\x7bé\x7d\x7d\nx<script>\x7b\x7bs\x7d\x7d</script>\x7b\x7b y"

/-- Two expressions side by side between texts, with a line feed and longer characters, an
expression in raw text, and braces that are not closed. -/
def bracedStore : Store :=
  let span := (Source.ofString bracedText).span
  (Store.new (span 0 43)).growAll
    [(0, { kind := .text "ü\x7b\x7b a\n\x7d\x7d\x7b\x7bé\x7d\x7d\nx", span := span 0 17 }),
     (0, { kind := .element
            { name := "script", openTag := span 17 25, closeTag := some (span 30 39) }
           span := span 17 39 }),
     (2, { kind := .text "\x7b\x7bs\x7d\x7d", span := span 25 30 }),
     (0, { kind := .text "\x7b\x7b y", span := span 39 43 })]

theorem pieces_cover_texts_bracedStore :
    bracedStore.Built ∧
      (∀ id n, bracedStore.Reaches 0 id → bracedStore.node? id = some n →
        TextStands (.ofString bracedText) n.toContent) ∧
      ∃ d out d', bracedStore.toDoc = .ok d ∧
        Pass.interpolation.run { dialect := .vue, source := .ofString bracedText } bracedStore =
          .ok out ∧
        out.toDoc = .ok d' ∧ d.Rewrites (SplitsTexts (.ofString bracedText)) d' ∧
        (d'.preorder.map fun c => (c.kind.text?, c.span.start.offset, c.span.stop.offset)) =
          [(none, 0, 43), (some "ü", 0, 2), (none, 2, 9), (some " a\n", 4, 7), (none, 9, 15),
           (some "é", 11, 13), (some "\nx", 15, 17), (none, 17, 39),
           (some "\x7b\x7bs\x7d\x7d", 25, 30), (some "\x7b\x7b y", 39, 43)] := by
  have hbuilt : bracedStore.Built := Store.Built.growAll (.new _) _
  have hstands : ∀ id n, bracedStore.Reaches 0 id → bracedStore.node? id = some n →
      TextStands (.ofString bracedText) n.toContent := by
    have hall : ∀ m ∈ bracedStore.nodes.toList, ∀ v ∈ m.kind.text?,
        (Source.ofString bracedText).slice m.span = .ok v ∧
          m.span.start = (Source.ofString bracedText).location m.span.start.offset ∧
          m.span.stop = (Source.ofString bracedText).location m.span.stop.offset := by
      decide +kernel
    intro id n _ hn v hkind
    obtain ⟨hslice, hstart, hstop⟩ := hall n
      (Array.mem_toList_iff.mpr (Array.mem_of_getElem? hn)) v (Kind.text?_eq_some_iff.mpr hkind)
    exact ⟨hslice, hstart, hstop⟩
  obtain ⟨d, out, d', hd, hout, hd', hsplit⟩ :=
    pieces_cover_texts { dialect := .vue, source := .ofString bracedText } (.inl rfl) bracedStore
      hbuilt hstands
  refine ⟨hbuilt, hstands, d, out, d', hd, hout, hd', hsplit, ?_⟩
  rw [Pass.shown_eq hout hd']
  decide +kernel

end Markup
