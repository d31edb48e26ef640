import Markup.Proofs.Refolding
import Markup.Proofs.Splitting

/-! Splitting twice. What a text is split into holds no further expression, neither in the stretches
of text nor between the braces, and a text without expressions is left alone. -/
namespace Markup

open Markup.Tree

namespace Reshape

variable {src : Source} {x : Char} {cs t : List Char} {w : Doc} {us : List Doc}

section Segments

/-- The pair behind a text is not the first one if the text has one of its own. -/
theorem FirstPair.not_infix (h : FirstPair x t) : ¬ [x, x] <:+: t := by
  rintro ⟨before, after, rfl⟩
  have hfirst := h before ⟨after ++ [x, x], by simp⟩
  simpa using congrArg List.length hfirst

theorem HasExpression.opening_infix (h : HasExpression cs) : opening <:+: cs := by
  obtain ⟨xs, -, hinfix⟩ := h
  exact (show opening <:+: opening ++ xs ++ closing from ⟨[], xs ++ closing, by simp⟩).trans hinfix

/-- The braces that close an expression stand behind the first character of the text around it. -/
theorem HasExpression.closing_infix {c : Char} (h : HasExpression (c :: cs)) : closing <:+: cs := by
  obtain ⟨xs, -, before, after, hsplit⟩ := h
  cases before with
  | nil =>
    obtain ⟨-, rfl⟩ : '\x7b' = c ∧ '\x7b' :: (xs ++ closing ++ after) = cs := by
      simpa [opening] using hsplit
    exact ⟨'\x7b' :: xs, after, by simp⟩
  | cons b before =>
    obtain ⟨-, rfl⟩ : b = c ∧ before ++ (opening ++ (xs ++ (closing ++ after))) = cs := by
      simpa using hsplit
    exact ⟨before ++ opening ++ xs, after, by simp⟩

def Segment.inner : Segment → List Char
  | text cs => cs
  | expression cs => cs

/-- A text before an expression has no opening pair, an expression no closing pair behind its first
character, and the last text no expression. -/
theorem not_hasExpression_of_mem_segments {seg : Segment} (h : seg ∈ segments cs) :
    ¬ HasExpression seg.inner := by
  fun_induction segments cs with
  | case1 cs hnone =>
    obtain rfl := List.mem_singleton.mp h
    exact match?_eq_none_iff.mp hnone
  | case2 cs m hsome ih =>
    obtain ⟨-, hopen, c, e, he, hclose⟩ := match?_eq_some_iff.mp hsome
    rcases List.mem_cons.mp h with rfl | h
    · exact fun hexpression => hopen.not_infix hexpression.opening_infix
    · rcases List.mem_cons.mp h with rfl | h
      · rw [Segment.inner, he]
        exact fun hexpression => hclose.not_infix hexpression.closing_infix
      · exact ih h

end Segments

/-- The node is no text with an expression in it. -/
def Whole (w : Doc) : Prop := ∀ v, w.label.kind = .text v → ¬ HasExpression v.toList

/-- No expression is left to be split out of the children, unless they are raw text. -/
def SplitUp (w : Doc) : Prop := w.label.isScriptLike = false → ∀ u ∈ w.children, Whole u

theorem whole_of_text {v : String} (hkind : w.label.kind = .text v)
    (h : ¬ HasExpression v.toList) : Whole w := by
  intro v' hkind'
  obtain rfl := Kind.text.inj (hkind.symm.trans hkind')
  exact h

theorem splitUp_leaf (c : Content) : SplitUp (.leaf c) := fun _ u hu => by simp at hu

theorem splitText_eq_self (h : Whole w) : splitText src w = [w] := by
  rw [splitText]
  split
  case h_2 => rfl
  case h_1 v hkind =>
    obtain ⟨seg, hsegs⟩ := segments_eq_singleton_iff.mpr (h v hkind)
    rw [hsegs]

theorem interpolationStep_eq_self (h : SplitUp w) :
    interpolationStep src w.label w.children = (w.label, w.children) := by
  rw [interpolationStep]
  split
  case isTrue => rfl
  case isFalse hscript =>
    have hall := h (Bool.eq_false_iff.mpr hscript)
    rw [List.flatMap_congr fun u hu => splitText_eq_self (hall u hu), List.flatMap_singleton']

theorem splitUp_pieces {c : Content} {isFirst : Bool} {cursor : Location} {segs : List Segment}
    (h : ∀ seg ∈ segs, ¬ HasExpression seg.inner) :
    ∀ u ∈ pieces src (.leaf c) isFirst cursor segs, Whole u ∧ Everywhere SplitUp u := by
  induction segs generalizing isFirst cursor with
  | nil => simp [pieces]
  | cons seg segs ih =>
    rw [List.forall_mem_cons] at h
    cases seg with
    | text cs =>
      rw [pieces]
      split
      case isTrue => exact ih h.2
      case isFalse =>
        refine List.forall_mem_cons.mpr ⟨⟨?_, everywhere_leaf.mpr (splitUp_leaf _)⟩, ih h.2⟩
        exact whole_of_text rfl (by simpa [Segment.inner] using h.1)
    | expression cs =>
      have hinner : ¬ HasExpression (String.ofList cs).toList := by
        simpa [Segment.inner] using h.1
      rw [pieces, expressionPiece]
      refine List.forall_mem_cons.mpr ⟨⟨fun v hkind => by simp at hkind, ?_⟩, ih h.2⟩
      rw [everywhere_node, List.forall_mem_singleton, everywhere_leaf]
      exact ⟨fun _ => List.forall_mem_singleton.mpr (whole_of_text rfl hinner), splitUp_leaf _⟩

theorem splitUp_splitText (hshaped : Shaped w) (h : Everywhere SplitUp w) :
    ∀ u ∈ splitText src w, Whole u ∧ Everywhere SplitUp u := by
  rw [splitText]
  split
  case h_2 hkind =>
    exact List.forall_mem_singleton.mpr ⟨fun v hv => absurd hv (hkind v), h⟩
  case h_1 v hkind =>
    split
    case h_1 seg hsegs =>
      refine List.forall_mem_singleton.mpr ⟨whole_of_text hkind ?_, h⟩
      exact segments_eq_singleton_iff.mp ⟨seg, hsegs⟩
    case h_2 =>
      rw [hshaped.eq_leaf (by rw [hkind]; rfl)]
      exact splitUp_pieces fun _ => not_hasExpression_of_mem_segments

theorem splitUp_interpolationStep {c : Content} (hshaped : ∀ u ∈ us, Shaped u)
    (h : ∀ u ∈ us, Everywhere SplitUp u) :
    Everywhere SplitUp (.node c (interpolationStep src c us).2) := by
  rw [interpolationStep, everywhere_node]
  split
  case isTrue hscript =>
    refine ⟨fun hplain => ?_, h⟩
    rw [label_node, hscript] at hplain
    contradiction
  case isFalse =>
    have hpieces : ∀ u ∈ us.flatMap (splitText src), Whole u ∧ Everywhere SplitUp u := by
      intro u hu
      obtain ⟨w, hw, huw⟩ := List.mem_flatMap.mp hu
      exact splitUp_splitText (hshaped w hw) (h w hw) u huw
    exact ⟨fun _ u hu => (hpieces u hu).1, fun u hu => (hpieces u hu).2⟩

theorem splitUp_interpolation {d : Doc} (h : Everywhere Shaped d) :
    Everywhere SplitUp (interpolation src d) := by
  refine Everywhere.reshape (fun c _ => splitUp_leaf c) ?_ h
  intro c ts _ hts hus
  refine splitUp_interpolationStep (List.forall_mem_map.mpr fun t ht => ?_) hus
  exact ((carries_interpolation (hts t ht)).shaped _ List.mem_cons_self).self

theorem interpolation_interpolation {d : Doc} (h : Everywhere Shaped d) :
    interpolation src (interpolation src d) = interpolation src d :=
  reshape_eq_self ((splitUp_interpolation h).mono fun _ => interpolationStep_eq_self)

end Reshape

open Reshape

/-- Splitting the texts of a document a second time changes nothing, whatever source the spans point
into. Where texts are split at all, no expression is left in any text that is not raw, and none in
the text of another expression. -/
theorem splitting_again_changes_nothing (o : Options) (s : Store) (h : s.Built) :
    Pass.interpolation.SettlesAtOnce o s ∧
      (o.dialect = .vue ∨ o.dialect = .angular → ∃ out d, Pass.interpolation.run o s = .ok out ∧
        out.toDoc = .ok d ∧ Everywhere SplitUp d) := by
  obtain ⟨d, -, hd, -, hshaped, -⟩ := h.wellFormed.exists_toDoc
  cases hdialect : o.dialect.hasInterpolation with
  | false =>
    have hrun : Pass.interpolation.run o s = .ok s := 
      Pass.run_interpolation o s (by simp [hdialect])
    refine ⟨⟨s, s, hrun, hrun, rfl, ?_⟩, ?_⟩
    · rw [Store.diff_of_toDoc hd hd, (diff_eq_none_iff d d).mpr rfl]
    · rintro (hvue | hangular)
      · simp [hvue, Dialect.hasInterpolation] at hdialect
      · simp [hangular, Dialect.hasInterpolation] at hdialect
  | true =>
    have happly : Pass.interpolation.apply o = interpolation o.source := by
      rw [Pass.apply, if_pos hdialect]
    refine ⟨Pass.settlesAtOnce hd hdialect happly
      (interpolation_interpolation hshaped), fun _ => ?_⟩
    have hout := Pass.run_of_toDoc hd (p := .interpolation) hdialect
    rw [happly] at hout
    exact ⟨_, _, hout, Store.toDoc_ofDoc _, splitUp_interpolation hshaped⟩

/-- Braces inside expressions and at their ends, an expression that is all braces, one in raw text,
and an opening pair that is not closed. The spans say nothing of this. -/
def bracesStore : Store :=
  (Store.new {}).growAll
    [(0, { kind := .text
             "\x7b\x7b \x7b\x7ba\x7d\x7d\x7d\x7b\x7b\x7d\x7dx\x7d\x7d\x7b\x7b\x7b\x7d\x7d" }),
     (0, { kind := .element { name := "script", openTag := {} } }),
     (2, { kind := .text "\x7b\x7bs\x7d\x7d" }),
     (0, { kind := .interpolation }),
     (4, { kind := .text "b\x7b\x7bc\x7d\x7d\x7b\x7b" })]

theorem splitting_again_changes_nothing_bracesStore :
    bracesStore.Built ∧
      Pass.interpolation.SettlesAtOnce { dialect := .vue, source := .ofString "" } bracesStore ∧
      ∃ out d, Pass.interpolation.run { dialect := .vue, source := .ofString "" } bracesStore =
          .ok out ∧
        out.toDoc = .ok d ∧ Everywhere SplitUp d := by
  have hbuilt : bracesStore.Built := Store.Built.growAll (.new _) _
  obtain ⟨hsettles, hsplit⟩ :=
    splitting_again_changes_nothing { dialect := .vue, source := .ofString "" } bracesStore hbuilt
  exact ⟨hbuilt, hsettles, hsplit (.inl rfl)⟩

end Markup
