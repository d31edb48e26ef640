import Markup.Proofs.Independence
import Markup.Proofs.Runs

/-! Folding twice. Folding leaves nothing behind that could be folded, and where there is nothing to
fold it changes nothing. -/
namespace Markup

open Markup.Tree

namespace Reshape

variable {t : Doc} {us : List Doc}

section Cdata

def Sectionless (us : List Doc) : Prop := ∀ u ∈ us, isCdata u = false

theorem isCdata_of_text {v : String} (h : t.label.kind = .text v) : isCdata t = false := by
  rw [isCdata, h]

theorem isCdata_literal (t : Doc) : isCdata (literal t) = false := by
  rw [literal]
  split
  case h_1 => rfl
  case h_2 hkind =>
    rw [isCdata]
    split
    case h_1 v hv => exact absurd hv (hkind v)
    case h_2 => rfl

theorem cdataStep_eq_self (h : Sectionless us) (c : Content) : cdataStep c us = (c, us) := by
  rw [cdataStep, if_neg (by simpa [Sectionless] using h)]

theorem everywhere_literal (h : Everywhere (fun t => Sectionless t.children) t) :
    Everywhere (fun t => Sectionless t.children) (literal t) := by
  rw [literal]
  split
  case h_1 =>
    rw [everywhere_leaf]
    exact fun u hu => by simp at hu
  case h_2 => exact h

/-- No section is left in a child list, and none comes back into one below it. -/
theorem sectionless_cdataStep (c : Content)
    (h : ∀ u ∈ us, Everywhere (fun t => Sectionless t.children) u) :
    ∀ u ∈ (cdataStep c us).2,
      isCdata u = false ∧ Everywhere (fun t => Sectionless t.children) u := by
  rw [cdataStep]
  split
  case isTrue =>
    apply forall_coalesce
    · rintro t v w span - ⟨-, ht⟩
      refine ⟨isCdata_of_text (by rw [label_setLabel]), ht.setLabel ?_⟩
      rw [children_setLabel]
      exact ht.self
    · exact List.forall_mem_map.mpr fun u hu => ⟨isCdata_literal u, everywhere_literal (h u hu)⟩
  case isFalse hany =>
    intro u hu
    refine ⟨?_, h u hu⟩
    simp only [List.any_eq_true, not_exists, not_and, Bool.not_eq_true] at hany
    exact hany u hu

theorem sectionless_cdata (d : Doc) : Everywhere (fun t => Sectionless t.children) (cdata d) := by
  refine Everywhere.reshape (P := fun _ => True) ?_ ?_ fun _ _ => trivial
  · exact fun c _ u hu => by simp at hu
  · intro c ts _ _ hts
    have hstep := sectionless_cdataStep c hts
    exact everywhere_node.mpr ⟨fun u hu => (hstep u hu).1, fun u hu => (hstep u hu).2⟩

theorem cdata_cdata (d : Doc) : cdata (cdata d) = cdata d :=
  reshape_eq_self ((sectionless_cdata d).mono fun t ht => cdataStep_eq_self ht t.label)

end Cdata

theorem simpleElement_simpleElement (d : Doc) :
    simpleElement (simpleElement d) = simpleElement d := by
  refine reshape_eq_self ((clear_simpleElement d).mono fun t ht => ?_)
  rw [simpleElementStep, foldSimple_eq_self ht]

end Reshape

open Reshape

/-- The pass runs on the store and again on the result. The second time it gives the same store, so
a comparison finds no difference. -/
def Pass.SettlesAtOnce (o : Options) (s : Store) (p : Pass) : Prop :=
  ∃ once twice, p.run o s = .ok once ∧ p.run o once = .ok twice ∧ twice = once ∧
    twice.diff once = .ok none

theorem Pass.settlesAtOnce {o : Options} {s : Store} {d : Doc} {p : Pass} {f : Doc → Doc}
    (hd : s.toDoc = .ok d) (hp : p.rewrites o = true) (happly : p.apply o = f)
    (hf : f (f d) = f d) : p.SettlesAtOnce o s := by
  subst happly
  refine ⟨_, _, run_of_toDoc hd hp, run_ofDoc o p _, by rw [hf], ?_⟩
  · rw [Store.diff_of_toDoc (Store.toDoc_ofDoc _) (Store.toDoc_ofDoc _), hf,
      (diff_eq_none_iff _ _).mpr rfl]

/-- Folding the sections of a document a second time changes nothing, and neither does folding its
simple elements a second time. -/
theorem folding_again_changes_nothing (o : Options) (s : Store) (h : s.Built) :
    Pass.cdata.SettlesAtOnce o s ∧ Pass.simpleElement.SettlesAtOnce o s := by
  obtain ⟨d, -, hd, -⟩ := h.wellFormed.exists_toDoc
  exact ⟨Pass.settlesAtOnce hd rfl rfl (cdata_cdata d),
    Pass.settlesAtOnce hd rfl rfl (simpleElement_simpleElement d)⟩

def sectionedText : String := nestedText ++ "f<![CDATA[<]]>g"

/-- The nested elements again, followed by a section between two texts. -/
def sectionedStore : Store :=
  let span (start stop : Nat) : Span := ⟨.ofOffset start, .ofOffset stop⟩
  nestedStore.growAll
    [(0, { kind := .text "f", span := span 39 40 }),
     (0, { kind := .cdata "<", span := span 40 53, notes := { hasTrailingSpaces := some true } }),
     (0, { kind := .text "g", span := span 53 54 })]

theorem folding_again_changes_nothing_sectionedStore :
    sectionedStore.Built ∧
      Pass.cdata.SettlesAtOnce { source := .ofString sectionedText } sectionedStore ∧
      Pass.simpleElement.SettlesAtOnce { source := .ofString sectionedText } sectionedStore := by
  have hbuilt : sectionedStore.Built := (Store.Built.growAll (.new _) _).growAll _
  exact ⟨hbuilt, folding_again_changes_nothing _ _ hbuilt⟩

end Markup
