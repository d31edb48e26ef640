import Markup.Proofs.Folding
import Markup.Proofs.Stages

/-! Coverage of the source. In a prepared draft the children of a node stand in order in its
content, what they leave uncovered is whitespace, and neighbours say truly whether there is any
between them. -/
namespace Markup

theorem Source.Reads.outside {src : Source} {a i j : Nat} {c : Char} (h : src.Reads i [c] j)
    (ha : src.Reads a [] a) : a ≤ i ∨ j ≤ a := by
  by_contra hinside
  obtain ⟨xs, hxs⟩ := h.start.between ha (by omega)
  obtain ⟨ys, hys⟩ := ha.between h.stop (by omega)
  have hunique : xs ++ ys = [c] := (hxs.append hys).unique h
  have hfirst := hxs.stop_eq
  have hsecond := hys.stop_eq
  rcases List.append_eq_singleton_iff.mp hunique with ⟨rfl, -⟩ | ⟨-, rfl⟩
  · rw [Text.byteLength_nil] at hfirst
    omega
  · rw [Text.byteLength_nil] at hsecond
    omega

theorem Source.Blank.isSpace {src : Source} {a b i j : Nat} {c : Char} (h : src.Blank a b)
    (hc : src.Reads i [c] j) (hai : a ≤ i) (hjb : j ≤ b) : Text.isSpace c = true := by
  obtain ⟨cs, hcs, hblank⟩ := h
  obtain ⟨xs, hxs⟩ := hcs.start.between hc.start hai
  obtain ⟨ys, hys⟩ := hc.stop.between hcs.stop hjb
  have hunique : xs ++ ([c] ++ ys) = cs := (hxs.append (hc.append hys)).unique hcs
  apply hblank
  simp [← hunique]

namespace Content

variable {src : Source} {lo hi : Nat} {c : Content} {cs : List Content}

/-- The nodes stand in order between two offsets, all other characters there are whitespace, and the
nodes know of it. -/
structure Cover (src : Source) (lo hi : Nat) (cs : List Content) : Prop where
  within : ∀ c ∈ cs, lo ≤ c.span.start.offset ∧ c.span.start.offset ≤ c.span.stop.offset ∧
    c.span.stop.offset ≤ hi
  ordered : cs.Pairwise fun c d => c.span.stop.offset ≤ d.span.start.offset
  covered : ∀ i x j, src.Reads i [x] j → lo ≤ i → j ≤ hi → Text.isSpace x = true ∨
    ∃ c ∈ cs, c.span.start.offset ≤ i ∧ j ≤ c.span.stop.offset
  apart : cs.IsChain Apart

theorem Chained.within (hchain : Chained src.Blank lo cs hi) (hheld : ∀ c ∈ cs, src.Holds c.span) :
    lo ≤ hi ∧ ∀ c ∈ cs, lo ≤ c.span.start.offset ∧ c.span.start.offset ≤ c.span.stop.offset ∧
      c.span.stop.offset ≤ hi := by
  induction cs generalizing lo with
  | nil => exact ⟨Source.Blank.le hchain, by simp⟩
  | cons c cs ih =>
    obtain ⟨hbefore, hrest⟩ := hchain
    rw [List.forall_mem_cons] at hheld
    obtain ⟨hstop, hmembers⟩ := ih hrest hheld.2
    have hstart := hbefore.le
    have hself := hheld.1.le
    refine ⟨by omega, List.forall_mem_cons.mpr ⟨⟨hstart, hself, hstop⟩, ?_⟩⟩
    intro d hd
    obtain ⟨hlo, hle, hhi⟩ := hmembers d hd
    exact ⟨by omega, hle, hhi⟩

theorem Chained.ordered (hchain : Chained src.Blank lo cs hi)
    (hheld : ∀ c ∈ cs, src.Holds c.span) :
    cs.Pairwise fun c d => c.span.stop.offset ≤ d.span.start.offset := by
  induction cs generalizing lo with
  | nil => exact List.Pairwise.nil
  | cons c cs ih =>
    rw [List.forall_mem_cons] at hheld
    refine List.pairwise_cons.mpr ⟨?_, ih hchain.2 hheld.2⟩
    intro d hd
    exact ((Chained.within hchain.2 hheld.2).2 d hd).1

theorem Chained.covered {i j : Nat} {x : Char} (hchain : Chained src.Blank lo cs hi)
    (hheld : ∀ c ∈ cs, src.Holds c.span) (hx : src.Reads i [x] j) (hlo : lo ≤ i) (hhi : j ≤ hi) :
    Text.isSpace x = true ∨ ∃ c ∈ cs, c.span.start.offset ≤ i ∧ j ≤ c.span.stop.offset := by
  induction cs generalizing lo with
  | nil => exact .inl (Source.Blank.isSpace hchain hx hlo hhi)
  | cons c cs ih =>
    obtain ⟨hbefore, hrest⟩ := hchain
    rw [List.forall_mem_cons] at hheld
    obtain ⟨ys, hys⟩ := hheld.1
    rcases hx.outside hys.start with hstart | hstart
    · rcases hx.outside hys.stop with hstop | hstop
      · rcases ih hrest hheld.2 hstop with hspace | ⟨d, hd, hcovers⟩
        · exact .inl hspace
        · exact .inr ⟨d, List.mem_cons_of_mem _ hd, hcovers⟩
      · exact .inr ⟨c, List.mem_cons_self, hstart, hstop⟩
    · exact .inl (hbefore.isSpace hx hlo hstart)

end Content

theorem Tree.Everywhere.cover {src : Source} {t : Doc} {lo hi : Nat}
    (h : Tree.Everywhere (Spaced src) t)
    (hregion : t.label.region? src = some (lo, hi)) :
    Content.Cover src lo hi (t.children.map Tree.label) := by
  have hchain := h.self.spaced lo hi hregion
  have hheld : ∀ c ∈ t.children.map Tree.label, src.Holds c.span := by
    simp only [List.forall_mem_map]
    intro u hu
    exact (h.of_mem_children hu).self.framed.1
  refine ⟨?_, ?_, ?_, h.self.apart⟩
  · exact (hchain.within hheld).2
  · exact hchain.ordered hheld
  · exact fun i x j hx hlo hhi => hchain.covered hheld hx hlo hhi

/-- A draft can be prepared, and in what comes out the children of every node cover its content. -/
theorem children_cover_content (steps : List Step) (hsteps : Step.balanced 0 steps = true)
    (o : Options) (hsource : o.source = .ofString (Draft.run {} steps).finish.1) :
    ∃ out, prepare o (Draft.run {} steps).finish.2 = .ok out ∧ out.checkSpans o.source = .ok () ∧
      ∀ id n ids, out.node? id = some n → n.children = some ids →
        ∃ kids, ids.mapM out.node? = some kids ∧
          ∀ lo hi, n.region? o.source = some (lo, hi) →
            Content.Cover o.source lo hi (kids.map (·.toContent)) := by
  simp only [Draft.finish_run] at hsource ⊢
  have hbuilt := Outline.packed_toDoc hsteps hsource
  have hspaced := Reshape.spaced_simpleElement
    ((Pass.settled_take hbuilt).mono fun _ ht => ht.toSpaced)
  refine ⟨_, prepare_ofDoc hbuilt, ?_, ?_⟩
  · exact checkSpans_of_housed (hspaced.mono fun _ ht => ht.toHoused)
  · intro id n ids hn hids
    obtain ⟨t, ht, hlabel, hchildren, kids, hkids, hcontents⟩ := Store.node?_ofDoc hn
    have hroots := Store.rootIds_children (hchildren.symm.trans hids)
    refine ⟨kids, hroots ▸ hkids, ?_⟩
    intro lo hi hregion
    rw [hlabel] at hregion
    rw [hcontents]
    exact (hspaced.of_mem_subtrees ht).cover hregion

/-- Whitespace between nodes, at the ends of contents and in an expression. -/
def spacedSteps : List Step :=
  [.text " a ", .openTag "p" [], .text "\n\x7b\x7b é \x7d\x7d ", .void "br", .text "b", .close,
   .comment "c", .text "d ", .selfClosing "x"]

theorem children_cover_content_spacedSteps :
    ∃ out, prepare { dialect := .angular, source := .ofString (Draft.run {} spacedSteps).finish.1 }
        (Draft.run {} spacedSteps).finish.2 = .ok out ∧
      out.checkSpans (.ofString (Draft.run {} spacedSteps).finish.1) = .ok () ∧
      ∀ id n ids, out.node? id = some n → n.children = some ids →
        ∃ kids, ids.mapM out.node? = some kids ∧
          ∀ lo hi, n.region? (.ofString (Draft.run {} spacedSteps).finish.1) = some (lo, hi) →
            Content.Cover (.ofString (Draft.run {} spacedSteps).finish.1) lo hi
              (kids.map (·.toContent)) :=
  children_cover_content spacedSteps (by decide) _ rfl

end Markup
