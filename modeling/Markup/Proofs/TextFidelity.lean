import Markup.Proofs.Stages

/-! Texts and the source. Until simple elements are written out, every text of a drafted document is
what the source says at its span. -/
namespace Markup

/-- Every text that can be reached reads its value in the source. -/
def Store.TextsRead (src : Source) (s : Store) : Prop :=
  ∃ ids, s.dfs = .ok ids ∧ ∀ id ∈ ids, ∃ n, s.node? id = some n ∧
    ∀ v, n.kind = .text v → src.slice n.span = .ok v

theorem Store.textsRead_ofDoc {src : Source} {d : Doc}
    (h : ∀ c ∈ d.preorder, ∀ v, c.kind = .text v → src.slice c.span = .ok v) :
    (ofDoc d).TextsRead src := by
  refine ⟨List.range d.size, dfs_ofDoc d, ?_⟩
  intro id hid
  obtain ⟨n, hn, hmem⟩ := node_ofDoc_of_lt (List.mem_range.mp hid)
  exact ⟨n, hn, fun v hv => h n.toContent hmem v hv⟩

theorem Content.Written.slice {src : Source} {c : Content} {guarded : Bool} {v : String}
    (h : c.Written src guarded) (hkind : c.kind = .text v) : src.slice c.span = .ok v :=
  Source.slice_eq_ok_iff.mpr (h.text hkind)

/-- Whichever of the first nine passes have run, every text of a drafted document is the slice of
the draft at its span. -/
theorem texts_read_through_passes (steps : List Step) (hsteps : Step.balanced 0 steps = true)
    (o : Options) (hsource : o.source = .ofString (Draft.run {} steps).finish.1)
    (n : Nat) (hn : n ≤ 9) :
    ∃ s, Pass.runAll o (Draft.run {} steps).finish.2 (Pass.all.take n) = .ok s ∧
      s.TextsRead o.source := by
  simp only [Draft.finish_run] at hsource ⊢
  have hbuilt := Outline.packed_toDoc hsteps hsource
  have hlength : n < Pass.all.length := by
    simp only [Pass.all, List.length_cons, List.length_nil]
    omega
  have hwritten := (Pass.ready_take hlength hbuilt).written
  rw [Tree.everywhere_label_iff] at hwritten
  refine ⟨_, Pass.runAll_ofDoc o _ _, Store.textsRead_ofDoc ?_⟩
  intro c hc v hv
  exact (hwritten c hc).slice hv

/-- A draft with an ignored line feed, a guard, a section between texts, an expression, whitespace
to cut off and characters of several bytes. -/
def mixedSteps : List Step :=
  [.text "a ", .conditionalStart "IE", .openTag "pre" [], .conditionalEnd,
   .text "\n\n\x7b\x7b é \x7d\x7d", .cdata "ü", .close, .text " b "]

theorem texts_read_through_passes_mixedSteps :
    ∃ s, Pass.runAll
        { dialect := .vue, source := .ofString (Draft.run {} mixedSteps).finish.1 }
        (Draft.run {} mixedSteps).finish.2 (Pass.all.take 9) = .ok s ∧
      s.TextsRead (.ofString (Draft.run {} mixedSteps).finish.1) :=
  texts_read_through_passes mixedSteps (by decide) _ rfl 9 (Nat.le_refl 9)

end Markup
