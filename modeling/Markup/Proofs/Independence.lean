import Markup.Divergence
import Markup.Proofs.Annotation
import Markup.Proofs.Unfolding

/-! Preparing depends on the document alone. Neither the numbers of the nodes nor links, detached
nodes or shared child lists leave a trace, whether a store is accepted or refused. -/
namespace Markup

mutual
theorem Tree.diff_eq_none_iff : ∀ a b : Doc, Tree.diff a b = none ↔ a = b
  | .leaf c, b => by cases b <;> simp [Tree.diff, Tree.head]
  | .node c ts, .leaf d => by simp [Tree.diff, Tree.head]
  | .node c ts, .node d us => by
    by_cases hlength : ts.length = us.length
    case pos =>
      have hall := Tree.diffAll_eq_none_iff 0 ts us hlength
      by_cases hcontent : c = d <;> simp [Tree.diff, Tree.head, hlength, hcontent, hall]
    case neg =>
      have hne : ts ≠ us := fun heq => hlength (heq ▸ rfl)
      simp [Tree.diff, Tree.head, hlength, hne]
theorem Tree.diffAll_eq_none_iff : ∀ (i : Nat) (ts us : List Doc), ts.length = us.length →
    (Tree.diffAll i ts us = none ↔ ts = us)
  | _, [], [], _ => by simp [Tree.diffAll]
  | i, t :: ts, u :: us, hlength => by
    have hhead := Tree.diff_eq_none_iff t u
    have htail := Tree.diffAll_eq_none_iff (i + 1) ts us (Nat.succ.inj hlength)
    rw [Tree.diffAll, List.cons.injEq, ← hhead, ← htail]
    cases Tree.diff t u <;> simp
end

theorem Store.diff_of_toDoc {s t : Store} {d e : Doc} (hs : s.toDoc = .ok d)
    (ht : t.toDoc = .ok e) : s.diff t = .ok (Tree.diff d e) := by
  simp [diff, hs, ht, bind, Except.bind, pure, Except.pure]

theorem Store.exists_of_forM_eq_error {α ε : Type} {f : α → Except ε Unit} {xs : List α} {e : ε}
    (h : xs.forM f = .error e) : ∃ x ∈ xs, f x = .error e := by
  induction xs with
  | nil => simp [List.forM, pure, Except.pure] at h
  | cons x xs ih =>
    cases hx : f x with
    | error e' =>
      simp only [List.forM, bind, Except.bind, hx] at h
      exact ⟨x, List.mem_cons_self, hx.trans h⟩
    | ok u =>
      simp only [List.forM, bind, Except.bind, hx] at h
      obtain ⟨y, hy, hye⟩ := ih h
      exact ⟨y, List.mem_cons_of_mem _ hy, hye⟩

/-- A store with a document is refused only for a span that does not fit the source. -/
theorem Store.checkSpans_eq_error {s : Store} {d : Doc} {src : Source} {e : Error}
    (h : s.toDoc = .ok d) (he : s.checkSpans src = .error e) :
    ∃ start stop, e = .spanOutOfBounds start stop src.size := by
  rw [checkSpans_of_toDoc h] at he
  obtain ⟨c, -, hc⟩ := exists_of_forM_eq_error he
  obtain ⟨span, -, hspan⟩ := exists_of_forM_eq_error hc
  refine ⟨span.start.offset, span.stop.offset, ?_⟩
  rw [Source.slice] at hspan
  split at hspan
  · simp [Except.map] at hspan
  · simpa [Except.map] using hspan.symm

/-- Two stores between which a comparison finds no difference are prepared alike: both are refused
for the same span, or the results are the same node by node. -/
theorem prepare_depends_on_document (o : Options) (s t : Store) (hs : s.Rooted) (ht : t.Rooted) :
    ∃ r, s.diff t = .ok r ∧ (r = none →
      (∃ start stop, prepare o s = .error (.spanOutOfBounds start stop o.source.size) ∧
        prepare o t = .error (.spanOutOfBounds start stop o.source.size)) ∨
      ∃ out, prepare o s = .ok out ∧ prepare o t = .ok out) := by
  obtain ⟨d, hd⟩ := Store.exists_toDoc_iff_rooted.mpr hs
  obtain ⟨e, he⟩ := Store.exists_toDoc_iff_rooted.mpr ht
  refine ⟨_, Store.diff_of_toDoc hd he, ?_⟩
  intro hnone
  obtain rfl := (Tree.diff_eq_none_iff d e).mp hnone
  have hcheck : t.checkSpans o.source = s.checkSpans o.source := by
    rw [Store.checkSpans_of_toDoc hd, Store.checkSpans_of_toDoc he]
  rw [prepare_eq, prepare_eq, hcheck, hd, he]
  cases hresult : s.checkSpans o.source with
  | error e =>
    obtain ⟨start, stop, rfl⟩ := Store.checkSpans_eq_error hd hresult
    exact .inl ⟨start, stop, rfl, rfl⟩
  | ok u => exact .inr ⟨_, rfl, rfl⟩

def twin : Content :=
  { kind := .element { name := "b", openTag := ⟨.ofOffset 0, .ofOffset 3⟩ }
    span := ⟨.ofOffset 0, .ofOffset 5⟩ }

def twinText : Content := { kind := .text "x ", span := ⟨.ofOffset 3, .ofOffset 5⟩ }

def twinDoc : Doc :=
  .node { kind := .root } [.node twin [.leaf twinText], .node twin [.leaf twinText]]

/-- The same document from one element that is listed twice, with wrong links and a stray node that
lists nodes that are not there. -/
def tangledStore : Store :=
  ⟨#[{ kind := .root, parent := some 9, children := some [3, 3] },
     { twinText with prev := some 1, next := some 0 },
     { kind := .element { name := "i", openTag := {} }, children := some [2, 7] },
     { twin with parent := some 1, children := some [1] }]⟩

/-- Read against its source, the document is prepared from both stores alike. Read against nothing,
it is refused for the same span. -/
theorem prepare_depends_on_document_tangledStore :
    tangledStore ≠ .ofDoc twinDoc ∧ tangledStore.Rooted ∧ (Store.ofDoc twinDoc).Rooted ∧
      tangledStore.diff (.ofDoc twinDoc) = .ok none ∧
      (∃ out, prepare { source := .ofString "<b>x " } tangledStore = .ok out ∧
        prepare { source := .ofString "<b>x " } (.ofDoc twinDoc) = .ok out ∧
        (out.nodes.toList.map fun n => (n.kind.text?, n.children)) =
          [(none, some [1, 3]), (none, some [2]), (some "x", none), (none, some [4]),
           (some "x", none)]) ∧
      prepare { source := .ofString "" } tangledStore = .error (.spanOutOfBounds 0 5 0) ∧
      prepare { source := .ofString "" } (.ofDoc twinDoc) = .error (.spanOutOfBounds 0 5 0) := by
  have htangled : tangledStore.toDoc = .ok twinDoc := rfl
  have htwin := Store.toDoc_ofDoc twinDoc
  have hrooted := Store.exists_toDoc_iff_rooted.mp ⟨_, htangled⟩
  have hrooted' := Store.exists_toDoc_iff_rooted.mp ⟨_, htwin⟩
  have hdiff : tangledStore.diff (.ofDoc twinDoc) = .ok none := by
    rw [Store.diff_of_toDoc htangled htwin, (Tree.diff_eq_none_iff twinDoc twinDoc).mpr rfl]
  have halike : ∀ o, _ := fun o =>
    prepare_depends_on_document o tangledStore (.ofDoc twinDoc) hrooted hrooted'
  simp only [hdiff, Except.ok.injEq, ↓existsAndEq, true_and, forall_const] at halike
  refine ⟨by decide, hrooted, hrooted', hdiff, ?_, ?_⟩
  · have hshown : ((prepare { source := .ofString "<b>x " } tangledStore).toOption.elim []
        fun out => out.nodes.toList.map fun n => (n.kind.text?, n.children)) =
          [(none, some [1, 3]), (none, some [2]), (some "x", none), (none, some [4]),
           (some "x", none)] := by
      decide +kernel
    rcases halike { source := .ofString "<b>x " } with ⟨start, stop, herror, -⟩ | ⟨out, hout, hout'⟩
    · simp [herror, Except.toOption] at hshown
    · rw [hout] at hshown
      exact ⟨out, hout, hout', hshown⟩
  · have hrefused : prepare { source := .ofString "" } tangledStore =
        .error (.spanOutOfBounds 0 5 0) := rfl
    rcases halike { source := .ofString "" } with ⟨start, stop, herror, herror'⟩ | ⟨out, hout, -⟩
    · exact ⟨hrefused, herror'.trans (herror.symm.trans hrefused)⟩
    · simp [hrefused] at hout

end Markup
