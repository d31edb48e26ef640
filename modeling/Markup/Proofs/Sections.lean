import Markup.Proofs.Refolding

/-! Sections and the texts next to them. In a child list with a section, one text takes the place of
each stretch of texts and sections that is as long as it can be; other nodes, and other child lists,
stay as they are. -/
namespace Markup

open Markup.Tree

/-- What a text or a section is written as. Other kinds are not written as text. -/
def Kind.literal? : Kind → Option String
  | text value => some value
  | cdata value => some ("<![CDATA[" ++ value ++ "]]>")
  | _ => none

namespace Reshape

variable {t v : Doc} {ts us vs : List Doc} {words : List String}

/-- The texts and sections in `ts` are written as the words. -/
def Spells (ts : List Doc) (words : List String) : Prop :=
  List.Forall₂ (fun t word => t.label.kind.literal? = some word) ts words

/-- The text that takes the place of a stretch of texts and sections, where `t` is the first and
`last` the last of them. -/
def runText (t last : Doc) (words : List String) : Doc :=
  .leaf {
    kind := .text (String.join words)
    span := ⟨t.label.span.start, last.label.span.stop⟩
    notes := t.label.notes }

/-- What takes the place of a part of a child list. -/
inductive BecomesOne : List Doc → Doc → Prop where
  | other {t : Doc} (h : t.label.kind.literal? = none) : BecomesOne [t] t
  | run {t : Doc} {ts : List Doc} {words : List String} (h : Spells (t :: ts) words) :
      BecomesOne (t :: ts) (runText t ((t :: ts).getLast (List.cons_ne_nil t ts)) words)

def Apart (t u : Doc) : Prop := ¬ (t.label.kind.isText = true ∧ u.label.kind.isText = true)

/-- The list `us` is cut into parts, and `vs` has one node for each of them. No two texts of `vs`
are neighbours, so no stretch of texts and sections is cut in two. -/
def JoinsRuns (us vs : List Doc) : Prop :=
  ∃ parts : List (List Doc), parts.flatten = us ∧ List.Forall₂ BecomesOne parts vs ∧
    vs.IsChain Apart

/-- The children `vs` are the children `us` with the sections folded into the texts around them. -/
def FoldsSections (us vs : List Doc) : Prop :=
  if us.any isCdata then JoinsRuns us vs else vs = us

section Literal

theorem literal_eq_self (h : t.label.kind.literal? = none) : literal t = t := by
  rw [literal]
  split
  case h_1 value hkind => simp [hkind, Kind.literal?] at h
  case h_2 => rfl

theorem isText_of_literal?_eq_none (h : t.label.kind.literal? = none) :
    t.label.kind.isText = false := by
  cases hkind : t.label.kind <;> simp_all [Kind.literal?, Kind.isText]

theorem literal_eq_runText {word : String} (ht : Shaped t)
    (h : t.label.kind.literal? = some word) : literal t = runText t t [word] := by
  have hjoin : String.join [word] = word := by simp
  rw [runText, hjoin, literal]
  split
  case h_1 value hkind =>
    obtain rfl : _ = word := by simpa [hkind, Kind.literal?] using h
    rfl
  case h_2 hkind =>
    have htext : t.label.kind = .text word := by
      cases hk : t.label.kind <;> simp_all [Kind.literal?]
    rw [← htext]
    exact ht.eq_leaf (by rw [htext]; rfl)

theorem joinText_runText (t u last : Doc) (word : String) (words : List String) (vs : List Doc) :
    joinText (runText t t [word]) (runText u last words :: vs) =
      runText t last (word :: words) :: vs := by
  simp [joinText, runText, setLabel]

theorem joinText_of_apart (h : ∀ u ∈ vs.head?, Apart t u) : joinText t vs = t :: vs := by
  rcases joinText_cases t vs with hsame | ⟨u, us, x, y, rfl, hx, hy, -⟩
  · exact hsame
  · exact absurd ⟨by rw [hx]; rfl, by rw [hy]; rfl⟩ (h u rfl)

end Literal

section Runs

/-- Joining from the right end takes in a stretch piece by piece. -/
theorem foldr_joinText_spells (hshaped : ∀ u ∈ t :: ts, Shaped u) (h : Spells (t :: ts) words)
    (hvs : ∀ u ∈ vs.head?, u.label.kind.isText = false) :
    ((t :: ts).map literal).foldr joinText vs =
      runText t ((t :: ts).getLast (List.cons_ne_nil t ts)) words :: vs := by
  induction ts generalizing t words with
  | nil =>
    obtain ⟨word, _, hword, ⟨⟩, rfl⟩ := List.forall₂_cons_left_iff.mp h
    rw [List.map_singleton, List.foldr_cons, List.foldr_nil,
      literal_eq_runText (hshaped t List.mem_cons_self) hword]
    apply joinText_of_apart
    rintro u hu ⟨-, htext⟩
    simp [hvs u hu] at htext
  | cons u ts ih =>
    rw [List.forall_mem_cons] at hshaped
    cases h with
    | @cons _ word _ words hword h =>
      rw [List.map_cons, List.foldr_cons, ih hshaped.2 h, literal_eq_runText hshaped.1 hword,
        joinText_runText]
      rfl

theorem foldr_joinText (hshaped : ∀ u ∈ us, Shaped u) (h : BecomesOne us v)
    (hvs : ∀ u ∈ vs.head?, Apart v u) : (us.map literal).foldr joinText vs = v :: vs := by
  cases h with
  | @other t h =>
    rw [List.map_singleton, List.foldr_cons, List.foldr_nil, literal_eq_self h]
    exact joinText_of_apart hvs
  | @run t ts words h =>
    apply foldr_joinText_spells hshaped h
    intro u hu
    rw [Bool.eq_false_iff]
    exact fun htext => hvs u hu ⟨rfl, htext⟩

/-- There is but one way to join the stretches of a list. -/
theorem JoinsRuns.eq_coalesce (h : JoinsRuns us vs) (hshaped : ∀ u ∈ us, Shaped u) :
    vs = coalesce (us.map literal) := by
  obtain ⟨parts, rfl, hparts, hchain⟩ := h
  induction hparts with
  | nil => rfl
  | @cons part v parts vs hpart hparts ih =>
    rw [List.flatten_cons, List.forall_mem_append] at hshaped
    rw [List.isChain_cons] at hchain
    rw [List.flatten_cons, List.map_append, coalesce, List.foldr_append]
    change v :: vs = List.foldr joinText (coalesce _) _
    rw [← ih hshaped.2 hchain.2, foldr_joinText hshaped.1 hpart hchain.1]

/-- A node in front of a list is a part of its own, or it is taken into a text at the front. -/
theorem JoinsRuns.exists_cons (h : JoinsRuns us vs) (t : Doc) : ∃ ws, JoinsRuns (t :: us) ws := by
  obtain ⟨parts, rfl, hparts, hchain⟩ := h
  cases hword : t.label.kind.literal? with
  | none =>
    refine ⟨t :: vs, [t] :: parts, rfl, .cons (.other hword) hparts, hchain.cons ?_⟩
    rintro u - ⟨htext, -⟩
    simp [isText_of_literal?_eq_none hword] at htext
  | some word =>
    by_cases hfront : ∃ v ∈ vs.head?, v.label.kind.isText = true
    case neg =>
      refine ⟨runText t t [word] :: vs, [t] :: parts, rfl, .cons (.run ?_) hparts, hchain.cons ?_⟩
      · exact .cons hword .nil
      · exact fun u hu htexts => hfront ⟨u, hu, htexts.2⟩
    case pos =>
      obtain ⟨v, hv, htext⟩ := hfront
      cases hparts with
      | nil => simp at hv
      | @cons part _ parts vs hpart hparts =>
        obtain rfl := Option.some.inj hv
        cases hpart with
        | other h => simp [isText_of_literal?_eq_none h] at htext
        | @run u us words h =>
          rw [List.isChain_cons] at hchain
          refine ⟨_, (t :: u :: us) :: parts, rfl, .cons (.run (.cons hword h)) hparts, ?_⟩
          exact hchain.2.cons fun w hw htexts => hchain.1 w hw ⟨rfl, htexts.2⟩

theorem exists_joinsRuns (us : List Doc) : ∃ vs, JoinsRuns us vs := by
  induction us with
  | nil => exact ⟨[], [], rfl, .nil, .nil⟩
  | cons t us ih =>
    obtain ⟨vs, hvs⟩ := ih
    exact hvs.exists_cons t

theorem joinsRuns_iff (hshaped : ∀ u ∈ us, Shaped u) :
    JoinsRuns us vs ↔ vs = coalesce (us.map literal) := by
  constructor
  · exact fun h => h.eq_coalesce hshaped
  · rintro rfl
    obtain ⟨vs, hvs⟩ := exists_joinsRuns us
    exact hvs.eq_coalesce hshaped ▸ hvs

theorem foldsSections_iff (hshaped : ∀ u ∈ us, Shaped u) (c : Content) :
    FoldsSections us vs ↔ vs = (cdataStep c us).2 := by
  rw [FoldsSections, cdataStep]
  split
  case isTrue => exact joinsRuns_iff hshaped
  case isFalse => rfl

end Runs

theorem everywhere_isCdata_cdata {d : Doc} (hroot : d.label.kind = .root) :
    Everywhere (fun t => isCdata t = false) (cdata d) := by
  have hlabel : (cdata d).label = d.label := label_reshape fst_cdataStep d
  refine .of_children ?_ (sectionless_cdata d).below
  rw [isCdata, hlabel, hroot]

end Reshape

open Reshape

/-- Folding sections, in every child list of a document: where there is a section, one text takes
the place of each stretch of texts and sections, and nothing else changes. No other document is made
in this way, and no section is left. -/
theorem sections_folded_into_texts (o : Options) (s : Store) (h : s.Built) :
    ∃ d out d', s.toDoc = .ok d ∧ Pass.cdata.run o s = .ok out ∧ out.toDoc = .ok d' ∧
      (∀ e, d.Rewrites (fun _ => FoldsSections) e ↔ e = d') ∧
      Everywhere (fun t => isCdata t = false) d' := by
  obtain ⟨d, -, hd, hroot, hshaped, -⟩ := h.wellFormed.exists_toDoc
  refine ⟨d, .ofDoc (cdata d), _, hd, Pass.run_of_toDoc hd rfl, Store.toDoc_ofDoc _, ?_,
    everywhere_isCdata_cdata hroot⟩
  have hstep : ∀ (c : Content) (ts : List Doc), (∀ t ∈ ts, Everywhere Shaped t) → ∀ vs,
      FoldsSections (ts.map cdata) vs ↔ vs = (cdataStep c (ts.map cdata)).2 := by
    intro c ts hts vs
    refine foldsSections_iff (List.forall_mem_map.mpr fun t ht => ?_) c
    exact ((carries_cdata (hts t ht)).shaped _ List.mem_cons_self).self
  intro e
  constructor
  · exact Rewrites.eq_reshape fst_cdataStep (fun c ts vs _ hts => (hstep c ts hts vs).mp) hshaped
  · rintro rfl
    exact rewrites_reshape fst_cdataStep (fun c ts _ hts => (hstep c ts hts _).mpr rfl) hshaped

/-- Stretches of texts and sections at both ends of a list and around a comment, an element with a
section and nothing else, and one with two texts and no section. -/
def stretchedStore : Store :=
  let span (start stop : Nat) : Span := ⟨.ofOffset start, .ofOffset stop⟩
  let element (start inner outer stop : Nat) : Content :=
    { kind := .element
        { name := "p", openTag := span start inner, closeTag := some (span outer stop) }
      span := span start stop }
  (Store.new (span 0 72)).growAll
    [(0, { kind := .text "a", span := span 0 1, notes := { hasLeadingSpaces := some true } }),
     (0, { kind := .text "b", span := span 1 2 }),
     (0, { kind := .cdata "<", span := span 2 15, notes := { hasTrailingSpaces := some true } }),
     (0, { kind := .comment "-", span := span 15 23 }),
     (0, { kind := .text "c", span := span 23 24 }),
     (0, { kind := .text "d", span := span 24 25 }),
     (0, element 25 28 40 44),
     (7, { kind := .cdata "", span := span 28 40 }),
     (0, element 44 47 49 53),
     (9, { kind := .text "e", span := span 47 48 }),
     (9, { kind := .text "f", span := span 48 49 }),
     (0, { kind := .cdata "x", span := span 53 66 }),
     (0, { kind := .text "g", span := span 66 72 })]

theorem sections_folded_into_texts_stretchedStore :
    stretchedStore.Built ∧ ∃ d out d', stretchedStore.toDoc = .ok d ∧
      Pass.cdata.run { source := .ofString "" } stretchedStore = .ok out ∧ out.toDoc = .ok d' ∧
      (∀ e, d.Rewrites (fun _ => FoldsSections) e ↔ e = d') ∧
      Everywhere (fun t => isCdata t = false) d' ∧
      (d'.preorder.map fun c => (c.kind.text?, c.span.start.offset, c.span.stop.offset,
          c.notes.hasLeadingSpaces, c.notes.hasTrailingSpaces)) =
        [(none, 0, 72, none, none), (some "ab<![CDATA[<]]>", 0, 15, some true, none),
         (none, 15, 23, none, none), (some "cd", 23, 25, none, none), (none, 25, 44, none, none),
         (some "<![CDATA[]]>", 28, 40, none, none), (none, 44, 53, none, none),
         (some "e", 47, 48, none, none), (some "f", 48, 49, none, none),
         (some "<![CDATA[x]]>g", 53, 72, none, none)] := by
  have hbuilt : stretchedStore.Built := Store.Built.growAll (.new _) _
  obtain ⟨d, out, d', hd, hout, hd', hfolds, hnone⟩ :=
    sections_folded_into_texts { source := .ofString "" } stretchedStore hbuilt
  refine ⟨hbuilt, d, out, d', hd, hout, hd', hfolds, hnone, ?_⟩
  rw [Pass.shown_eq hout hd']
  decide +kernel

end Markup
