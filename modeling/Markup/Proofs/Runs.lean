import Markup.Proofs.Conditions
import Markup.Proofs.WellFormed

/-! Runs of texts and simple elements. Folding finds the longest stretches of a child list in which
texts and simple elements take turns, and puts one text in the place of each. -/
namespace Markup

open Markup.Tree

namespace Reshape

variable {t u v : Doc} {us vs before after : List Doc} {ps qs : List (Doc × Doc)}

def weave (ps : List (Doc × Doc)) : List Doc := ps.flatMap fun p => [p.1, p.2]

@[simp] theorem weave_nil : weave [] = [] := rfl

@[simp] theorem weave_cons (p : Doc × Doc) (ps : List (Doc × Doc)) :
    weave (p :: ps) = p.1 :: p.2 :: weave ps := rfl

@[simp] theorem weave_append (ps qs : List (Doc × Doc)) :
    weave (ps ++ qs) = weave ps ++ weave qs := List.flatMap_append

/-- A simple element and the text behind it. -/
def IsLink (p : Doc × Doc) : Prop := isSimple p.1 = true ∧ p.2.label.kind.isText = true

/-- What a node is written as: a text as its value, and an element with a text in it as this text
between two tags. -/
def wording (t : Doc) : String :=
  match t.label.kind, t.children.map fun (u : Doc) => u.label.kind with
  | .text value, _ => value
  | .element e, [Kind.text content] =>
    "<" ++ e.fullName ++ ">" ++ content ++ "</" ++ e.fullName ++ ">"
  | _, _ => ""

/-- A stretch of a child list that can be written as one text: a text, then one or more simple
elements, each with a text behind it. -/
structure Run where
  first : Doc
  links : List (Doc × Doc)
  isText_first : first.label.kind.isText = true
  links_ne_nil : links ≠ []
  isLink_links : ∀ p ∈ links, IsLink p

namespace Run

def nodes (r : Run) : List Doc := r.first :: weave r.links

def last (r : Run) : Doc := (r.links.getLast r.links_ne_nil).2

/-- The texts of the run, with what the elements between them are written as. -/
def value (r : Run) : String := String.join (r.nodes.map wording)

/-- The text that takes the place of the run. It starts like the first text and ends like the last
one. -/
def text (r : Run) : Doc :=
  .leaf {
    kind := .text r.value
    span := ⟨r.first.label.span.start, r.last.label.span.stop⟩
    notes := { r.first.label.notes with
      isTrailingSensitive := r.last.label.notes.isTrailingSensitive
      hasTrailingSpaces := r.last.label.notes.hasTrailingSpaces } }

/-- The run stands in `us` between `before` and `after`, and in no longer run. -/
structure IsMaximal (us before : List Doc) (r : Run) (after : List Doc) : Prop where
  split : us = before ++ r.nodes ++ after
  longest : ∀ before' r' after', us = before' ++ nodes r' ++ after' → before' <+: before →
    after' <:+ after → before' = before ∧ after' = after

end Run

/-- A part of a child list: a node that stays as it is, or a run. -/
inductive Part where
  | single (t : Doc)
  | run (r : Run)

namespace Part

def nodes : Part → List Doc
  | single t => [t]
  | run r => r.nodes

def folded : Part → Doc
  | single t => t
  | run r => r.text

/-- The run is one of the parts, with these nodes before and behind it. -/
def Among (parts : List Part) (before : List Doc) (r : Run) (after : List Doc) : Prop :=
  ∃ ps qs, parts = ps ++ run r :: qs ∧ ps.flatMap nodes = before ∧ qs.flatMap nodes = after

end Part

/-- The list `vs` is `us` with one text in the place of each run that is in no longer one. -/
def FoldsRuns (us vs : List Doc) : Prop :=
  ∃ parts : List Part, parts.flatMap Part.nodes = us ∧ parts.map Part.folded = vs ∧
    ∀ before r after, Run.IsMaximal us before r after ↔ Part.Among parts before r after

section Simple

theorem isText_of_isSimple (h : isSimple t = true) : t.label.kind.isText = false := by
  obtain ⟨e, inner, word, hsimple⟩ := exists_simple h
  simp [hsimple.kind, Kind.isText]

theorem wording_of_isText (h : t.label.kind.isText = true) : wording t = textOf t := by
  obtain ⟨v, hv⟩ := Kind.isText_iff.mp h
  simp [wording, textOf, hv, Kind.text?]

theorem wording_of_isSimple (h : isSimple t = true) : wording t = markup t := by
  obtain ⟨e, inner, word, hsimple⟩ := exists_simple h
  simp [wording, markup, textOf, hsimple.kind, hsimple.children, hsimple.innerKind, Kind.text?,
    Kind.element?]

theorem join_wording_weave (h : ∀ p ∈ ps, IsLink p) :
    String.join ((weave ps).map wording) =
      String.join (ps.map fun p => markup p.1 ++ textOf p.2) := by
  induction ps with
  | nil => rfl
  | cons p ps ih =>
    obtain ⟨⟨hsimple, htext⟩, hps⟩ := List.forall_mem_cons.mp h
    simp [ih hps, wording_of_isSimple hsimple, wording_of_isText htext, String.append_assoc]

theorem isSimpleBetween_iff :
    isSimpleBetween t u v = true ↔ t.label.kind.isText = true ∧ IsLink (u, v) := by
  simp [isSimpleBetween, IsLink, and_assoc]

theorem isText_joinAcross (t u v : Doc) : (joinAcross t u v).label.kind.isText = true := by
  rw [joinAcross, label_setLabel]
  rfl

end Simple

section Ends

/-- The list ends with a text and a simple element, so a run behind it could begin earlier. -/
def EndsOpen (us : List Doc) : Prop :=
  ∃ vs t u, us = vs ++ [t, u] ∧ t.label.kind.isText = true ∧ isSimple u = true

/-- The list starts with a simple element and a text, so a run before it could end later. -/
def StartsOpen (us : List Doc) : Prop := ∃ p vs, us = p.1 :: p.2 :: vs ∧ IsLink p

theorem EndsOpen.append_left (h : EndsOpen us) (vs : List Doc) : EndsOpen (vs ++ us) := by
  obtain ⟨ws, t, u, rfl, ht, hu⟩ := h
  exact ⟨vs ++ ws, t, u, by simp, ht, hu⟩

/-- What ends a list in two parts ends the second, or both, or the first with nothing behind it. -/
theorem EndsOpen.append_cases (h : EndsOpen (us ++ vs)) : EndsOpen vs ∨
    (∃ ws t u, us = ws ++ [t] ∧ vs = [u] ∧ t.label.kind.isText = true ∧ isSimple u = true) ∨
      EndsOpen us ∧ vs = [] := by
  obtain ⟨ws, t, u, hsplit, ht, hu⟩ := h
  rcases List.append_eq_append_iff.mp hsplit with ⟨xs, -, rfl⟩ | ⟨xs, rfl, hxs⟩
  · exact .inl ⟨xs, t, u, rfl, ht, hu⟩
  · match xs, hxs with
    | [], hxs => exact .inl ⟨[], t, u, hxs.symm, ht, hu⟩
    | [x], hxs =>
      obtain ⟨rfl, rfl⟩ : x = t ∧ vs = [u] := by simpa [eq_comm] using hxs
      exact .inr (.inl ⟨ws, x, u, rfl, rfl, ht, hu⟩)
    | x :: y :: xs, hxs =>
      obtain ⟨rfl, rfl, rfl, rfl⟩ : x = t ∧ y = u ∧ xs = [] ∧ vs = [] := by
        simpa [eq_comm] using hxs
      exact .inr (.inr ⟨⟨ws, x, y, rfl, ht, hu⟩, rfl⟩)

theorem StartsOpen.append_right (h : StartsOpen us) (vs : List Doc) : StartsOpen (us ++ vs) := by
  obtain ⟨p, ws, rfl, hp⟩ := h
  exact ⟨p, ws ++ vs, rfl, hp⟩

theorem startsOpen_weave (h : ∀ p ∈ ps, IsLink p) (hne : ps ≠ []) : StartsOpen (weave ps) := by
  obtain ⟨p, ps, rfl⟩ := List.exists_cons_of_ne_nil hne
  exact ⟨p, weave ps, rfl, h p List.mem_cons_self⟩

theorem not_startsOpen_of_length_lt (h : us.length < 2) : ¬ StartsOpen us := by
  rintro ⟨p, vs, rfl, -⟩
  rw [List.length_cons, List.length_cons] at h
  omega

/-- Before any text of a run but the first stand a text and a simple element. -/
theorem eq_nil_of_not_endsOpen (h : ∀ p ∈ ps, IsLink p) (ht : t.label.kind.isText = true)
    (hv : v.label.kind.isText = true) (hsplit : t :: weave ps = before ++ v :: after)
    (hbefore : ¬ EndsOpen before) : before = [] := by
  induction ps generalizing t before with
  | nil =>
    cases before with
    | nil => rfl
    | cons b before => simp at hsplit
  | cons p ps ih =>
    rw [List.forall_mem_cons] at h
    match before with
    | [] => rfl
    | [b] =>
      obtain ⟨-, rfl, -⟩ : t = b ∧ p.1 = v ∧ p.2 :: weave ps = after := by simpa using hsplit
      rw [isText_of_isSimple h.1.1] at hv
      simp at hv
    | b :: c :: before =>
      obtain ⟨rfl, rfl, hrest⟩ : t = b ∧ p.1 = c ∧ p.2 :: weave ps = before ++ v :: after := by
        simpa using hsplit
      obtain rfl := ih h.2 h.1.2 hrest fun hopen => hbefore (hopen.append_left [t, p.1])
      exact absurd ⟨[], t, p.1, rfl, ht, h.1.1⟩ hbefore

/-- Links that go as far as they can are determined by the list. -/
theorem weave_append_inj (hps : ∀ p ∈ ps, IsLink p) (hqs : ∀ p ∈ qs, IsLink p)
    (hus : ¬ StartsOpen us) (hvs : ¬ StartsOpen vs) (h : weave ps ++ us = weave qs ++ vs) :
    ps = qs ∧ us = vs := by
  induction ps generalizing qs with
  | nil =>
    cases qs with
    | nil => exact ⟨rfl, h⟩
    | cons q qs =>
      refine absurd ?_ hus
      rw [weave_nil, List.nil_append] at h
      rw [h]
      exact (startsOpen_weave hqs (List.cons_ne_nil q qs)).append_right vs
  | cons p ps ih =>
    cases qs with
    | nil =>
      refine absurd ?_ hvs
      rw [weave_nil, List.nil_append] at h
      rw [← h]
      exact (startsOpen_weave hps (List.cons_ne_nil p ps)).append_right us
    | cons q qs =>
      rw [List.forall_mem_cons] at hps hqs
      simp only [weave_cons, List.cons_append, List.cons.injEq] at h
      obtain ⟨hfst, hsnd, h⟩ := h
      obtain ⟨rfl, rfl⟩ := ih hps.2 hqs.2 h
      exact ⟨by rw [Prod.ext hfst hsnd], rfl⟩

end Ends

namespace Run

variable {r : Run}

@[ext] theorem ext {r r' : Run} (hfirst : r.first = r'.first) (hlinks : r.links = r'.links) :
    r = r' := by
  cases r
  cases r'
  simp_all

theorem nodes_ne_nil (r : Run) : r.nodes ≠ [] := List.cons_ne_nil _ _

theorem exists_last (r : Run) :
    ∃ us, r.nodes = us ++ [r.last] ∧ r.last.label.kind.isText = true := by
  have hlinks := congrArg weave (List.dropLast_append_getLast r.links_ne_nil)
  refine ⟨r.first :: (weave r.links.dropLast ++ [(r.links.getLast r.links_ne_nil).1]), ?_,
    (r.isLink_links _ (List.getLast_mem r.links_ne_nil)).2⟩
  rw [nodes, ← hlinks, weave_append]
  simp [last]

def concat (r : Run) (p : Doc × Doc) (hp : IsLink p) : Run where
  first := r.first
  links := r.links ++ [p]
  isText_first := r.isText_first
  links_ne_nil := by simp
  isLink_links := List.forall_mem_append.mpr ⟨r.isLink_links, List.forall_mem_singleton.mpr hp⟩

def cons (t u : Doc) (r : Run) (ht : t.label.kind.isText = true) (hu : isSimple u = true) :
    Run where
  first := t
  links := (u, r.first) :: r.links
  isText_first := ht
  links_ne_nil := List.cons_ne_nil _ _
  isLink_links := List.forall_mem_cons.mpr ⟨⟨hu, r.isText_first⟩, r.isLink_links⟩

/-- A run cannot be made longer just if there is no text and simple element before it and no simple
element and text behind it. -/
theorem isMaximal_iff : IsMaximal us before r after ↔
    us = before ++ r.nodes ++ after ∧ ¬ EndsOpen before ∧ ¬ StartsOpen after := by
  constructor
  · rintro ⟨rfl, hlongest⟩
    refine ⟨rfl, ?_, ?_⟩
    · rintro ⟨vs, t, u, rfl, ht, hu⟩
      have hlonger := hlongest vs (r.cons t u ht hu) after (by simp [nodes, cons])
        (List.prefix_append _ _) (List.suffix_refl _)
      simp at hlonger
    · rintro ⟨p, vs, rfl, hp⟩
      have hlonger := hlongest before (r.concat p hp) vs (by simp [nodes, concat])
        (List.prefix_refl _) (List.suffix_append [p.1, p.2] vs)
      have hlength := congrArg List.length hlonger.2
      simp only [List.length_cons] at hlength
      omega
  · rintro ⟨rfl, hbefore, hafter⟩
    refine ⟨rfl, ?_⟩
    rintro before' r' after' hsplit ⟨xs, rfl⟩ ⟨ys, rfl⟩
    have hnodes : r'.first :: weave r'.links = xs ++ r.first :: (weave r.links ++ ys) := by
      simp only [nodes, List.append_assoc, List.append_cancel_left_eq] at hsplit
      rw [← List.append_cancel_right_eq _ after']
      simpa using hsplit.symm
    obtain rfl : xs = [] := eq_nil_of_not_endsOpen r'.isLink_links r'.isText_first r.isText_first
      hnodes fun hopen => hbefore (hopen.append_left before')
    have hlinks : weave r'.links ++ [] = weave r.links ++ ys := by
      rw [List.append_nil]
      exact (List.cons.inj hnodes).2
    have hnil : ¬ StartsOpen [] := not_startsOpen_of_length_lt (by simp)
    have hys : ¬ StartsOpen ys := fun hopen => hafter (hopen.append_right after')
    obtain ⟨-, rfl⟩ := weave_append_inj r'.isLink_links r.isLink_links hnil hys hlinks
    simp

end Run

namespace Part

variable {parts parts' : List Part} {r : Run}

theorem nodes_ne_nil (p : Part) : p.nodes ≠ [] := by
  cases p with
  | single t => exact List.cons_ne_nil _ _
  | run r => exact r.nodes_ne_nil

theorem not_endsOpen (p : Part) : ¬ EndsOpen p.nodes := by
  rintro ⟨us, t, u, hsplit, -, hu⟩
  cases p with
  | single v =>
    have hlength := congrArg List.length hsplit
    simp [nodes] at hlength
  | run r =>
    obtain ⟨vs, hlast, htext⟩ := r.exists_last
    rw [nodes, hlast, List.append_cons us t [u]] at hsplit
    rw [(List.append_singleton_inj.mp hsplit).2, isText_of_isSimple hu] at htext
    simp at htext

theorem among_cons {p : Part} : Among (p :: parts) before r after ↔
    (p = run r ∧ before = [] ∧ parts.flatMap nodes = after) ∨
      ∃ before', before = p.nodes ++ before' ∧ Among parts before' r after := by
  constructor
  · rintro ⟨ps, qs, hparts, rfl, rfl⟩
    cases ps with
    | nil =>
      obtain ⟨rfl, rfl⟩ := List.cons.inj hparts
      exact .inl ⟨rfl, rfl, rfl⟩
    | cons q ps =>
      obtain ⟨rfl, rfl⟩ := List.cons.inj hparts
      exact .inr ⟨_, List.flatMap_cons, ps, qs, rfl, rfl, rfl⟩
  · rintro (⟨rfl, rfl, rfl⟩ | ⟨before', rfl, ps, qs, rfl, rfl, rfl⟩)
    · exact ⟨[], parts, rfl, rfl, rfl⟩
    · exact ⟨p :: ps, qs, rfl, List.flatMap_cons, rfl⟩

theorem among_cons_append {p : Part} :
    Among (p :: parts) (p.nodes ++ before) r after ↔ Among parts before r after := by
  rw [among_cons]
  constructor
  · rintro (⟨-, hnil, -⟩ | ⟨before', hbefore, hamong⟩)
    · exact absurd (List.append_eq_nil_iff.mp hnil).1 p.nodes_ne_nil
    · rwa [List.append_cancel_left hbefore]
  · exact fun hamong => .inr ⟨before, rfl, hamong⟩

theorem among_cons_nil {p : Part} :
    Among (p :: parts) [] r after ↔ p = run r ∧ parts.flatMap nodes = after := by
  rw [among_cons]
  constructor
  · rintro (⟨hp, -, hafter⟩ | ⟨before', hbefore, -⟩)
    · exact ⟨hp, hafter⟩
    · exact absurd (List.append_eq_nil_iff.mp hbefore.symm).1 p.nodes_ne_nil
  · exact fun ⟨hp, hafter⟩ => .inl ⟨hp, rfl, hafter⟩

/-- The nodes and the places of the runs among them tell the parts. -/
theorem eq_of_among_iff (hnodes : parts.flatMap nodes = parts'.flatMap nodes)
    (h : ∀ before r after, Among parts before r after ↔ Among parts' before r after) :
    parts = parts' := by
  induction parts generalizing parts' with
  | nil =>
    cases parts' with
    | nil => rfl
    | cons p parts' => simp [nodes_ne_nil] at hnodes
  | cons p parts ih =>
    cases parts' with
    | nil => simp [nodes_ne_nil] at hnodes
    | cons p' parts' =>
      have hrun : ∀ r after, p = run r ∧ parts.flatMap nodes = after ↔
          p' = run r ∧ parts'.flatMap nodes = after := by
        intro r after
        rw [← among_cons_nil, h, among_cons_nil]
      have hhead : p = p' := by
        cases p with
        | run r => exact ((hrun r _).mp ⟨rfl, rfl⟩).1.symm
        | single t =>
          cases p' with
          | run r' => exact ((hrun r' _).mpr ⟨rfl, rfl⟩).1
          | single t' => rw [(List.cons.inj hnodes).1]
      subst hhead
      rw [List.flatMap_cons, List.flatMap_cons, List.append_cancel_left_eq] at hnodes
      rw [ih hnodes]
      intro before r after
      rw [← among_cons_append, h, among_cons_append]

/-- Behind a part that ends with a text no simple element and text follow. -/
def Tight : List Part → Prop
  | [] => True
  | p :: parts => (∀ us t, p.nodes = us ++ [t] → t.label.kind.isText = true →
      ¬ StartsOpen (parts.flatMap nodes)) ∧ Tight parts

/-- Tight parts leave nothing open next to a run. -/
theorem Tight.of_among (h : Tight parts) (hamong : Among parts before r after) :
    parts.flatMap nodes = before ++ r.nodes ++ after ∧ ¬ EndsOpen before ∧ ¬ StartsOpen after := by
  induction parts generalizing before with
  | nil =>
    obtain ⟨ps, qs, hparts, -⟩ := hamong
    simp at hparts
  | cons p parts ih =>
    rcases among_cons.mp hamong with ⟨rfl, rfl, rfl⟩ | ⟨before, rfl, hrest⟩
    · obtain ⟨us, hlast, htext⟩ := r.exists_last
      refine ⟨List.flatMap_cons, ?_, h.1 us _ hlast htext⟩
      rintro ⟨vs, t, u, hnil, -⟩
      simp at hnil
    · obtain ⟨hnodes, hbefore, hafter⟩ := ih h.2 hrest
      refine ⟨by rw [List.flatMap_cons, hnodes]; simp, ?_, hafter⟩
      intro hopen
      rcases hopen.append_cases with hopen | ⟨us, t, u, hlast, rfl, ht, hu⟩ | ⟨hopen, -⟩
      · exact hbefore hopen
      · refine h.1 us t hlast ht ?_
        rw [hnodes]
        exact ⟨(u, r.first), weave r.links ++ after, by simp [Run.nodes], hu, r.isText_first⟩
      · exact p.not_endsOpen hopen

/-- A part starts with the whole of a run that leaves nothing open, or the run is not in it. -/
theorem Tight.among_head {p : Part} (h : Tight (p :: parts))
    (hnodes : p.nodes ++ parts.flatMap nodes = r.nodes ++ after) (hafter : ¬ StartsOpen after) :
    Among (p :: parts) [] r after := by
  rw [among_cons_nil]
  cases p with
  | single t =>
    obtain rfl := (List.cons.inj hnodes).1
    have hrest : parts.flatMap nodes = weave r.links ++ after := (List.cons.inj hnodes).2
    refine absurd ?_ (h.1 [] r.first rfl r.isText_first)
    rw [hrest]
    exact (startsOpen_weave r.isLink_links r.links_ne_nil).append_right after
  | run r' =>
    obtain ⟨hfirst, hrest⟩ := List.cons.inj hnodes
    obtain ⟨us, hlast, htext⟩ := r'.exists_last
    obtain ⟨hlinks, hafter⟩ :=
      weave_append_inj r'.isLink_links r.isLink_links (h.1 us _ hlast htext) hafter hrest
    exact ⟨by rw [Run.ext hfirst hlinks], hafter⟩

/-- No run starts inside a part, unless something is left open before it. -/
theorem eq_nil_of_nodes_eq {p : Part} (hnodes : p.nodes = before ++ us) (hne : before ≠ [])
    (hbefore : ¬ EndsOpen before) (hus : ∀ t ∈ us.head?, t.label.kind.isText = true) : us = [] := by
  cases us with
  | nil => rfl
  | cons t us =>
    cases p with
    | single v =>
      have hlength := congrArg List.length hnodes
      have hpos := List.length_pos_iff.mpr hne
      simp only [nodes, List.length_append, List.length_cons, List.length_nil] at hlength
      omega
    | run r =>
      refine absurd ?_ hne
      exact eq_nil_of_not_endsOpen r.isLink_links r.isText_first (hus t rfl) hnodes hbefore

/-- A run among tight parts that leaves nothing open next to it is one of the parts. -/
theorem Tight.among (h : Tight parts) (hnodes : parts.flatMap nodes = before ++ r.nodes ++ after)
    (hbefore : ¬ EndsOpen before) (hafter : ¬ StartsOpen after) : Among parts before r after := by
  induction parts generalizing before with
  | nil => simp [Run.nodes_ne_nil] at hnodes
  | cons p parts ih =>
    rw [List.flatMap_cons, List.append_assoc] at hnodes
    by_cases hne : before = []
    case pos =>
      subst hne
      exact h.among_head hnodes hafter
    case neg =>
      obtain ⟨xs, rfl, hrest⟩ : ∃ xs, before = p.nodes ++ xs ∧
          parts.flatMap nodes = xs ++ (r.nodes ++ after) := by
        rcases List.append_eq_append_iff.mp hnodes with ⟨xs, hxs, hrest⟩ | ⟨xs, hxs, hrest⟩
        · exact ⟨xs, hxs, hrest⟩
        · have hhead : ∀ t ∈ xs.head?, t.label.kind.isText = true := by
            intro t ht
            cases xs with
            | nil => simp at ht
            | cons x xs =>
              obtain ⟨rfl, -⟩ := List.cons.inj hrest
              obtain rfl := Option.some.inj ht
              exact r.isText_first
          obtain rfl := eq_nil_of_nodes_eq hxs hne hbefore hhead
          exact ⟨[], by simpa using hxs.symm, by simpa using hrest.symm⟩
      rw [among_cons_append]
      refine ih h.2 (by simpa using hrest) fun hopen => hbefore (hopen.append_left p.nodes)

/-- The runs among tight parts are the longest ones of their nodes. -/
theorem Tight.isMaximal_iff_among (h : Tight parts) :
    Run.IsMaximal (parts.flatMap nodes) before r after ↔ Among parts before r after := by
  rw [Run.isMaximal_iff]
  exact ⟨fun ⟨hnodes, hbefore, hafter⟩ => h.among hnodes hbefore hafter, h.of_among⟩

end Part

section Fold

theorem foldBehind_of_not_isText (h : t.label.kind.isText = false) (us : List Doc) :
    foldBehind t us = t :: foldSimple us := by
  match us with
  | [] => rfl
  | [u] => rfl
  | u :: v :: us =>
    rw [foldBehind, if_neg (by simp [isSimpleBetween, h])]
    rfl

theorem exists_foldBehind_eq (h : t.label.kind.isText = true) (us : List Doc) :
    ∃ ps vs, us = weave ps ++ vs ∧ (∀ p ∈ ps, IsLink p) ∧ ¬ StartsOpen vs ∧
      foldBehind t us = ps.foldl (fun t p => joinAcross t p.1 p.2) t :: foldSimple vs := by
  fun_induction foldBehind t us with
  | case1 t => exact ⟨[], [], rfl, by simp, not_startsOpen_of_length_lt (by simp), rfl⟩
  | case2 t u => exact ⟨[], [u], rfl, by simp, not_startsOpen_of_length_lt (by simp), rfl⟩
  | case3 t u v us hsimple ih =>
    obtain ⟨ps, vs, rfl, hps, hvs, hfold⟩ := ih (isText_joinAcross t u v)
    refine ⟨(u, v) :: ps, vs, rfl, ?_, hvs, hfold⟩
    exact List.forall_mem_cons.mpr ⟨(isSimpleBetween_iff.mp hsimple).2, hps⟩
  | case4 t u v us hsimple ih =>
    refine ⟨[], u :: v :: us, rfl, by simp, ?_, rfl⟩
    rintro ⟨p, vs, hcons, hp⟩
    obtain ⟨rfl, rfl, -⟩ : u = p.1 ∧ v = p.2 ∧ us = vs := by simpa using hcons
    exact hsimple (isSimpleBetween_iff.mpr ⟨h, hp⟩)

/-- Joining a text across links, one after another, gives the text of the run that they make. -/
theorem foldl_joinAcross (c : Content) (hne : ps ≠ []) :
    ps.foldl (fun t p => joinAcross t p.1 p.2) (.leaf c) = .leaf {
      kind := .text (textOf (.leaf c) ++ String.join (ps.map fun p => markup p.1 ++ textOf p.2))
      span := ⟨c.span.start, (ps.getLast hne).2.label.span.stop⟩
      notes := { c.notes with
        isTrailingSensitive := (ps.getLast hne).2.label.notes.isTrailingSensitive
        hasTrailingSpaces := (ps.getLast hne).2.label.notes.hasTrailingSpaces } } := by
  induction ps generalizing c with
  | nil => exact absurd rfl hne
  | cons p ps ih =>
    have hjoin : joinAcross (.leaf c) p.1 p.2 = .leaf {
        kind := .text (textOf (.leaf c) ++ markup p.1 ++ textOf p.2)
        span := ⟨c.span.start, p.2.label.span.stop⟩
        notes := { c.notes with
          isTrailingSensitive := p.2.label.notes.isTrailingSensitive
          hasTrailingSpaces := p.2.label.notes.hasTrailingSpaces } } := rfl
    rw [List.foldl_cons, hjoin]
    cases ps with
    | nil => simp [String.append_assoc]
    | cons q ps =>
      rw [ih _ (List.cons_ne_nil q ps)]
      simp [textOf, Kind.text?, String.append_assoc]

/-- A list cut into tight parts, each of which is folded by itself. -/
structure Cut (us : List Doc) (parts : List Part) : Prop where
  nodes : parts.flatMap Part.nodes = us
  folded : parts.map Part.folded = foldSimple us
  tight : Part.Tight parts

theorem Cut.cons {parts : List Part} (h : Cut vs parts) (p : Part)
    (hfold : foldSimple (p.nodes ++ vs) = p.folded :: foldSimple vs)
    (hend : ∀ ws t, p.nodes = ws ++ [t] → t.label.kind.isText = true → ¬ StartsOpen vs) :
    Cut (p.nodes ++ vs) (p :: parts) where
  nodes := by rw [List.flatMap_cons, h.nodes]
  folded := by rw [List.map_cons, h.folded, hfold]
  tight := ⟨by rwa [h.nodes], h.tight⟩

theorem exists_cut (h : ∀ u ∈ us, Shaped u) : ∃ parts, Cut us parts := by
  -- A run takes in more than one node, so the induction is on the length.
  induction hn : us.length using Nat.strong_induction_on generalizing us with
  | h n ih =>
    cases us with
    | nil => exact ⟨[], rfl, rfl, trivial⟩
    | cons t us =>
      rw [List.forall_mem_cons] at h
      rw [List.length_cons] at hn
      cases ht : t.label.kind.isText with
      | false =>
        obtain ⟨parts, hparts⟩ := ih us.length (by omega) h.2 rfl
        refine ⟨.single t :: parts, hparts.cons (.single t) (foldBehind_of_not_isText ht us) ?_⟩
        intro ws u hlast hu
        obtain ⟨-, rfl⟩ := List.append_singleton_inj.mp (show [] ++ [t] = ws ++ [u] from hlast)
        simp [ht] at hu
      | true =>
        obtain ⟨ps, vs, rfl, hps, hvs, hfold⟩ := exists_foldBehind_eq ht us
        rw [List.forall_mem_append] at h
        rw [List.length_append] at hn
        obtain ⟨parts, hparts⟩ := ih vs.length (by omega) h.2.2 rfl
        by_cases hne : ps = []
        case pos =>
          subst hne
          exact ⟨.single t :: parts, hparts.cons (.single t) hfold fun _ _ _ _ => hvs⟩
        case neg =>
          let r : Run := ⟨t, ps, ht, hne, hps⟩
          refine ⟨.run r :: parts, hparts.cons (.run r) (hfold.trans ?_) fun _ _ _ _ => hvs⟩
          obtain ⟨w, hw⟩ := Kind.isText_iff.mp ht
          have hleaf := h.1.eq_leaf (by simp [hw, Kind.isContainer])
          have hvalue : r.value =
              textOf t ++ String.join (ps.map fun p => markup p.1 ++ textOf p.2) := by
            simp [Run.value, Run.nodes, r, join_wording_weave hps, wording_of_isText ht]
          rw [hleaf, foldl_joinAcross _ hne, ← hleaf, ← hvalue]
          rfl

/-- Folding a child list puts one text in the place of each longest run, and nothing else. -/
theorem foldsRuns_iff (h : ∀ u ∈ us, Shaped u) : FoldsRuns us vs ↔ vs = foldSimple us := by
  obtain ⟨parts, rfl, hfolded, htight⟩ := exists_cut h
  constructor
  · rintro ⟨parts', hnodes, rfl, hmaximal⟩
    rw [← hfolded, Part.eq_of_among_iff hnodes]
    intro before r after
    rw [← hmaximal, htight.isMaximal_iff_among]
  · rintro rfl
    exact ⟨parts, rfl, hfolded, fun _ _ _ => htight.isMaximal_iff_among⟩

end Fold

section Clear

/-- No simple element stands between two texts. -/
def Clear (us : List Doc) : Prop := ∀ t u v, [t, u, v] <:+: us → isSimpleBetween t u v = false

theorem clear_of_length_lt (h : us.length < 3) : Clear us := by
  intro t u v hinfix
  have hlength : 3 ≤ us.length := hinfix.length_le
  omega

theorem exists_cons_foldBehind (t : Doc) (us : List Doc) : ∃ u vs, foldBehind t us = u :: vs ∧
    u.label.kind.isText = t.label.kind.isText := by
  cases h : t.label.kind.isText with
  | false => exact ⟨t, foldSimple us, foldBehind_of_not_isText h us, h⟩
  | true =>
    fun_induction foldBehind t us with
    | case3 t u v us hsimple ih => exact ih (isText_joinAcross t u v)
    | _ => exact ⟨_, _, rfl, h⟩

theorem clear_foldBehind (t : Doc) (us : List Doc) : Clear (foldBehind t us) := by
  fun_induction foldBehind t us with
  | case1 t => exact clear_of_length_lt (by simp)
  | case2 t u => exact clear_of_length_lt (by simp)
  | case3 t u v us hsimple ih => exact ih
  | case4 t u v us hsimple ih =>
    intro x y z hinfix
    rcases List.infix_cons_iff.mp hinfix with hfront | hinfix
    · obtain ⟨rfl, hnext⟩ := List.cons_prefix_cons.mp hfront
      rw [Bool.eq_false_iff]
      intro hbetween
      obtain ⟨hx, hy, hz⟩ := isSimpleBetween_iff.mp hbetween
      obtain ⟨y', ys, hfold, hy'⟩ := exists_cons_foldBehind u (v :: us)
      obtain ⟨z', zs, hfold', hz'⟩ := exists_cons_foldBehind v us
      have hu : u.label.kind.isText = false := by
        rw [hfold] at hnext
        rw [← hy', ← (List.cons_prefix_cons.mp hnext).1]
        exact isText_of_isSimple hy
      rw [foldBehind_of_not_isText hu, foldSimple, hfold', List.cons_prefix_cons,
        List.cons_prefix_cons] at hnext
      obtain ⟨rfl, rfl, -⟩ := hnext
      exact hsimple (isSimpleBetween_iff.mpr ⟨hx, hy, hz' ▸ hz⟩)
    · exact ih x y z hinfix

theorem clear_foldSimple (us : List Doc) : Clear (foldSimple us) := by
  cases us with
  | nil => exact clear_of_length_lt (by simp [foldSimple])
  | cons t us => exact clear_foldBehind t us

theorem foldBehind_eq_self (h : Clear (t :: us)) : foldBehind t us = t :: us := by
  fun_induction foldBehind t us with
  | case1 t => rfl
  | case2 t u => rfl
  | case3 t u v us hsimple ih =>
    rw [h t u v (List.prefix_append [t, u, v] us).isInfix] at hsimple
    simp at hsimple
  | case4 t u v us hsimple ih =>
    rw [ih fun x y z hthree => h x y z (hthree.trans (List.suffix_cons _ _).isInfix)]

theorem foldSimple_eq_self (h : Clear us) : foldSimple us = us := by
  cases us with
  | nil => rfl
  | cons t us => exact foldBehind_eq_self h

theorem clear_simpleElement (d : Doc) :
    Everywhere (fun t => Clear t.children) (simpleElement d) := by
  refine Everywhere.reshape (P := fun _ => True) ?_ ?_ fun _ _ => trivial
  · exact fun c _ => clear_of_length_lt (by simp)
  · intro c ts _ _ hts
    refine everywhere_node.mpr ⟨clear_foldSimple _, forall_foldSimple ?_ hts⟩
    intro t u v _ ht _
    refine ht.setLabel ?_
    rw [children_setLabel]
    exact ht.self

end Clear

end Reshape

open Reshape

/-- Folding simple elements, container by container from the inside out: one text takes the place of
each run of texts and simple elements that is in no longer run, and nothing else changes. No other
document is made in this way, and no simple element is left between two texts. -/
theorem runs_folded_into_texts (o : Options) (s : Store) (h : s.Built) :
    ∃ d out d', s.toDoc = .ok d ∧ Pass.simpleElement.run o s = .ok out ∧ out.toDoc = .ok d' ∧
      (∀ e, d.Rewrites (fun _ => FoldsRuns) e ↔ e = d') ∧
      Everywhere (fun t => Clear t.children) d' := by
  obtain ⟨d, -, hd, -, hshaped, -⟩ := h.wellFormed.exists_toDoc
  refine ⟨d, .ofDoc (simpleElement d), _, hd, Pass.run_of_toDoc hd rfl, Store.toDoc_ofDoc _, ?_,
    clear_simpleElement d⟩
  · have hstep : ∀ ts : List Doc, (∀ t ∈ ts, Everywhere Shaped t) →
        ∀ vs, FoldsRuns (ts.map simpleElement) vs ↔ vs = foldSimple (ts.map simpleElement) := by
      intro ts hts vs
      apply foldsRuns_iff
      exact List.forall_mem_map.mpr fun t ht => (shaped_simpleElement (hts t ht)).self
    intro e
    constructor
    · exact Rewrites.eq_reshape fst_simpleElementStep
        (fun c ts vs _ hts hvs => (hstep ts hts vs).mp hvs) hshaped
    · rintro rfl
      exact rewrites_reshape fst_simpleElementStep
        (fun c ts _ hts => (hstep ts hts _).mpr rfl) hshaped

def nestedText : String := "oa<b>x</b>c<i>p<u>q</u>r</i>d e<s>y</s>"

/-- A run of two elements, the second of which is simple only when its content is folded, behind a
text of its own, and an element with no text behind it. -/
def nestedStore : Store :=
  let span (start stop : Nat) : Span := ⟨.ofOffset start, .ofOffset stop⟩
  let element (name : String) (start inner outer stop : Nat) : Content :=
    { kind := .element { name, openTag := span start inner, closeTag := some (span outer stop) }
      span := span start stop
      notes := { isLeadingSensitive := some true, isTrailingSensitive := some true } }
  (Store.new (span 0 39)).growAll
    [(0, { kind := .text "o", span := span 0 1 }),
     (0, { kind := .text "a", span := span 1 2 }),
     (0, element "b" 2 5 6 10),
     (3, { kind := .text "x", span := span 5 6 }),
     (0, { kind := .text "c", span := span 10 11 }),
     (0, element "i" 11 14 24 28),
     (6, { kind := .text "p", span := span 14 15 }),
     (6, element "u" 15 18 19 23),
     (8, { kind := .text "q", span := span 18 19 }),
     (6, { kind := .text "r", span := span 23 24 }),
     (0, { kind := .text "d", span := span 28 29, notes := { hasTrailingSpaces := some true } }),
     (0, { kind := .text "e", span := span 30 31 }),
     (0, element "s" 31 34 35 39),
     (13, { kind := .text "y", span := span 34 35 })]

theorem runs_folded_into_texts_nestedStore :
    nestedStore.Built ∧ ∃ d out d', nestedStore.toDoc = .ok d ∧
      Pass.simpleElement.run { source := .ofString nestedText } nestedStore = .ok out ∧
      out.toDoc = .ok d' ∧ (∀ e, d.Rewrites (fun _ => FoldsRuns) e ↔ e = d') ∧
      Everywhere (fun t => Clear t.children) d' ∧
      (d'.preorder.map fun c => (c.kind.text?, c.span.start.offset, c.span.stop.offset,
          c.notes.hasTrailingSpaces)) =
        [(none, 0, 39, none), (some "o", 0, 1, none),
         (some "a<b>x</b>c<i>p<u>q</u>r</i>d", 1, 29, some true), (some "e", 30, 31, none),
         (none, 31, 39, none), (some "y", 34, 35, none)] := by
  have hbuilt : nestedStore.Built := Store.Built.growAll (.new _) _
  obtain ⟨d, out, d', hd, hout, hd', hfolds, hclear⟩ :=
    runs_folded_into_texts { source := .ofString nestedText } nestedStore hbuilt
  refine ⟨hbuilt, d, out, d', hd, hout, hd', hfolds, hclear, ?_⟩
  rw [Pass.shown_eq hout hd']
  decide +kernel

end Markup
