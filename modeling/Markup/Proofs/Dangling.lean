import Markup.Proofs.Trimming

/-! Containers that are left empty when whitespace is cut off. What was in them is recorded if it
was one text, and not if it was several. -/
namespace Markup

open Markup.Tree

namespace Reshape

variable {src : Source} {t u : Doc} {ts : List Doc}

theorem vanishes_whitespace (src : Source) (t : Doc) :
    vanishes (whitespace src t) = vanishes t := by
  obtain ⟨notes, hnotes⟩ := label_whitespace src t
  rw [vanishes, vanishes, hnotes]

/-- Nothing is left of texts of whitespace, unless there are several and they show. -/
theorem snd_whitespaceStep_eq_nil_iff (src : Source) (c : Content) :
    (whitespaceStep src c ts).2 = [] ↔
      (∀ t ∈ ts, vanishes t = true) ∧ (ts.length ≤ 1 ∨ c.keepsWhitespace = false) := by
  rw [whitespaceStep]
  split
  case isTrue hblank =>
    obtain ⟨hlength, hall⟩ := isBlankList_iff.mp hblank
    exact iff_of_true rfl ⟨hall, .inl hlength⟩
  case isFalse hblank =>
    have hmany : (∀ t ∈ ts, vanishes t = true) → ¬ ts.length ≤ 1 := fun hall hlength =>
      hblank (isBlankList_iff.mpr ⟨hlength, hall⟩)
    rw [← List.length_eq_zero_iff, length_settle, List.length_eq_zero_iff]
    cases hkeeps : c.keepsWhitespace with
    | true =>
      have hne : ts ≠ [] := by
        rintro rfl
        exact hblank rfl
      rw [if_pos rfl, items_map_item]
      refine iff_of_false hne ?_
      rintro ⟨hall, hlength | hfalse⟩
      · exact hmany hall hlength
      · simp at hfalse
    | false =>
      rw [if_neg (by simp), items_flatMap_cut, List.map_eq_nil_iff, List.filter_eq_nil_iff]
      simp

theorem hasDanglingSpaces_whitespaceStep (src : Source) (c : Content) (ts : List Doc) :
    (whitespaceStep src c ts).1.notes.hasDanglingSpaces =
      if isBlankList ts then some !ts.isEmpty else c.notes.hasDanglingSpaces := by
  rw [whitespaceStep]
  split <;> rfl

theorem hasDanglingSpaces_whitespace (src : Source) (h : t.children?.isSome = true) :
    (whitespace src t).label.notes.hasDanglingSpaces =
      if isBlankList (t.children.map (whitespace src)) then
        some !(t.children.map (whitespace src)).isEmpty
      else t.label.notes.hasDanglingSpaces := by
  cases t with
  | leaf c => simp at h
  | node c ts =>
    rw [whitespace_node, label_node, hasDanglingSpaces_whitespaceStep]
    rfl

/-- `u` is the container `t` without its whitespace. If it is empty, the note on what was in it is
up to date where there was at most one child. With several it is still the note from before. -/
structure Emptied (t u : Doc) : Prop where
  empty_iff : u.children = [] ↔ (∀ v ∈ t.children, vanishes v = true) ∧
    (t.children.length ≤ 1 ∨ t.label.keepsWhitespace = false)
  note : u.children = [] → u.label.notes.hasDanglingSpaces =
    if t.children.length ≤ 1 then some !t.children.isEmpty else t.label.notes.hasDanglingSpaces
  recorded_iff : u.children = [] → (u.label.notes.hasDanglingSpaces = some (!t.children.isEmpty) ↔
    t.children.length ≤ 1 ∨ t.label.notes.hasDanglingSpaces = some true)

theorem emptied_of_unmarked (hcontainer : t.children?.isSome = true)
    (h : unmarked u = unmarked (whitespace src t)) : Emptied t u := by
  have hall : (∀ v ∈ t.children.map (whitespace src), vanishes v = true) ↔
      ∀ v ∈ t.children, vanishes v = true := by
    simp [vanishes_whitespace]
  have hempty : u.children = [] ↔ (∀ v ∈ t.children, vanishes v = true) ∧
      (t.children.length ≤ 1 ∨ t.label.keepsWhitespace = false) := by
    rw [← children_unmarked, h, children_unmarked, children_whitespace,
      snd_whitespaceStep_eq_nil_iff, hall, List.length_map]
  have hnote : u.children = [] → u.label.notes.hasDanglingSpaces =
      if t.children.length ≤ 1 then some !t.children.isEmpty
      else t.label.notes.hasDanglingSpaces := by
    intro hu
    have hsame : u.label.notes.hasDanglingSpaces =
        (whitespace src t).label.notes.hasDanglingSpaces := by
      simpa [unmarked] using congrArg (fun v => v.label.notes.hasDanglingSpaces) h
    have hblank : isBlankList (t.children.map (whitespace src)) = true ↔ t.children.length ≤ 1 := by
      rw [isBlankList_iff, List.length_map, hall]
      exact and_iff_left (hempty.mp hu).1
    rw [hsame, hasDanglingSpaces_whitespace src hcontainer, List.isEmpty_map]
    simp only [hblank]
  refine ⟨hempty, hnote, ?_⟩
  intro hu
  rw [hnote hu]
  split
  case isTrue hlength => simp [hlength]
  case isFalse hlength =>
    have hne : t.children.isEmpty = false := by
      cases hchildren : t.children with
      | nil => simp [hchildren] at hlength
      | cons v vs => rfl
    simp [hlength, hne]

end Reshape

open Reshape

/-- A container that ends up empty says what was in it if that was nothing or one text. If it was
several texts of whitespace, it says what it said before. -/
theorem emptied_containers_recorded_iff (o : Options) (s : Store) (h : s.Built) :
    ∃ d out d', s.toDoc = .ok d ∧ Pass.whitespace.run o s = .ok out ∧ out.toDoc = .ok d' ∧
      List.Forall₂ Emptied d.containers d'.containers := by
  obtain ⟨d, out, d', hd, hout, hd', hcontainers⟩ := h.exists_run_whitespace o
  exact ⟨d, out, d', hd, hout, hd', hcontainers.imp fun _ _ htu => emptied_of_unmarked htu.1 htu.2⟩

def hollowText : String := "<div> \n</div><pre> \t</pre><b>\n</b><i></i>"

/-- Two texts of whitespace where they do not show and where they do, one text of whitespace, and no
text at all. -/
def hollowStore : Store :=
  let span (start stop : Nat) : Span := ⟨.ofOffset start, .ofOffset stop⟩
  let element (name : String) (start inner outer stop : Nat) : Content :=
    { kind := .element { name, openTag := span start inner, closeTag := some (span outer stop) }
      span := span start stop }
  (Store.new (span 0 41)).growAll
    [(0, element "div" 0 5 7 13),
     (1, { kind := .text " ", span := span 5 6 }),
     (1, { kind := .text "\n", span := span 6 7 }),
     (0, element "pre" 13 18 20 26),
     (4, { kind := .text " ", span := span 18 19 }),
     (4, { kind := .text "\t", span := span 19 20 }),
     (0, element "b" 26 29 30 34),
     (7, { kind := .text "\n", span := span 29 30 }),
     (0, element "i" 34 37 37 41)]

theorem built_hollowStore : hollowStore.Built := Store.Built.growAll (.new _) _

theorem emptied_containers_recorded_iff_hollowStore :
    hollowStore.Built ∧ ∃ d out d', hollowStore.toDoc = .ok d ∧
      Pass.whitespace.run { source := .ofString hollowText } hollowStore = .ok out ∧
      out.toDoc = .ok d' ∧ List.Forall₂ Emptied d.containers d'.containers :=
  ⟨built_hollowStore, emptied_containers_recorded_iff _ _ built_hollowStore⟩

/-- Two texts of whitespace are gone from the first element, and nothing says so. -/
theorem two_blank_texts_not_recorded :
    hollowStore.Built ∧ (∀ n ∈ hollowStore.nodes.toList, n.kind ≠ .text "") ∧
      ∃ d out d', hollowStore.toDoc = .ok d ∧
        Pass.whitespace.run { source := .ofString hollowText } hollowStore = .ok out ∧
        out.toDoc = .ok d' ∧ d.containers.map (fun t => t.children.length) = [4, 2, 2, 1, 0] ∧
        d'.containers.map (fun u => (u.children.length, u.label.notes.hasDanglingSpaces)) =
          [(4, none), (0, none), (2, none), (0, some true), (0, some false)] := by
  have hbefore : hollowStore.toDoc.toOption.map (fun d => d.containers.map fun t =>
      t.children.length) = some [4, 2, 2, 1, 0] := by
    decide +kernel
  have hafter : ((Pass.whitespace.run { source := .ofString hollowText } hollowStore).toOption.bind
      fun out => out.toDoc.toOption.map fun d => d.containers.map fun u =>
        (u.children.length, u.label.notes.hasDanglingSpaces)) =
      some [(4, none), (0, none), (2, none), (0, some true), (0, some false)] := by
    decide +kernel
  refine ⟨built_hollowStore, by decide +kernel, ?_⟩
  obtain ⟨d, out, d', hd, hout, hd', -⟩ :=
    built_hollowStore.exists_run_whitespace { source := .ofString hollowText }
  refine ⟨d, out, d', hd, hout, hd', ?_, ?_⟩
  · simpa [hd, Except.toOption] using hbefore
  · simpa [hout, hd', Except.toOption] using hafter

end Markup
