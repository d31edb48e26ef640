import Markup.Proofs.Attributes
import Mathlib.Computability.Language

/-! Closing tags of components. A component can be closed by a tag without a name: two slashes
between angle brackets, with blanks wherever they can stand. Such tags form a regular language, and
an element is noted to be closed by one just if its closing tag can be read and is in the
language. -/
namespace Markup

open Computability

namespace Annotate

variable {cs : List Char}

def blank : Language Char := {cs | ∃ c, Text.isBlank c = true ∧ cs = [c]}

/-- An angle bracket, two slashes and an angle bracket, with any blanks between them. -/
def componentTags : Language Char :=
  {['<']} * blank∗ * {['/']} * blank∗ * {['/']} * blank∗ * {['>']}

theorem mem_kstar_blank : cs ∈ blank∗ ↔ ∀ c ∈ cs, Text.isBlank c = true := by
  rw [Language.mem_kstar]
  constructor
  · rintro ⟨parts, rfl, hparts⟩ c hc
    obtain ⟨part, hpart, hcpart⟩ := List.mem_flatten.mp hc
    obtain ⟨d, hd, rfl⟩ := hparts part hpart
    rwa [List.mem_singleton.mp hcpart]
  · intro hcs
    refine ⟨cs.map fun c => [c], by rw [← List.flatMap_def, List.flatMap_singleton'], ?_⟩
    intro part hpart
    obtain ⟨c, hc, rfl⟩ := List.mem_map.mp hpart
    exact ⟨c, hcs c hc, rfl⟩

theorem mem_componentTags : cs ∈ componentTags ↔ ∃ x ∈ blank∗, ∃ y ∈ blank∗, ∃ z ∈ blank∗,
    cs = '<' :: (x ++ '/' :: (y ++ '/' :: z) ++ ['>']) := by
  constructor
  · rintro ⟨_, ⟨_, ⟨_, ⟨_, ⟨_, ⟨_, rfl, x, hx, rfl⟩, _, rfl, rfl⟩, y, hy, rfl⟩, _, rfl, rfl⟩, z, hz,
      rfl⟩, _, rfl, rfl⟩
    exact ⟨x, hx, y, hy, z, hz, by simp⟩
  · rintro ⟨x, hx, y, hy, z, hz, rfl⟩
    have hfirst : ['<'] ++ x ++ ['/'] ∈ ({['<']} * blank∗ * {['/']} : Language Char) :=
      Language.append_mem_mul (Language.append_mem_mul rfl hx) rfl
    have hsecond : ['<'] ++ x ++ ['/'] ++ y ++ ['/'] ∈
        ({['<']} * blank∗ * {['/']} * blank∗ * {['/']} : Language Char) :=
      Language.append_mem_mul (Language.append_mem_mul hfirst hy) rfl
    have hlast : ['<'] ++ x ++ ['/'] ++ y ++ ['/'] ++ z ++ ['>'] ∈ componentTags :=
      Language.append_mem_mul (Language.append_mem_mul hsecond hz) rfl
    simpa using hlast

/-- If two slashes are all that is left without the blanks, blanks are all that is around them. -/
theorem filter_blank_eq_slashes : cs.filter (fun c => !Text.isBlank c) = ['/', '/'] ↔
    ∃ x ∈ blank∗, ∃ y ∈ blank∗, ∃ z ∈ blank∗, cs = x ++ '/' :: (y ++ '/' :: z) := by
  have hslash : Text.isBlank '/' = false := by decide
  simp only [mem_kstar_blank]
  constructor
  · intro h
    obtain ⟨x, rest, rfl, hx, -, hrest⟩ := List.filter_eq_cons_iff.mp h
    obtain ⟨y, z, rfl, hy, -, hz⟩ := List.filter_eq_cons_iff.mp hrest
    rw [List.filter_eq_nil_iff] at hz
    exact ⟨x, by simpa using hx, y, by simpa using hy, z, by simpa using hz, rfl⟩
  · rintro ⟨x, hx, y, hy, z, hz, rfl⟩
    have hnone : ∀ {l : List Char}, (∀ c ∈ l, Text.isBlank c = true) →
        l.filter (fun c => !Text.isBlank c) = [] := by
      intro l hl
      rw [List.filter_eq_nil_iff]
      simpa using hl
    simp [hnone hx, hnone hy, hnone hz, hslash]

theorem isComponentClosing_iff : isComponentClosing cs = true ↔ cs ∈ componentTags := by
  rw [mem_componentTags]
  cases cs with
  | nil => simp [isComponentClosing]
  | cons c cs =>
    simp only [isComponentClosing, Bool.and_eq_true, decide_eq_true_eq, filter_blank_eq_slashes,
      List.getLast?_eq_some_iff]
    constructor
    · rintro ⟨⟨rfl, inner, rfl⟩, x, hx, y, hy, z, hz, hinner⟩
      rw [List.dropLast_concat] at hinner
      exact ⟨x, hx, y, hy, z, hz, by rw [hinner]⟩
    · rintro ⟨x, hx, y, hy, z, hz, hcs⟩
      obtain ⟨rfl, rfl⟩ := List.cons.inj hcs
      exact ⟨⟨rfl, _, rfl⟩, x, hx, y, hy, z, hz, by rw [List.dropLast_concat]⟩

theorem hasComponentClosing_iff {src : Source} {e : Element} :
    hasComponentClosing src e = true ↔ ∃ tag cs, e.closeTag = some tag ∧
      src.Reads tag.start.offset cs tag.stop.offset ∧ cs ∈ componentTags := by
  rw [hasComponentClosing]
  cases e.closeTag with
  | none => simp
  | some tag =>
    simp only [Option.some.injEq, exists_and_left, exists_eq_left', ← isComponentClosing_iff]
    constructor
    · intro h
      split at h
      case h_1 text htext => exact ⟨text.toList, Source.slice_eq_ok_iff.mp htext, h⟩
      case h_2 => simp at h
    · rintro ⟨cs, hcs, hclosing⟩
      rw [← String.toList_ofList (l := cs), ← Source.slice_eq_ok_iff] at hcs
      simpa [hcs] using hclosing

/-- Closing tags of components are recognised exactly. A text is taken for one just if it is an
angle bracket, two slashes and an angle bracket with blanks between them, and an element below the
root is noted to have one just if its closing tag is there, can be read and is such a text. -/
theorem component_tags_recognised (src : Source) (s : Store) (hs : s.Rooted) :
    (∀ text : String, isComponentClosing text.toList = true ↔ text.toList ∈ componentTags) ∧
      ∃ out, componentClosing src s = .ok out ∧
        ∀ i n e, s.Reaches 0 i → s.node? i = some n → n.kind = .element e →
          ∃ flag, out.node? i = some { n with
              kind := .element { e with hasComponentClosing := some flag } } ∧
            (flag = true ↔ ∃ tag cs, e.closeTag = some tag ∧
              src.Reads tag.start.offset cs tag.stop.offset ∧ cs ∈ componentTags) := by
  obtain ⟨out, hout, hnoted⟩ := Pass.exists_run_componentClosing { source := src } hs
  rw [Pass.run_componentClosing] at hout
  refine ⟨fun _ => isComponentClosing_iff, out, hout, ?_⟩
  intro i n e hi hn hkind
  refine ⟨hasComponentClosing src e, ?_, hasComponentClosing_iff⟩
  rw [hnoted.reached i n hi hn, Pass.note, hkind]
  rfl

/-- Elements whose closing tags end at the same place and begin with the bracket, behind it, and
inside the blank behind the bracket. -/
def taggedStore : Store :=
  let element (start : Nat) : Kind :=
    .element { name := "A", openTag := {}, closeTag := some ⟨.ofOffset start, .ofOffset 10⟩ }
  ⟨#[{ kind := .root, children := some [1, 2, 3] },
     { kind := element 4, children := some [] },
     { kind := element 5, children := some [] },
     { kind := element 6, children := some [] }]⟩

theorem component_tags_recognised_taggedStore :
    taggedStore.Rooted ∧ ∃ out,
      componentClosing (.ofString "<A>x<\u00a0//>") taggedStore = .ok out ∧
      (∃ n e, taggedStore.node? 1 = some n ∧ n.kind = .element e ∧ out.node? 1 = some { n with
        kind := .element { e with hasComponentClosing := some true } }) ∧
      ∃ n e, taggedStore.node? 3 = some n ∧ n.kind = .element e ∧ out.node? 3 = some { n with
        kind := .element { e with hasComponentClosing := some false } } := by
  have hs : taggedStore.Rooted := Store.exists_toDoc_iff_rooted.mp ⟨_, rfl⟩
  have hlists : ∀ i ∈ [1, 2, 3], taggedStore.Reaches 0 i := fun i hi => .single ⟨_, _, rfl, rfl, hi⟩
  obtain ⟨hlanguage, out, hout, hflags⟩ :=
    component_tags_recognised (.ofString "<A>x<\u00a0//>") taggedStore hs
  obtain ⟨first, hfirst, hread⟩ := hflags 1 _ _ (hlists 1 (by decide)) rfl rfl
  obtain ⟨third, hthird, hcut⟩ := hflags 3 _ _ (hlists 3 (by decide)) rfl rfl
  have htrue : first = true := by
    refine hread.mpr ⟨_, "<\u00a0//>".toList, rfl, ⟨"<A>x".toList, [], ?_, ?_, ?_⟩, ?_⟩
    · decide
    · decide
    · decide
    · exact (hlanguage _).mp (by decide)
  have hfalse : third = false := by
    rw [← Bool.not_eq_true, hcut]
    rintro ⟨tag, cs, htag, hreads, -⟩
    obtain rfl := Option.some.inj htag
    obtain ⟨text, htext⟩ := Source.exists_slice_eq_ok hreads
    have hrefused : (Source.ofString "<A>x<\u00a0//>").slice ⟨.ofOffset 6, .ofOffset 10⟩ =
        .error (.spanOutOfBounds 6 10 10) := by decide
    simp [hrefused] at htext
  exact ⟨hs, out, hout, ⟨_, _, rfl, rfl, by rw [hfirst, htrue]⟩, _, _, rfl, rfl,
    by rw [hthird, hfalse]⟩

end Annotate

end Markup
