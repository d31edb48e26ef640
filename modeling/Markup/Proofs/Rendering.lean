import Markup.Proofs.Recovery

/-! Style texts read back. Declarations that are written with any whitespace and any comments
between their tokens, and with semicolons between each other, are read as they were meant: for each
property the last one counts whose value is a keyword of the property. -/
namespace Markup.Css

/-! ### Fillers count for nothing -/

def withoutFillers (ts : List Token) : List Token := ts.filter fun t => !t.isFiller

section Fillers

variable {t : Token} {ts : List Token}

@[simp] theorem withoutFillers_nil : withoutFillers [] = [] := rfl

theorem withoutFillers_cons_of_isFiller (h : t.isFiller = true) :
    withoutFillers (t :: ts) = withoutFillers ts := by
  simp [withoutFillers, h]

theorem withoutFillers_cons_of_not_isFiller (h : t.isFiller = false) :
    withoutFillers (t :: ts) = t :: withoutFillers ts := by
  simp [withoutFillers, h]

theorem nest_of_isFiller (h : t.isFiller = true) (pending : List Bracket) :
    nest pending t = pending := by
  apply nest_of_not_closes? <;> cases t <;> simp_all [Token.isFiller, Token.opens?, Token.closes?]

theorem untilSemicolon_withoutFillers (pending : List Bracket) (ts : List Token) :
    untilSemicolon pending (withoutFillers ts) =
      (withoutFillers (untilSemicolon pending ts).1,
        withoutFillers (untilSemicolon pending ts).2) := by
  induction ts generalizing pending with
  | nil => rfl
  | cons t ts ih =>
    cases hfiller : t.isFiller with
    | true =>
      have hends : ¬ (pending = [] ∧ t = .semicolon) := by
        rintro ⟨-, rfl⟩
        simp [Token.isFiller] at hfiller
      rw [withoutFillers_cons_of_isFiller hfiller, untilSemicolon, if_neg hends,
        nest_of_isFiller hfiller, ih, withoutFillers_cons_of_isFiller hfiller]
    | false =>
      rw [withoutFillers_cons_of_not_isFiller hfiller, untilSemicolon, untilSemicolon]
      split
      case isTrue => rfl
      case isFalse => rw [ih, withoutFillers_cons_of_not_isFiller hfiller]

theorem dropBlock_withoutFillers (pending : List Bracket) (ts : List Token) :
    dropBlock pending (withoutFillers ts) = withoutFillers (dropBlock pending ts) := by
  induction ts generalizing pending with
  | nil => cases pending <;> rfl
  | cons t ts ih =>
    cases pending with
    | nil => rw [dropBlock, dropBlock]
    | cons b outer =>
      cases hfiller : t.isFiller with
      | true =>
        rw [withoutFillers_cons_of_isFiller hfiller, dropBlock, nest_of_isFiller hfiller, ih]
      | false => rw [withoutFillers_cons_of_not_isFiller hfiller, dropBlock, dropBlock, ih]

theorem dropAtRule_withoutFillers (pending : List Bracket) (ts : List Token) :
    dropAtRule pending (withoutFillers ts) = withoutFillers (dropAtRule pending ts) := by
  induction ts generalizing pending with
  | nil => rfl
  | cons t ts ih =>
    cases hfiller : t.isFiller with
    | true =>
      have hends : ¬ (pending = [] ∧ t = .semicolon) ∧ ¬ (pending = [] ∧ t = .opening .curly) := by
        constructor <;> rintro ⟨-, rfl⟩ <;> simp [Token.isFiller] at hfiller
      rw [withoutFillers_cons_of_isFiller hfiller, dropAtRule, if_neg hends.1, if_neg hends.2,
        nest_of_isFiller hfiller, ih]
    | false =>
      rw [withoutFillers_cons_of_not_isFiller hfiller, dropAtRule, dropAtRule]
      split
      case isTrue => rfl
      case isFalse =>
        split
        case isTrue => exact dropBlock_withoutFillers _ ts
        case isFalse => exact ih _

/-- Without fillers the declarations are the same, but for the fillers in them. -/
theorem declarations_withoutFillers (ts : List Token) : declarations (withoutFillers ts) =
    (declarations ts).map fun d => { d with body := withoutFillers d.body } := by
  fun_induction declarations ts with
  | case1 => simp [declarations]
  | case2 t ts hseparator ih =>
    cases hfiller : t.isFiller with
    | true => rw [withoutFillers_cons_of_isFiller hfiller, ih]
    | false =>
      rw [withoutFillers_cons_of_not_isFiller hfiller, declarations_of_isSeparator hseparator, ih]
  | case3 ts name r hseparator ih =>
    rw [withoutFillers_cons_of_not_isFiller rfl, declarations, if_neg hseparator]
    simp only [untilSemicolon_withoutFillers, List.map_cons, ← ih, r]
  | case4 ts name hseparator ih =>
    rw [withoutFillers_cons_of_not_isFiller rfl, declarations, if_neg hseparator,
      dropAtRule_withoutFillers, ih]
  | case5 ts t hident hatKeyword hseparator ih =>
    have hfiller : t.isFiller = false := by
      rw [Bool.eq_false_iff]
      exact fun h => hseparator (by simp [isSeparator, h])
    rw [withoutFillers_cons_of_not_isFiller hfiller, declarations, if_neg hseparator,
      untilSemicolon_withoutFillers, ih]
    all_goals assumption

theorem InlineStyle.ofTokens_withoutFillers (ts : List Token) :
    ofTokens (withoutFillers ts) = ofTokens ts := by
  have hdeclare : ∀ (s : InlineStyle) (d : Declaration),
      s.declare { d with body := withoutFillers d.body } = s.declare d := by
    intro s d
    simp [declare, Declaration.keyword?, withoutFillers]
  rw [ofTokens, declarations_withoutFillers, List.foldl_map, ofTokens]
  simp only [hdeclare]

end Fillers

/-! ### Declarations as they are written -/

/-- Whitespace or a complete comment. -/
inductive Filler where
  | space (c : Char) (hspace : Text.isSpace c = true)
  | comment (body : List Char) (hbody : ¬ ['*', '/'] <:+: body)

def Filler.chars : Filler → List Char
  | space c _ => [c]
  | comment body _ => '/' :: '*' :: (body ++ ['*', '/'])

abbrev Gap := List Filler

def Gap.chars (g : Gap) : List Char := g.flatMap Filler.chars

/-- What may stand between two declarations. -/
inductive Spacer where
  | filler (f : Filler)
  | semicolon

def Spacer.chars : Spacer → List Char
  | filler f => f.chars
  | semicolon => [';']

/-- A name of letters and hyphens that starts with a letter. -/
structure Word where
  first : Char
  rest : List Char
  isAlpha_first : first.isAlpha = true
  isAlpha_rest : (rest.all fun c => c.isAlpha || c == '-') = true

def Word.chars (w : Word) : List Char := w.first :: w.rest

def Word.text (w : Word) : String := String.ofList w.chars

/-- An exclamation mark with the word `important`, in any letter case. -/
structure Flag where
  before : Gap
  inside : Gap
  word : Word
  isImportant : Text.lower word.text = "important"

def Flag.chars (f : Flag) : List Char := f.before.chars ++ '!' :: (f.inside.chars ++ f.word.chars)

/-- A declaration as it is written, with what is written behind it. -/
structure Setting where
  name : Word
  beforeColon : Gap
  beforeValue : Gap
  value : Word
  flag : Option Flag
  behind : List Spacer

def Setting.flagChars (d : Setting) : List Char := (d.flag.map Flag.chars).getD []

def Setting.chars (d : Setting) : List Char :=
  d.name.chars ++ (d.beforeColon.chars ++ ':' :: (d.beforeValue.chars ++ (d.value.chars ++
    (d.flagChars ++ d.behind.flatMap Spacer.chars))))

/-- The text of declarations behind some whitespace, comments and semicolons. -/
def render (lead : List Spacer) (ds : List Setting) : String :=
  String.ofList (lead.flatMap Spacer.chars ++ ds.flatMap Setting.chars)

/-! ### Their tokens -/

def significant (cs : List Char) : List Token := withoutFillers (tokens cs)

section Significant

variable {c : Char} {rest : List Char}

@[simp] theorem significant_nil : significant [] = [] := by
  rw [significant, tokens_nil, withoutFillers_nil]

theorem significant_cons_of_isFiller {t : Token} {cs : List Char} (h : Lexer.scan c rest = (t, cs))
    (hfiller : t.isFiller = true) : significant (c :: rest) = significant cs := by
  rw [significant, tokens_cons, h, withoutFillers_cons_of_isFiller hfiller, significant]

theorem significant_cons_of_not_isFiller {t : Token} {cs : List Char}
    (h : Lexer.scan c rest = (t, cs)) (hfiller : t.isFiller = false) :
    significant (c :: rest) = t :: significant cs := by
  rw [significant, tokens_cons, h, withoutFillers_cons_of_not_isFiller hfiller, significant]

theorem not_startsNumber (h : ¬ (c.isDigit = true ∨ c = '+' ∨ c = '-' ∨ c = '.')) :
    Lexer.startsNumber (c :: rest) = false := by
  simp only [not_or, Bool.not_eq_true] at h
  obtain ⟨hdigit, hplus, hminus, hpoint⟩ := h
  cases rest <;> simp [Lexer.startsNumber, Lexer.dropSign, Lexer.startsDecimal, *]

theorem scan_eq_sign (hnumber : ¬ (c.isDigit = true ∨ c = '+' ∨ c = '-' ∨ c = '.'))
    (hname : ¬ (c = '\\' ∨ Lexer.isNameStart c = true)) :
    Lexer.scan c rest = Lexer.sign c rest := by
  have hminus : c ≠ '-' := fun h => hnumber (.inr (.inr (.inl h)))
  have hstarts : Lexer.startsName (c :: rest) = false := by
    simp only [not_or, Bool.not_eq_true] at hname
    simp [Lexer.startsName, hminus, hname]
  simp [Lexer.scan, not_startsNumber hnumber, hminus, hstarts]

theorem scan_space (h : Text.isSpace c = true) :
    Lexer.scan c rest = (.space, rest.dropWhile Text.isSpace) := by
  have hsign : Lexer.scan c rest = Lexer.sign c rest := by
    simp only [Text.isSpace, Bool.or_eq_true, decide_eq_true_eq] at h
    rcases h with (((rfl | rfl) | rfl) | rfl) | rfl <;> exact scan_eq_sign (by decide) (by decide)
  rw [hsign, Lexer.sign, if_pos h]

theorem scan_punctuation (h : c = ':' ∨ c = ';' ∨ c = '!') :
    Lexer.scan c rest = (Lexer.punctuation c, rest) := by
  rcases h with rfl | rfl | rfl <;> rw [scan_eq_sign (by decide) (by decide)] <;>
    simp [Lexer.sign, Text.isSpace, Lexer.isComparison]

theorem dropComment_append {body : List Char} (h : ¬ ['*', '/'] <:+: body) :
    Lexer.dropComment (body ++ '*' :: '/' :: rest) = rest := by
  induction body with
  | nil => simp [Lexer.dropComment]
  | cons c body ih =>
    have hbody : ¬ ['*', '/'] <:+: body := fun hinside =>
      h (hinside.trans (List.infix_cons List.infix_rfl))
    cases body with
    | nil => simp [Lexer.dropComment]
    | cons d body =>
      have hends : ¬ (c = '*' ∧ d = '/') := by
        rintro ⟨rfl, rfl⟩
        exact h ⟨[], body, rfl⟩
      rw [List.cons_append, List.cons_append, Lexer.dropComment, if_neg hends]
      exact ih hbody

theorem scan_comment {body : List Char} (h : ¬ ['*', '/'] <:+: body) :
    Lexer.scan '/' ('*' :: (body ++ '*' :: '/' :: rest)) = (.comment, rest) := by
  rw [scan_eq_sign (by decide) (by decide)]
  simp [Lexer.sign, Text.isSpace, dropComment_append h]

/-- A run of whitespace is one token, yet each of its characters could as well be missing. -/
theorem significant_space (h : Text.isSpace c = true) :
    significant (c :: rest) = significant rest := by
  rw [significant_cons_of_isFiller (scan_space h) rfl]
  cases rest with
  | nil => rfl
  | cons d ds =>
    by_cases hd : Text.isSpace d = true
    case pos => rw [List.dropWhile_cons_of_pos hd, significant_cons_of_isFiller (scan_space hd) rfl]
    case neg => rw [List.dropWhile_cons_of_neg hd]

theorem significant_punctuation (h : c = ':' ∨ c = ';' ∨ c = '!') :
    significant (c :: rest) = Lexer.punctuation c :: significant rest := by
  apply significant_cons_of_not_isFiller (scan_punctuation h)
  rcases h with rfl | rfl | rfl <;> rfl

theorem significant_filler (f : Filler) : significant (f.chars ++ rest) = significant rest := by
  cases f with
  | space c hspace => exact significant_space hspace
  | comment body hbody =>
    rw [Filler.chars, List.cons_append, List.cons_append, List.append_assoc]
    exact significant_cons_of_isFiller (scan_comment hbody) rfl

theorem significant_gap (g : Gap) : significant (g.chars ++ rest) = significant rest := by
  induction g with
  | nil => rfl
  | cons f g ih =>
    rw [Gap.chars, List.flatMap_cons, List.append_assoc, significant_filler]
    exact ih

/-- What follows a word: nothing, or the first character of another token. -/
def Ended (rest : List Char) : Prop :=
  ∀ c ∈ rest.head?, Text.isSpace c = true ∨ c ∈ ['/', ':', '!', ';']

/-- None of the characters that may follow a word can belong to it. -/
theorem Ended.head (h : Ended (c :: rest)) :
    c ≠ '\\' ∧ c ≠ '(' ∧ Lexer.isNameChar c = false := by
  have hc := h c rfl
  simp only [Text.isSpace, Bool.or_eq_true, decide_eq_true_eq, List.mem_cons, List.not_mem_nil,
    or_false] at hc
  rcases hc with ((((rfl | rfl) | rfl) | rfl) | rfl) | rfl | rfl | rfl | rfl <;> decide

theorem ended_filler (f : Filler) : Ended (f.chars ++ rest) := by
  cases f with
  | space c hspace => simp [Ended, Filler.chars, hspace]
  | comment body hbody => simp [Ended, Filler.chars]

theorem ended_gap (g : Gap) (h : Ended rest) : Ended (g.chars ++ rest) := by
  cases g with
  | nil => exact h
  | cons f g =>
    rw [Gap.chars, List.flatMap_cons, List.append_assoc]
    exact ended_filler f

theorem ended_spacers {ss : List Spacer} (h : ss = [] → rest = []) :
    Ended (ss.flatMap Spacer.chars ++ rest) := by
  cases ss with
  | nil =>
    obtain rfl := h rfl
    simp [Ended]
  | cons s ss =>
    rw [List.flatMap_cons, List.append_assoc]
    cases s with
    | filler f => exact ended_filler f
    | semicolon => simp [Ended, Spacer.chars]

theorem name_append {cs : List Char} (hcs : ∀ c ∈ cs, c.isAlpha = true ∨ c = '-')
    (hrest : Ended rest) : Lexer.name (cs ++ rest) = (cs, rest) := by
  induction cs with
  | nil =>
    cases rest with
    | nil => rw [List.nil_append, Lexer.name]
    | cons c rest =>
      obtain ⟨hescape, -, hname⟩ := hrest.head
      simp [Lexer.name, hescape, hname]
  | cons c cs ih =>
    rw [List.forall_mem_cons] at hcs
    have hc : c ≠ '\\' ∧ Lexer.isNameChar c = true ∧ Lexer.clean c = c := by
      rcases hcs.1 with halpha | rfl
      · refine ⟨?_, by simp [Lexer.isNameChar, Lexer.isNameStart, halpha], ?_⟩
        · rintro rfl
          simp at halpha
        · rw [Lexer.clean, if_neg]
          rintro rfl
          simp at halpha
      · decide
    rw [List.cons_append, Lexer.name, if_neg hc.1, if_pos hc.2.1, ih hcs.2, hc.2.2]

theorem not_isDigit_of_isAlpha (h : c.isAlpha = true) : c.isDigit = false := by
  have hletter : (decide ('A'.val ≤ c.val ∧ c.val ≤ 'Z'.val) ||
      (decide ('a'.val ≤ c.val) && decide (c.val ≤ 'z'.val))) = true := h
  rw [Bool.eq_false_iff]
  intro hdigit
  have hrange : (decide ('0'.val ≤ c.val) && decide (c.val ≤ '9'.val)) = true := hdigit
  simp only [Bool.or_eq_true, Bool.and_eq_true, decide_eq_true_eq, UInt32.le_iff_toNat_le,
    Char.reduceVal, UInt32.reduceToNat] at hletter hrange
  omega

theorem not_startsNumber_word (w : Word) (rest : List Char) :
    Lexer.startsNumber (w.chars ++ rest) = false := by
  have halpha := w.isAlpha_first
  apply not_startsNumber
  rintro (hdigit | h | h | h)
  · simp [not_isDigit_of_isAlpha halpha] at hdigit
  all_goals simp [h] at halpha

theorem startsName_word (w : Word) (rest : List Char) :
    Lexer.startsName (w.chars ++ rest) = true := by
  have halpha := w.isAlpha_first
  have hminus : w.first ≠ '-' := fun h => by simp [h] at halpha
  have hescape : w.first ≠ '\\' := fun h => by simp [h] at halpha
  simp [Word.chars, Lexer.startsName, hminus, hescape, Lexer.isNameStart, halpha]

theorem nameLike_word (w : Word) (hrest : Ended rest) :
    Lexer.nameLike (w.chars ++ rest) = (.ident w.text, rest) := by
  have hchars : ∀ c ∈ w.chars, c.isAlpha = true ∨ c = '-' := by
    rw [Word.chars, List.forall_mem_cons]
    exact ⟨.inl w.isAlpha_first, by simpa using w.isAlpha_rest⟩
  rw [Lexer.nameLike, name_append hchars hrest]
  cases rest with
  | nil => rfl
  | cons c rest =>
    obtain ⟨-, hbracket, -⟩ := hrest.head
    simp [hbracket, Word.text]

theorem significant_word (w : Word) (hrest : Ended rest) :
    significant (w.chars ++ rest) = .ident w.text :: significant rest := by
  have hminus : w.first ≠ '-' := fun h => by simpa [h] using w.isAlpha_first
  have hscan : Lexer.scan w.first (w.rest ++ rest) = (.ident w.text, rest) := by
    have hnumber := not_startsNumber_word w rest
    have hstarts := startsName_word w rest
    have hname := nameLike_word w hrest
    rw [Word.chars, List.cons_append] at hnumber hstarts hname
    simp [Lexer.scan, hnumber, hminus, hstarts, hname]
  exact significant_cons_of_not_isFiller hscan rfl

end Significant

/-! ### Their declarations -/

def Spacer.tokens : Spacer → List Token
  | filler _ => []
  | semicolon => [.semicolon]

namespace Setting

def flagTokens (d : Setting) : List Token :=
  (d.flag.map fun f => [.delim '!', .ident f.word.text]).getD []

/-- What is read of the declaration, apart from fillers. -/
def declaration (d : Setting) : Declaration :=
  ⟨d.name.text, .colon :: .ident d.value.text :: d.flagTokens⟩

/-- The declaration gives the property the value with this keyword. -/
def Sets {β : Type} (property : String) (keyword : β → String) (d : Setting) (k : β) : Prop :=
  Text.lower d.name.text = property ∧ Text.lower d.value.text = keyword k

instance {β : Type} (property : String) (keyword : β → String) (d : Setting) (k : β) :
    Decidable (d.Sets property keyword k) :=
  inferInstanceAs (Decidable (_ ∧ _))

end Setting

/-- The last declaration that gives the property any value gives it this one. -/
def LastSets {β : Type} (property : String) (keyword : β → String) (ds : List Setting) (k : β) :
    Prop :=
  ∃ before d after, ds = before ++ d :: after ∧ d.Sets property keyword k ∧
    ∀ e ∈ after, ∀ l, ¬ e.Sets property keyword l

section Declarations

variable {rest : List Char}

theorem significant_spacers (ss : List Spacer) :
    significant (ss.flatMap Spacer.chars ++ rest) =
      ss.flatMap Spacer.tokens ++ significant rest := by
  induction ss with
  | nil => rfl
  | cons s ss ih =>
    rw [List.flatMap_cons, List.flatMap_cons, List.append_assoc]
    cases s with
    | filler f => rw [Spacer.chars, significant_filler, ih]; rfl
    | semicolon =>
      rw [Spacer.chars, List.cons_append, List.nil_append, significant_punctuation (by simp), ih]
      rfl

theorem significant_flag (d : Setting) (hrest : Ended rest) :
    significant (d.flagChars ++ rest) = d.flagTokens ++ significant rest := by
  rw [Setting.flagChars, Setting.flagTokens]
  cases d.flag with
  | none => rfl
  | some f =>
    simp only [Option.map_some, Option.getD_some, Flag.chars, List.append_assoc, List.cons_append]
    rw [significant_gap, significant_punctuation (by simp), significant_gap,
      significant_word _ hrest]
    rfl

theorem ended_flag (d : Setting) (hrest : Ended rest) : Ended (d.flagChars ++ rest) := by
  rw [Setting.flagChars]
  cases d.flag with
  | none => exact hrest
  | some f =>
    rw [Option.map_some, Option.getD_some, Flag.chars, List.append_assoc]
    exact ended_gap _ (by simp [Ended])

theorem significant_setting (d : Setting) (h : d.behind = [] → rest = []) :
    significant (d.chars ++ rest) = .ident d.declaration.name :: (d.declaration.body ++
      (d.behind.flatMap Spacer.tokens ++ significant rest)) := by
  have hbehind := ended_spacers h
  simp only [Setting.chars, List.append_assoc, List.cons_append]
  rw [significant_word _ (ended_gap _ (by simp [Ended])), significant_gap,
    significant_punctuation (by simp), significant_gap, significant_word _ (ended_flag d hbehind),
    significant_flag d hbehind, significant_spacers]
  rfl

theorem declarations_spacers (ss : List Spacer) (ts : List Token) :
    declarations (ss.flatMap Spacer.tokens ++ ts) = declarations ts := by
  induction ss with
  | nil => rfl
  | cons s ss ih =>
    cases s with
    | filler f => exact ih
    | semicolon => exact (declarations_semicolon _).trans ih

theorem spacers_cases (ss : List Spacer) : ss.flatMap Spacer.tokens = [] ∧ .semicolon ∉ ss ∨
    ∃ more, ss.flatMap Spacer.tokens = .semicolon :: List.flatMap Spacer.tokens more := by
  induction ss with
  | nil => exact .inl ⟨rfl, by simp⟩
  | cons s ss ih =>
    cases s with
    | filler f =>
      rcases ih with ⟨hnil, hnot⟩ | hmore
      · exact .inl ⟨hnil, by simpa using hnot⟩
      · exact .inr hmore
    | semicolon => exact .inr ⟨ss, rfl⟩

theorem declarations_declaration (d : Setting) :
    declarations (.ident d.declaration.name :: d.declaration.body) = [d.declaration] ∧
      (.ident d.declaration.name :: d.declaration.body).foldl nest [] = [] := by
  rw [Setting.declaration, Setting.flagTokens]
  cases d.flag with
  | none => exact ⟨by simp [declarations, isSeparator, Token.isFiller, untilSemicolon], rfl⟩
  | some f => exact ⟨by simp [declarations, isSeparator, Token.isFiller, untilSemicolon], rfl⟩

theorem declarations_setting (d : Setting) (h : .semicolon ∈ d.behind ∨ rest = []) :
    declarations (significant (d.chars ++ rest)) =
      d.declaration :: declarations (significant rest) := by
  have hbehind : d.behind = [] → rest = [] := fun hnil => h.resolve_left (by simp [hnil])
  obtain ⟨hself, hnest⟩ := declarations_declaration d
  rw [significant_setting d hbehind]
  rcases spacers_cases d.behind with ⟨hnil, hnot⟩ | ⟨more, hmore⟩
  · obtain rfl := h.resolve_left hnot
    simp [hnil, hself, declarations]
  · have happend := declarations_append hnest (List.flatMap Spacer.tokens more ++ significant rest)
    rw [declarations_spacers, hself] at happend
    rw [hmore]
    exact happend

theorem declarations_settings {ds : List Setting} (h : ∀ d ∈ ds.dropLast, .semicolon ∈ d.behind) :
    declarations (significant (ds.flatMap Setting.chars)) = ds.map Setting.declaration := by
  induction ds with
  | nil => simp [declarations]
  | cons d ds ih =>
    rw [List.flatMap_cons, List.map_cons]
    cases ds with
    | nil =>
      rw [List.flatMap_nil, declarations_setting d (.inr rfl), significant_nil, declarations]
      rfl
    | cons e es =>
      rw [List.dropLast_cons_cons, List.forall_mem_cons] at h
      rw [declarations_setting d (.inl h.1), ih h.2]

theorem keyword?_declaration (d : Setting) :
    d.declaration.keyword? = some (Text.lower d.value.text) := by
  rw [Declaration.keyword?, Setting.declaration, Setting.flagTokens]
  cases d.flag with
  | none => rfl
  | some f =>
    have himportant : Text.sameLetters f.word.text "important" = true := by
      rw [Text.sameLetters, f.isImportant]
      decide
    simp [Token.isFiller, himportant]

/-- Of the values that declarations give, the last one is found from behind. -/
theorem findSome?_eq_some_iff_lastSets {β : Type} {property : String} {keyword : β → String}
    {set? : Declaration → Option β} (hset : ∀ (d : Setting) k,
      set? d.declaration = some k ↔ d.Sets property keyword k) (ds : List Setting) (k : β) :
    (ds.map Setting.declaration).reverse.findSome? set? = some k ↔
      LastSets property keyword ds k := by
  have hnone : ∀ d : Setting, set? d.declaration = none ↔ ∀ l, ¬ d.Sets property keyword l := by
    intro d
    rw [Option.eq_none_iff_forall_ne_some]
    exact forall_congr' fun l => not_congr (hset d l)
  rw [← List.map_reverse, List.findSome?_map, List.findSome?_eq_some_iff]
  constructor
  · rintro ⟨after, d, before, hsplit, hd, hafter⟩
    refine ⟨before.reverse, d, after.reverse, ?_, (hset d k).mp hd, ?_⟩
    · rw [← List.reverse_reverse ds, hsplit]
      simp
    · intro e he
      exact (hnone e).mp (hafter e (List.mem_reverse.mp he))
  · rintro ⟨before, d, after, rfl, hd, hafter⟩
    refine ⟨after.reverse, d, before.reverse, by simp, (hset d k).mpr hd, ?_⟩
    intro e he
    exact (hnone e).mpr (hafter e (List.mem_reverse.mp he))

theorem bind_keyword?_eq_some_iff {β : Type} {property : String} {keyword : β → String}
    {of? : String → Option β} (hproperty : Text.lower property = property)
    (hof : ∀ s k, of? s = some k ↔ s = keyword k) (d : Setting) (k : β) :
    (if Text.sameLetters d.declaration.name property then d.declaration.keyword?.bind of?
      else none) = some k ↔ d.Sets property keyword k := by
  rw [keyword?_declaration, Option.bind_some, Option.ite_none_right_eq_some, hof, Text.sameLetters,
    beq_iff_eq, hproperty]
  rfl

theorem display?_declaration_eq_some_iff :
    ∀ (d : Setting) k, d.declaration.display? = some k ↔ d.Sets "display" Display.keyword k :=
  bind_keyword?_eq_some_iff (by decide) fun _ k =>
    ⟨fun h => (Display.keyword_of_ofKeyword? h).symm, fun h => h ▸ Display.ofKeyword?_keyword k⟩

theorem whiteSpace?_declaration_eq_some_iff :
    ∀ (d : Setting) k, d.declaration.whiteSpace? = some k ↔
      d.Sets "white-space" WhiteSpace.keyword k :=
  bind_keyword?_eq_some_iff (by decide) fun _ k =>
    ⟨fun h => (WhiteSpace.keyword_of_ofKeyword? h).symm,
      fun h => h ▸ WhiteSpace.ofKeyword?_keyword k⟩

theorem declarations_render (lead : List Spacer) {ds : List Setting}
    (h : ∀ d ∈ ds.dropLast, .semicolon ∈ d.behind) :
    declarations (significant (render lead ds).toList) = ds.map Setting.declaration := by
  rw [render, String.toList_ofList, significant_spacers, declarations_spacers,
    declarations_settings h]

end Declarations

/-- Style texts read back. However declarations are written, with whitespace and comments between
their tokens and one semicolon or more between each other, a property has the value that the last of
the declarations gives to it that names the property and one of its keywords, in any letter case; if
there is no such declaration, it has none. -/
theorem styles_read_back (lead : List Spacer) (ds : List Setting)
    (hparted : ∀ d ∈ ds.dropLast, .semicolon ∈ d.behind) :
    (∀ k, (InlineStyle.parse (render lead ds)).display = some k ↔
      LastSets "display" Display.keyword ds k) ∧
    ∀ k, (InlineStyle.parse (render lead ds)).whiteSpace = some k ↔
      LastSets "white-space" WhiteSpace.keyword ds k := by
  have hparse : InlineStyle.parse (render lead ds) =
      InlineStyle.ofTokens (significant (render lead ds).toList) :=
    (InlineStyle.ofTokens_withoutFillers _).symm
  have hread := declarations_render lead hparted
  constructor
  · intro k
    rw [hparse, InlineStyle.display_ofTokens, hread]
    exact findSome?_eq_some_iff_lastSets display?_declaration_eq_some_iff ds k
  · intro k
    rw [hparse, InlineStyle.whiteSpace_ofTokens, hread]
    exact findSome?_eq_some_iff_lastSets whiteSpace?_declaration_eq_some_iff ds k

def blank : Filler := .space ' ' (by decide)

/-- A keyword in capitals with a flag, a keyword that does not exist, and a setting that nothing
follows. -/
def mixedSettings : List Setting :=
  [ { name := ⟨'D', "isPlay".toList, by decide, by decide⟩
      beforeColon := [.comment "*".toList (by decide)]
      beforeValue := [blank, blank]
      value := ⟨'I', "NLINE-block".toList, by decide, by decide⟩
      flag := some ⟨[], [blank], ⟨'I', "mportant".toList, by decide, by decide⟩, by decide⟩
      behind := [.semicolon, .filler blank, .semicolon] },
    { name := ⟨'d', "isplay".toList, by decide, by decide⟩
      beforeColon := []
      beforeValue := []
      value := ⟨'b', "ogus".toList, by decide, by decide⟩
      flag := none
      behind := [.semicolon] },
    { name := ⟨'w', "hite-space".toList, by decide, by decide⟩
      beforeColon := []
      beforeValue := [blank]
      value := ⟨'p', "re-line".toList, by decide, by decide⟩
      flag := none
      behind := [] } ]

theorem styles_read_back_mixedSettings :
    render [.semicolon, .filler blank] mixedSettings =
        "; DisPlay/***/:  INLINE-block! Important; ;display:bogus;white-space: pre-line" ∧
      (∀ d ∈ mixedSettings.dropLast, .semicolon ∈ d.behind) ∧
      (InlineStyle.parse (render [.semicolon, .filler blank] mixedSettings)).display =
        some .inlineBlock ∧
      (InlineStyle.parse (render [.semicolon, .filler blank] mixedSettings)).whiteSpace =
        some .preLine := by
  have hparted : ∀ d ∈ mixedSettings.dropLast, .semicolon ∈ d.behind := by
    simp [mixedSettings]
  obtain ⟨hdisplay, hwhiteSpace⟩ :=
    styles_read_back [.semicolon, .filler blank] mixedSettings hparted
  refine ⟨by decide +kernel, hparted, (hdisplay _).mpr ?_, (hwhiteSpace _).mpr ?_⟩
  · refine ⟨[], _, _, rfl, by decide, ?_⟩
    simp only [List.forall_mem_cons]
    exact ⟨by intro l; cases l <;> decide, by intro l; cases l <;> decide, by simp⟩
  · exact ⟨[_, _], _, [], rfl, by decide, by simp⟩

end Markup.Css
