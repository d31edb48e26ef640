import Markup.Spacing
import Markup.Store.Unfold

/-! Whitespace at the ends of texts. It is cut off, and the nodes on both sides of the cut remember
that there was some. -/
namespace Markup.Reshape

/-- What a child list is made of while whitespace is cut off. -/
inductive Piece (α : Type) where
  | space
  | item (a : α)
deriving Repr

namespace Piece

variable {α β : Type}

def isSpace : Piece α → Bool
  | space => true
  | item _ => false

def map (f : α → β) : Piece α → Piece β
  | space => space
  | item a => item (f a)

@[simp] theorem isSpace_map (f : α → β) (p : Piece α) : (p.map f).isSpace = p.isSpace := by
  cases p <;> rfl

end Piece

/-- A text without the whitespace at its ends, between the marks of that whitespace. Nothing is left
of a text that was empty. -/
def cutText (src : Source) (t : Doc) (value : String) : List (Piece Doc) :=
  let parts := Text.splitSpace value.toList
  let span :=
    ⟨src.shift t.label.span.start (Text.byteLength parts.leading),
      src.shift t.label.span.stop (-(Text.byteLength parts.trailing : Int))⟩
  let text := t.setLabel { t.label with kind := .text (String.ofList parts.text), span }
  (if parts.leading = [] then [] else [.space]) ++
    (if parts.text = [] then [] else [.item text]) ++
      (if parts.trailing = [] then [] else [.space])

def cut (src : Source) (t : Doc) : List (Piece Doc) :=
  match t.label.kind with
  | .text value => cutText src t value
  | _ => [.item t]

def markSpaces (leading trailing : Bool) (t : Doc) : Doc :=
  t.setLabel { t.label with notes := { t.label.notes with
    hasLeadingSpaces := some leading, hasTrailingSpaces := some trailing } }

/-- The nodes among the pieces, each marked with the whitespace next to it. The first argument says
whether there was whitespace right before. -/
def settle : Bool → List (Piece Doc) → List Doc
  | _, [] => []
  | _, .space :: ps => settle true ps
  | before, .item t :: ps => markSpaces before (ps.head?.any Piece.isSpace) t :: settle false ps

/-- No children, or a single text of whitespace. -/
def isBlankList : List Doc → Bool
  | [] => true
  | [t] => t.label.kind.text?.any fun value => Text.trim value = ""
  | _ => false

def whitespaceStep (src : Source) (c : Content) (ts : List Doc) : Content × List Doc :=
  if isBlankList ts then
    ({ c with notes := { c.notes with hasDanglingSpaces := some !ts.isEmpty } }, [])
  else
    ( { c with notes := { c.notes with
          isWhitespaceSensitive := some c.keepsWhitespace
          isIndentationSensitive := some c.keepsIndentation } },
      settle false (if c.keepsWhitespace then ts.map .item else ts.flatMap (cut src)) )

def whitespace (src : Source) (d : Doc) : Doc := d.reshape (whitespaceStep src)

end Markup.Reshape
