import Markup.Checked
import Markup.Reshape.Whitespace
import Markup.Store.Rewrite

/-! Cutting whitespace off the ends of texts, in place. -/
namespace Markup.Rewrite

open Reshape (Piece)

/-- Cut off the whitespace at both ends, at the byte lengths of what trimming leaves. -/
def cutMargins (cs : List Char) : Except Error Text.Trimmed := do
  let start ← Checked.sub (Text.byteLength cs) (Text.byteLength (cs.dropWhile Text.isSpace))
  let (leading, rest) ← Checked.cut cs start
  let text := (Text.splitEnd Text.isSpace rest).1
  let (_, trailing) ← Checked.cut rest (Text.byteLength text)
  return { leading, text, trailing }

/-- The mark of some whitespace; none if it is empty. -/
def gap {α : Type} (cs : List Char) : List (Piece α) := if cs = [] then [] else [.space]

/-- Cut the whitespace off one child, unless it is no text or whitespace is kept. -/
def trimChild (src : Source) (keeps : Bool) (out : Store) (id : NodeId) :
    Except Error (Store × List (Piece NodeId)) := do
  let n ← out.node id
  match n.kind, keeps with
  | .text value, false =>
    let parts ← cutMargins value.toList
    if parts.text = [] then return (out, gap parts.leading ++ gap parts.trailing)
    let span : Span :=
      ⟨← src.moved n.span.start (Text.byteLength parts.leading),
        ← src.moved n.span.stop (-(Text.byteLength parts.trailing : Int))⟩
    let out ← out.edit id (.setText (String.ofList parts.text) span)
    return (out, gap parts.leading ++ [.item id] ++ gap parts.trailing)
  | _, _ => return (out, [.item id])

def trimAll (src : Source) (keeps : Bool) :
    List NodeId → Store → Except Error (Store × List (Piece NodeId))
  | [], out => .ok (out, [])
  | id :: ids, out => do
    let (out, front) ← trimChild src keeps out id
    let (out, rest) ← trimAll src keeps ids out
    return (out, front ++ rest)

def isSpaceBefore (pieces : List (Piece NodeId)) (i : Nat) : Except Error Bool :=
  if 0 < i then do
    let p ← Checked.get pieces (← Checked.sub i 1)
    return p.isSpace
  else .ok false

/-- Mark the nodes among the pieces from index `i` on with the whitespace next to them. -/
def markFrom (pieces : List (Piece NodeId)) :
    Nat → List (Piece NodeId) → Store → Except Error (Store × List NodeId)
  | _, [], out => .ok (out, [])
  | i, .space :: rest, out => markFrom pieces (i + 1) rest out
  | i, .item id :: rest, out => do
    let leading ← isSpaceBefore pieces i
    let trailing := (pieces[i + 1]?).any Piece.isSpace
    let out ← out.edit id (.setSpaces leading trailing)
    let (out, kept) ← markFrom pieces (i + 1) rest out
    return (out, id :: kept)

def isBlank (out : Store) : List NodeId → Except Error Bool
  | [] => .ok true
  | [only] => (out.node only).map fun n => n.kind.text?.any fun value => Text.trim value = ""
  | _ => .ok false

def whitespace (src : Source) : Store.Editor := fun out id => do
  let ids ← out.children id
  if ← isBlank out ids then
    let out ← out.edit id fun c =>
      { c with notes := { c.notes with hasDanglingSpaces := some !ids.isEmpty } }
    return (out, [], some [])
  let n ← out.node id
  let indents := n.toContent.keepsIndentation
  let keeps := indents || n.toContent.isScriptLike
  let (out, pieces) ← trimAll src keeps ids out
  let (out, kept) ← markFrom pieces 0 pieces out
  let out ← out.edit id fun c => { c with notes := { c.notes with
    isWhitespaceSensitive := some keeps, isIndentationSensitive := some indents } }
  return (out, [], some kept)

end Markup.Rewrite
