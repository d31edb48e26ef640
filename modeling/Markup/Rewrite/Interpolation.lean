import Markup.Checked
import Markup.Reshape.Interpolation
import Markup.Store.Rewrite

/-! Splitting expressions out of texts, in place. Braces are searched for in the bytes of a text,
and the text is cut at the offsets that are found. -/
namespace Markup.Rewrite

open Reshape (Segment Match)

def openBraces : List UInt8 := [0x7b, 0x7b]

def closeBraces : List UInt8 := [0x7d, 0x7d]

def firstExpression (cs : List Char) : Except Error (Option Match) := do
  match Text.find? openBraces (Text.bytes cs) with
  | none => return none
  | some start =>
    let (_, body) ← Checked.cut cs (start + openBraces.length)
    match body with
    | [] => return none
    | c :: _ =>
      match Text.find? closeBraces (← Checked.from_ (Text.bytes body) c.utf8Size) with
      | none => return none
      | some stop =>
        let stop := stop + c.utf8Size
        let (text, _) ← Checked.cut cs start
        let (expression, _) ← Checked.cut body stop
        let (_, rest) ← Checked.cut body (stop + closeBraces.length)
        return some { text, expression, rest }

theorem length_rest_lt {cs : List Char} {m : Match} (h : firstExpression cs = .ok (some m)) :
    m.rest.length < cs.length := by
  rw [firstExpression] at h
  split at h
  case h_1 => cases h
  case h_2 start hstart =>
    obtain ⟨⟨front, body⟩, hfront, h⟩ := Checked.bind_eq_ok.mp h
    obtain ⟨rfl, hlength⟩ := Checked.cut_eq_ok_iff.mp hfront
    cases body with
    | nil => cases h
    | cons c body =>
      obtain ⟨bs, hbs, h⟩ := Checked.bind_eq_ok.mp h
      split at h
      case h_1 => cases h
      case h_2 stop hstop =>
        obtain ⟨text, htext, h⟩ := Checked.bind_eq_ok.mp h
        obtain ⟨expression, hexpression, h⟩ := Checked.bind_eq_ok.mp h
        obtain ⟨⟨before, rest⟩, hrest, h⟩ := Checked.bind_eq_ok.mp h
        cases h
        have hbody := congrArg List.length (Checked.cut_eq_ok_iff.mp hrest).1
        have hpos : front ≠ [] := by
          rintro rfl
          simp [openBraces] at hlength
        have := List.length_pos_iff.mpr hpos
        change rest.length < (front ++ c :: body).length
        rw [List.length_append] at hbody ⊢
        omega

def split (cs : List Char) : Except Error (List Segment) :=
  match _h : firstExpression cs with
  | .error e => .error e
  | .ok none => .ok [.text cs]
  | .ok (some m) =>
    (split m.rest).map fun segments => .text m.text :: .expression m.expression :: segments
termination_by cs.length
decreasing_by exact length_rest_lt _h

/-- The nodes for the segments of the text `id` from `cursor` on. Empty stretches of text make
none. -/
def piecesFrom (src : Source) (id : NodeId) : Location → List Segment → Store →
    Except Error (Store × List Event × List NodeId)
  | _, [], out => .ok (out, [], [])
  | cursor, .text cs :: rest, out => do
    let stop ← src.moved cursor (Text.byteLength cs)
    if cs = [] then piecesFrom src id stop rest out
    else
      let (out, copy) ← out.copyWith id fun n =>
        { n with kind := .text (String.ofList cs), span := ⟨cursor, stop⟩ }
      let (out, events, pieces) ← piecesFrom src id stop rest out
      return (out, events, copy :: pieces)
  | cursor, .expression cs :: rest, out => do
    let stop ← src.moved cursor (Text.byteLength cs + 4)
    let inner : Span := ⟨← src.moved cursor 2, ← src.moved stop (-2)⟩
    let (out, text) :=
      out.alloc (.ofContent { kind := .text (String.ofList cs), span := inner })
    let (out, expression) :=
      out.alloc (.ofContent { kind := .interpolation, span := ⟨cursor, stop⟩ })
    let out ← out.setChildren expression [text]
    let (out, events, pieces) ← piecesFrom src id stop rest out
    return (out, .foundExpression (String.ofList cs) cursor.offset :: events, expression :: pieces)

/-- The nodes that take the place of a child; absent if it stays as it is. -/
def splitChild (src : Source) (out : Store) (id : NodeId) :
    Except Error (Store × List Event × Option (List NodeId)) := do
  let n ← out.node id
  match n.kind with
  | .text value =>
    if (Text.find? openBraces (Text.bytes value.toList)).isNone then return (out, [], none)
    match ← split value.toList with
    | [_] => return (out, [], none)
    | segments =>
      let (out, events, pieces) ← piecesFrom src id n.span.start segments out
      return (out, events, some pieces)
  | _ => return (out, [], none)

/-- Go through a child list. The result says whether any child was split. -/
def splitAll (src : Source) : List NodeId → Store →
    Except Error (Store × List Event × Bool × List NodeId)
  | [], out => .ok (out, [], false, [])
  | id :: ids, out => do
    let (out, front, pieces?) ← splitChild src out id
    let (out, events, changed, rest) ← splitAll src ids out
    return (out, front ++ events, pieces?.isSome || changed, pieces?.getD [id] ++ rest)

def interpolation (src : Source) : Store.Editor := fun out id => do
  let n ← out.node id
  if n.toContent.isScriptLike then return (out, [], none)
  let (out, events, changed, ids) ← splitAll src (← out.children id) out
  return (out, events, if changed then some ids else none)

end Markup.Rewrite
