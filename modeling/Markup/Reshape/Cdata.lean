import Markup.Store.Unfold

/-! Character data sections as text. A section becomes the text that it is written as, and in a list
with a section neighbouring texts are joined. -/
namespace Markup.Reshape

def isCdata (t : Doc) : Bool :=
  match t.label.kind with
  | .cdata _ => true
  | _ => false

/-- A section as text, with its delimiters. Other nodes stay as they are. -/
def literal (t : Doc) : Doc :=
  match t.label.kind with
  | .cdata value => .leaf { t.label with kind := .text ("<![CDATA[" ++ value ++ "]]>") }
  | _ => t

/-- Put a node in front of a list, joined with the first one if both are text. The joined text spans
both and keeps the annotations of the one in front. -/
def joinText (t : Doc) (ts : List Doc) : List Doc :=
  match t.label.kind, ts with
  | .text value, u :: us =>
    match u.label.kind with
    | .text more =>
      let span := { t.label.span with stop := u.label.span.stop }
      t.setLabel { t.label with kind := .text (value ++ more), span } :: us
    | _ => t :: ts
  | _, _ => t :: ts

def coalesce (ts : List Doc) : List Doc := ts.foldr joinText []

def cdataStep (c : Content) (ts : List Doc) : Content × List Doc :=
  (c, if ts.any isCdata then coalesce (ts.map literal) else ts)

def cdata (d : Doc) : Doc := d.reshape cdataStep

end Markup.Reshape
