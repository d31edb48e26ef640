import Markup.Store.Unfold

/-! The line feed behind an opening tag. Some elements ignore it, so it is taken out of their first
text. -/
namespace Markup.Reshape

/-- The text behind a line feed at the front. -/
def afterLinefeed? (value : String) : Option String :=
  match value.toList with
  | '\n' :: rest => some (String.ofList rest)
  | _ => none

/-- Take the line feed out of a text child at the front of a child list. A text of a line feed alone
is dropped. -/
def dropLinefeed (src : Source) : List Doc → List Doc
  | [] => []
  | t :: ts =>
    match t.label.kind.text?.bind afterLinefeed? with
    | none => t :: ts
    | some "" => ts
    | some rest =>
      let span := { t.label.span with start := src.shift t.label.span.start 1 }
      t.setLabel { t.label with kind := .text rest, span } :: ts

def linefeedStep (src : Source) (c : Content) (ts : List Doc) : Content × List Doc :=
  match c.kind with
  | .element e => (c, if e.tag.ignoresFirstLinefeed then dropLinefeed src ts else ts)
  | _ => (c, ts)

def linefeed (src : Source) (d : Doc) : Doc := d.reshape (linefeedStep src)

end Markup.Reshape
