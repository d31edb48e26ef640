import Markup.Reshape.Linefeed
import Markup.Store.Rewrite

/-! Taking out the line feed behind an opening tag, in place. -/
namespace Markup.Rewrite

/-- Take the line feed out of the text `first` at the front of the child list of `id`. -/
def dropLinefeed (src : Source) (out : Store) (id first : NodeId) :
    Except Error (Store × List Event × Option (List NodeId)) := do
  let t ← out.node first
  match t.kind.text?.bind Reshape.afterLinefeed? with
  | none => return (out, [], none)
  | some rest =>
    if rest = "" then return (out, [], some (← Checked.from_ (← out.children id) 1))
    let start ← src.moved t.span.start 1
    return (← out.edit first (.setText rest { t.span with start }), [], none)

def linefeed (src : Source) : Store.Editor := fun out id => do
  let n ← out.node id
  match n.kind with
  | .element e =>
    if e.tag.ignoresFirstLinefeed then
      match ← out.firstChild? id with
      | none => return (out, [], none)
      | some first => dropLinefeed src out id first
    else return (out, [], none)
  | _ => return (out, [], none)

end Markup.Rewrite
