import Markup.Store.Unfold

/-! Elements between conditional comments. A start comment that touches the opening tag from
outside and an end comment that touches it from inside are taken into the element. -/
namespace Markup.Reshape

/-- A pair of comments around an opening tag. -/
structure Guard where
  condition : String
  start : Location
  stop : Location
deriving DecidableEq, Repr

/-- The guard that a node forms with the element behind it. -/
def guard? (before element : Doc) : Option Guard :=
  match before.label.kind, element.label.kind, element.children with
  | .conditionalStart condition, .element e, first :: _ =>
    if before.label.span.stop.offset = e.openTag.start.offset ∧
        first.label.kind = .conditionalEnd ∧
        first.label.span.start.offset = e.openTag.stop.offset then
      some ⟨condition, before.label.span.start, first.label.span.stop⟩
    else none
  | _, _, _ => none

def Guard.take (g : Guard) (c : Content) : Content :=
  match c.kind with
  | .element e =>
    { c with
      kind := .element { e with openTag := ⟨g.start, g.stop⟩, condition := some g.condition }
      span := { c.span with start := g.start } }
  | _ => { c with span := { c.span with start := g.start } }

/-- Take a guard into its element, without the end comment. -/
def Guard.fold (g : Guard) : Doc → Doc
  | .leaf c => .leaf (g.take c)
  | .node c ts => .node (g.take c) ts.tail

def foldGuards : List Doc → List Doc
  | [] => []
  | [t] => [t]
  | t :: u :: ts =>
    match guard? t u with
    | some g => g.fold u :: foldGuards ts
    | none => t :: foldGuards (u :: ts)

def guards : List Doc → List Guard
  | [] => []
  | [_] => []
  | t :: u :: ts =>
    match guard? t u with
    | some g => g :: guards ts
    | none => guards (u :: ts)

def conditionalStep (c : Content) (ts : List Doc) : Content × List Doc := (c, foldGuards ts)

def conditional (d : Doc) : Doc := d.reshape conditionalStep

def foldedGuards (d : Doc) : List Guard := d.collect conditionalStep fun _ ts => guards ts

end Markup.Reshape
