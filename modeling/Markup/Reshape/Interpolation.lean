import Markup.Spacing
import Markup.Store.Unfold

/-! Expressions in double braces. An expression runs from two opening braces to the first two
closing ones behind at least one character; braces that are not closed are text. -/
namespace Markup.Reshape

inductive Segment where
  | text (cs : List Char)
  | expression (cs : List Char)
deriving DecidableEq, Repr

/-- What stands before and behind the first place where `x` comes twice in a row. -/
def breakPair (x : Char) : List Char → Option (List Char × List Char)
  | [] => none
  | [_] => none
  | a :: b :: cs =>
    if a = x ∧ b = x then some ([], cs)
    else (breakPair x (b :: cs)).map fun p => (a :: p.1, p.2)

theorem breakPair_some_spec {x : Char} {cs before after : List Char}
    (h : breakPair x cs = some (before, after)) : cs = before ++ x :: x :: after := by
  fun_induction breakPair x cs generalizing before with
  | case1 => simp at h
  | case2 => simp at h
  | case3 a b cs hab => simp_all
  | case4 a b cs hab ih =>
    obtain ⟨p, hp, he⟩ := Option.map_eq_some_iff.mp h
    obtain ⟨rfl, rfl⟩ := Prod.mk.inj he
    rw [ih hp, List.cons_append]

/-- A text cut at its first expression: what stands before it, the expression, what
stands behind. -/
structure Match where
  text : List Char
  expression : List Char
  rest : List Char
deriving DecidableEq, Repr

def match? (cs : List Char) : Option Match :=
  match breakPair '\x7b' cs with
  | none => none
  | some (_, []) => none
  | some (text, c :: body) =>
    (breakPair '\x7d' body).map fun p => ⟨text, c :: p.1, p.2⟩

theorem match?_some_spec {cs : List Char} {m : Match} (h : match? cs = some m) :
    cs = m.text ++ '\x7b' :: '\x7b' :: m.expression ++ '\x7d' :: '\x7d' :: m.rest := by
  rw [match?] at h
  split at h
  case h_1 => simp at h
  case h_2 => simp at h
  case h_3 text c body hopen =>
    obtain ⟨⟨e, r⟩, hclose, rfl⟩ := Option.map_eq_some_iff.mp h
    rw [breakPair_some_spec hopen, breakPair_some_spec hclose]
    simp

/-- Cut a text into stretches of text and the expressions between them. -/
def segments (cs : List Char) : List Segment :=
  match _hm : match? cs with
  | none => [.text cs]
  | some m => .text m.text :: .expression m.expression :: segments m.rest
termination_by cs.length
decreasing_by
  rw [match?_some_spec _hm]
  simp only [List.length_append, List.length_cons]
  omega

/-- What is left of a node whose content has gone elsewhere. -/
def husk (t : Doc) : Doc := .leaf { t.label with kind := .root }

/-- A stretch of the text node `t`. The first stretch takes over what hangs below `t`. -/
def textPiece (t : Doc) (isFirst : Bool) (cs : List Char) (span : Span) : Doc :=
  let label := { t.label with kind := .text (String.ofList cs), span }
  match t with
  | .leaf _ => .leaf label
  | .node _ ts => .node label (if isFirst then ts else ts.map husk)

/-- An expression between two locations, with its text inside the braces. -/
def expressionPiece (src : Source) (cs : List Char) (span : Span) : Doc :=
  let inner := ⟨src.shift span.start 2, src.shift span.stop (-2)⟩
  .node { kind := .interpolation, span } [.leaf { kind := .text (String.ofList cs), span := inner }]

/-- The nodes for the segments of `t` from `cursor` on. Empty stretches of text make none. -/
def pieces (src : Source) (t : Doc) : Bool → Location → List Segment → List Doc
  | _, _, [] => []
  | isFirst, cursor, .text cs :: rest =>
    let stop := src.shift cursor (Text.byteLength cs)
    if cs = [] then pieces src t isFirst stop rest
    else textPiece t isFirst cs ⟨cursor, stop⟩ :: pieces src t false stop rest
  | isFirst, cursor, .expression cs :: rest =>
    let stop := src.shift cursor (Text.byteLength cs + 4)
    expressionPiece src cs ⟨cursor, stop⟩ :: pieces src t isFirst stop rest

/-- The nodes that take the place of a child: itself unless it is a text with expressions. -/
def splitText (src : Source) (t : Doc) : List Doc :=
  match t.label.kind with
  | .text value =>
    match segments value.toList with
    | [_] => [t]
    | segs => pieces src t true t.label.span.start segs
  | _ => [t]

def interpolationStep (src : Source) (c : Content) (ts : List Doc) : Content × List Doc :=
  (c, if c.isScriptLike then ts else ts.flatMap (splitText src))

def interpolation (src : Source) (d : Doc) : Doc := d.reshape (interpolationStep src)

def expressionsFrom (src : Source) : Location → List Segment → List (String × Nat)
  | _, [] => []
  | cursor, .text cs :: rest => expressionsFrom src (src.shift cursor (Text.byteLength cs)) rest
  | cursor, .expression cs :: rest =>
    (String.ofList cs, cursor.offset) ::
      expressionsFrom src (src.shift cursor (Text.byteLength cs + 4)) rest

def expressions (src : Source) (t : Doc) : List (String × Nat) :=
  match t.label.kind with
  | .text value => expressionsFrom src t.label.span.start (segments value.toList)
  | _ => []

def foundExpressions (src : Source) (d : Doc) : List (String × Nat) :=
  d.collect (interpolationStep src) fun c ts =>
    if c.isScriptLike then [] else ts.flatMap (expressions src)

end Markup.Reshape
