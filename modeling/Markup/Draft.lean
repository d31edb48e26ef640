import Markup.Source
import Markup.Store.Map
import Markup.Text.Space

/-! Drafts: markup and its document, written side by side. Every step appends markup to the text and
the node for it to the document, so all spans point at the text that their nodes came from. -/
namespace Markup

inductive Step where
  | text (value : String)
  | comment (value : String)
  | cdata (value : String)
  | doctype (value : String)
  | conditionalStart (condition : String)
  | conditionalEnd
  /-- Open an element. A name with a colon begins with a namespace. -/
  | openTag (name : String) (attrs : List Attribute)
  | close
  | closeWith (tag : String)
  | closeImplied
  | void (name : String)
  /-- An element whose one tag both opens and closes it. -/
  | selfClosing (name : String)
deriving DecidableEq, Repr

structure Frame where
  id : NodeId
  children : List NodeId := []
deriving Repr

structure Draft where
  text : String := ""
  store : Store := .new {}
  /-- The children of the root so far. -/
  top : List NodeId := []
  /-- Open elements, innermost first. -/
  frames : List Frame := []
deriving Repr

namespace Draft

def size (d : Draft) : Nat := d.text.utf8ByteSize

def write (d : Draft) (markup : String) : Draft × Span :=
  let next := { d with text := d.text ++ markup }
  (next, ⟨.ofOffset d.size, .ofOffset next.size⟩)

/-- Add a node behind the children of the innermost open element. -/
def push (d : Draft) (c : Content) : Draft × NodeId :=
  let (store, id) := d.store.alloc (.ofContent c)
  match d.frames with
  | [] => ({ d with store, top := d.top ++ [id] }, id)
  | f :: fs => ({ d with store, frames := { f with children := f.children ++ [id] } :: fs }, id)

def leaf (d : Draft) (kind : Kind) (markup : String) : Draft × NodeId :=
  let (d, span) := d.write markup
  d.push { kind, span }

def startTag (name : String) (attrs : List Attribute) (stop : String) : String :=
  let attr (a : Attribute) := " " ++ a.name ++ "=\"" ++ a.value ++ "\""
  "<" ++ name ++ String.join (attrs.map attr) ++ stop

def splitName (name : String) : Option String × String :=
  let front := name.toList.takeWhile (· ≠ ':')
  match name.toList.dropWhile (· ≠ ':') with
  | [] => (none, name)
  | _ :: rest => (some (String.ofList front), String.ofList rest)

def element (name : String) (attrs : List Attribute) (openTag : Span) : Element :=
  let (ns, name) := splitName name
  { name, ns, attrs, openTag }

/-- Open an element. What is appended from here on are its children. -/
def openTag (d : Draft) (name : String) (attrs : List Attribute) : Draft × NodeId :=
  let (d, span) := d.write (startTag name attrs ">")
  let (d, id) := d.push { kind := .element (element name attrs span), span }
  ({ d with frames := { id } :: d.frames }, id)

/-- The content of an element whose only tag stands at `span`. -/
def single (name : String) (isClosed : Bool) (span : Span) : Content :=
  let e := { element name [] span with closeTag := if isClosed then some span else none }
  { kind := .element e, span }

def emptyElement (d : Draft) (name markup : String) (isClosed : Bool) : Draft × NodeId :=
  let (d, span) := d.write markup
  d.push (single name isClosed span)

/-- The content of an element once its end is known. -/
def closeAt (closeTag : Option Span) (stop : Location) (c : Content) : Content :=
  { c with
    span := { c.span with stop }
    kind := match c.kind with
      | .element e => .element { e with closeTag }
      | kind => kind }

/-- Close the innermost open element where the text ends now. -/
def pop (d : Draft) (closeTag : Option Span) : Draft × NodeId :=
  match d.frames with
  | [] => (d, 0)
  | f :: fs =>
    let store := (d.store.relist f.id f.children).adjust f.id fun n =>
      { n with toContent := closeAt closeTag (.ofOffset d.size) n.toContent }
    ({ d with store, frames := fs }, f.id)

/-- The name of the innermost open element; empty outside of all elements. -/
def openName (d : Draft) : String :=
  let innermost := d.frames.head?.bind fun f => d.store.node? f.id
  ((innermost.bind fun n => n.kind.element?).map Element.fullName).getD ""

def closeWith (d : Draft) (tag : String) : Draft × NodeId :=
  let (d, span) := d.write tag
  d.pop (some span)

/-- Take one step; the result also names the node that the step was about. A step that closes an
element where none is open writes its tag and is about the root. -/
def step (d : Draft) : Step → Draft × NodeId
  | .text value => d.leaf (.text value) value
  | .comment value => d.leaf (.comment value) ("<!--" ++ value ++ "-->")
  | .cdata value => d.leaf (.cdata value) ("<![CDATA[" ++ value ++ "]]>")
  | .doctype value => d.leaf (.doctype value) ("<!" ++ value ++ ">")
  | .conditionalStart condition =>
    d.leaf (.conditionalStart condition) ("<!--[if " ++ condition ++ "]><!-->")
  | .conditionalEnd => d.leaf .conditionalEnd "<!--<![endif]-->"
  | .openTag name attrs => d.openTag name attrs
  | .close => d.closeWith ("</" ++ d.openName ++ ">")
  | .closeWith tag => d.closeWith tag
  | .closeImplied => d.pop none
  | .void name => d.emptyElement name (startTag name [] ">") false
  | .selfClosing name => d.emptyElement name (startTag name [] " />") true

def run (d : Draft) (steps : List Step) : Draft := steps.foldl (fun d s => (d.step s).1) d

def closeAll (d : Draft) : Nat → Draft
  | 0 => d
  | n + 1 => closeAll (d.pop none).1 n

/-- Fill in lines and columns from the finished text. -/
def resolve (src : Source) (c : Content) : Content :=
  let full (s : Span) := src.span s.start.offset s.stop.offset
  { c with
    span := full c.span
    kind := match c.kind with
      | .element e =>
        .element { e with openTag := full e.openTag, closeTag := e.closeTag.map full }
      | kind => kind }

/-- The finished text and its store. All elements are closed, the root gets its children, and the
spans of all nodes get their lines and columns. -/
def finish (d : Draft) : String × Store :=
  let d := d.closeAll d.frames.length
  let src := Source.ofString d.text
  let built := d.store.relist 0 d.top
  match built.annotate fun _ n => .ok (resolve src n.toContent) with
  | .ok s => (d.text, s.adjust 0 fun n => { n with span := src.span 0 src.size })
  | .error _ => (d.text, built)

end Draft

end Markup
