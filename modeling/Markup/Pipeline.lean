import Markup.Annotate.Boundary
import Markup.Annotate.Closing
import Markup.Annotate.Display
import Markup.Rewrite.Cdata
import Markup.Rewrite.Conditional
import Markup.Rewrite.Interpolation
import Markup.Rewrite.Linefeed
import Markup.Rewrite.SimpleElement
import Markup.Rewrite.Whitespace

/-! The passes that prepare a document for printing, and the order in which they run. Later passes
read what earlier ones have found out. -/
namespace Markup

inductive Pass where
  | linefeed
  | conditional
  | cdata
  | interpolation
  | whitespace
  | display
  | selfClosing
  | componentClosing
  | boundary
  | simpleElement
deriving DecidableEq, Repr

namespace Pass

def name : Pass → String
  | linefeed => "strip-leading-lf"
  | conditional => "fold-ie-conditionals"
  | cdata => "fold-cdata"
  | interpolation => "extract-interpolation"
  | whitespace => "extract-whitespace"
  | display => "css-display"
  | selfClosing => "self-closing"
  | componentClosing => "component-closing-tag"
  | boundary => "space-sensitivity"
  | simpleElement => "fold-simple-elements"

def all : List Pass :=
  [linefeed, conditional, cdata, interpolation, whitespace, display, selfClosing, componentClosing,
   boundary, simpleElement]

def ofName? (s : String) : Option Pass := all.find? fun p => p.name == s

@[simp] theorem ofName?_name (p : Pass) : ofName? p.name = some p := by cases p <;> decide

/-- Run a pass and list what it reports. -/
def exec (o : Options) (s : Store) : Pass → Except Error (List Event × Store)
  | linefeed => s.rewriteChildren (Rewrite.linefeed o.source)
  | conditional => s.rewriteChildren Rewrite.conditional
  | cdata => s.rewriteChildren Rewrite.cdata
  | interpolation =>
    if o.dialect.hasInterpolation then s.rewriteChildren (Rewrite.interpolation o.source)
    else .ok ([], s)
  | whitespace => s.rewriteChildren (Rewrite.whitespace o.source)
  | display => (Annotate.display o s).map fun out => ([], out)
  | selfClosing => (Annotate.selfClosing s).map fun out => ([], out)
  | componentClosing => (Annotate.componentClosing o.source s).map fun out => ([], out)
  | boundary => (Annotate.boundary s).map fun out => ([], out)
  | simpleElement => s.rewriteChildren Rewrite.simpleElement

def run (o : Options) (s : Store) (p : Pass) : Except Error Store := (p.exec o s).map (·.2)

def events (o : Options) (s : Store) (p : Pass) : Except Error (List Event) :=
  (p.exec o s).map (·.1)

def runAll (o : Options) (s : Store) (ps : List Pass) : Except Error Store :=
  ps.foldlM (fun s p => p.run o s) s

def log (o : Options) : Store → List Pass → Except Error (List Event)
  | _, [] => .ok []
  | s, p :: ps => do
    let (events, next) ← p.exec o s
    let before := (← s.dfs).length
    let after := (← next.dfs).length
    return events ++ .ran p.name before after :: (← log o next ps)

end Pass

/-- Prepare the document of a store for printing. It fails if a span does not fit the source. -/
def prepare (o : Options) (s : Store) : Except Error Store := do
  s.checkSpans o.source
  Pass.runAll o s Pass.all

def prepareLog (o : Options) (s : Store) : Except Error (List Event) := do
  s.checkSpans o.source
  Pass.log o s Pass.all

end Markup
