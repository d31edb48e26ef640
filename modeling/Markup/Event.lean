/-! Reports of what passes do. -/
namespace Markup

inductive Event where
  | foldedConditional (condition : String) (offset : Nat)
  | foundExpression (expression : String) (offset : Nat)
  | foldedElement (markup : String)
  /-- A pass has run; the counts are those of the nodes below the root. -/
  | ran (pass : String) (before after : Nat)
deriving DecidableEq, Repr

namespace Event

inductive Level where
  | debug
  | trace
deriving DecidableEq, Repr

def level : Event → Level
  | ran _ _ _ => .debug
  | _ => .trace

def message : Event → String
  | foldedConditional condition offset =>
    s!"fold conditional comment [if {condition}] at {offset}"
  | foundExpression expression offset =>
    s!"interpolation \x7b\x7b{expression}\x7d\x7d at {offset}"
  | foldedElement markup => s!"fold simple element {markup}"
  | ran pass before after => s!"{pass}: {before} -> {after} nodes"

end Event

end Markup
