import Markup.Text.Quoted

/-! What can go wrong when a document is assembled or prepared, and how each cause is reported. -/
namespace Markup

/-- Position of a node in its store. The root has the position 0. Stores are assumed to have fewer
than 2 ^ 32 nodes, so that every position fits into 32 bits. -/
abbrev NodeId := Nat

inductive Error where
  /-- The bytes `start` to `stop` are no part of a text of `size` bytes. -/
  | spanOutOfBounds (start stop size : Nat)
  | notAContainer (parent : NodeId) (kind : String)
  /-- An id that was handed in and is not allocated. -/
  | unknownNode (id : NodeId)
  | alreadyAttached (id : NodeId)
  | unknownOption (option value : String)
  /-- A link or a child list leads to an id that is not allocated. -/
  | missingNode (id : NodeId)
  /-- The child lists below the root run in a circle. -/
  | cyclic
  | outOfRange (index size : Nat)
  /-- A text of this size was cut past its end or inside a character. -/
  | noBoundary (offset size : Nat)
  | underflow (minuend subtrahend : Nat)
deriving DecidableEq, Repr

namespace Error

def showId (id : NodeId) : String := s!"NodeId({id})"

def message : Error → String
  | spanOutOfBounds start stop size =>
    s!"span {start}..{stop} does not fit a source text of {size} bytes"
  | notAContainer parent kind => s!"{kind} node {showId parent} cannot have children"
  | unknownNode id => s!"unknown node {showId id}"
  | alreadyAttached id => s!"node {showId id} is already attached to a parent"
  | unknownOption option value => s!"unknown {option}: {Text.quoted value}"
  | missingNode id => s!"missing node {showId id}"
  | cyclic => "child lists form a cycle"
  | outOfRange index size => s!"index {index} is out of range for size {size}"
  | noBoundary offset size => s!"offset {offset} is no boundary in a text of {size} bytes"
  | underflow minuend subtrahend => s!"{minuend} is smaller than {subtrahend}"

end Error

end Markup
