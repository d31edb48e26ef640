/-! The keywords of the `display` property, and which whitespace a box with each of them keeps. -/
namespace Markup.Css

inductive Display where
  | inline
  | block
  | inlineBlock
  | listItem
  | none
  | table
  | inlineTable
  | tableCaption
  | tableColumnGroup
  | tableColumn
  | tableHeaderGroup
  | tableRowGroup
  | tableFooterGroup
  | tableRow
  | tableCell
  | flex
  | inlineFlex
  | grid
  | inlineGrid
  | flowRoot
  | contents
  | ruby
  | rubyBase
  | rubyText
  | rubyBaseContainer
  | rubyTextContainer
deriving DecidableEq, Repr

namespace Display

instance : Inhabited Display := ⟨inline⟩

def keyword : Display → String
  | inline => "inline"
  | block => "block"
  | inlineBlock => "inline-block"
  | listItem => "list-item"
  | none => "none"
  | table => "table"
  | inlineTable => "inline-table"
  | tableCaption => "table-caption"
  | tableColumnGroup => "table-column-group"
  | tableColumn => "table-column"
  | tableHeaderGroup => "table-header-group"
  | tableRowGroup => "table-row-group"
  | tableFooterGroup => "table-footer-group"
  | tableRow => "table-row"
  | tableCell => "table-cell"
  | flex => "flex"
  | inlineFlex => "inline-flex"
  | grid => "grid"
  | inlineGrid => "inline-grid"
  | flowRoot => "flow-root"
  | contents => "contents"
  | ruby => "ruby"
  | rubyBase => "ruby-base"
  | rubyText => "ruby-text"
  | rubyBaseContainer => "ruby-base-container"
  | rubyTextContainer => "ruby-text-container"

def all : List Display :=
  [inline, block, inlineBlock, listItem, none, table, inlineTable, tableCaption, tableColumnGroup,
   tableColumn, tableHeaderGroup, tableRowGroup, tableFooterGroup, tableRow, tableCell, flex,
   inlineFlex, grid, inlineGrid, flowRoot, contents, ruby, rubyBase, rubyText, rubyBaseContainer,
   rubyTextContainer]

theorem mem_all (d : Display) : d ∈ all := by cases d <;> simp [all]

/-- The display with this keyword, in exactly this spelling. -/
def ofKeyword? (s : String) : Option Display := all.find? fun d => d.keyword == s

@[simp] theorem ofKeyword?_keyword (d : Display) : ofKeyword? d.keyword = some d := by
  cases d <;> decide

theorem keyword_of_ofKeyword? {s : String} {d : Display} (h : ofKeyword? s = some d) :
    d.keyword = s := by
  simpa using List.find?_some h

/-- Boxes that start a new line: blocks, list items and all parts of a table. Flex and grid boxes
do not count: the whitespace around them is kept. -/
def isBlockLike : Display → Bool
  | block | listItem | table | tableCaption | tableColumnGroup | tableColumn | tableHeaderGroup
  | tableRowGroup | tableFooterGroup | tableRow | tableCell => true
  | _ => false

/-- Whitespace before the first child of such a box shows. -/
def keepsFirstChildLeading (d : Display) : Bool := !d.isBlockLike && d != inlineBlock

def keepsLastChildTrailing (d : Display) : Bool := !d.isBlockLike && d != inlineBlock

def keepsPrevTrailing (d : Display) : Bool := !d.isBlockLike

def keepsNextLeading (d : Display) : Bool := !d.isBlockLike

def keepsDangling (d : Display) : Bool := !d.isBlockLike && d != inlineBlock

end Display

end Markup.Css
