import Markup.Content

/-! Node contents as text, for reports on differing documents. Records are written with their name
and their fields in braces. -/
namespace Markup.Describe

def commaSeparated (xs : List String) : String := String.intercalate ", " xs

def record (name : String) (fields : List (String × String)) : String :=
  name ++ " \x7b " ++ commaSeparated (fields.map fun f => f.1 ++ ": " ++ f.2) ++ " \x7d"

def wrapped (name value : String) : String := name ++ "(" ++ value ++ ")"

def list (xs : List String) : String := "[" ++ commaSeparated xs ++ "]"

def option {α : Type} (f : α → String) : Option α → String
  | none => "None"
  | some a => wrapped "Some" (f a)

def bool : Bool → String
  | true => "true"
  | false => "false"

def location (l : Location) : String :=
  record "SourceLocation"
    [("offset", toString l.offset), ("line", toString l.line), ("col", toString l.col)]

def span (s : Span) : String :=
  record "SourceSpan" [("start", location s.start), ("end", location s.stop)]

def display : Css.Display → String
  | .inline => "Inline"
  | .block => "Block"
  | .inlineBlock => "InlineBlock"
  | .listItem => "ListItem"
  | .none => "None"
  | .table => "Table"
  | .inlineTable => "InlineTable"
  | .tableCaption => "TableCaption"
  | .tableColumnGroup => "TableColumnGroup"
  | .tableColumn => "TableColumn"
  | .tableHeaderGroup => "TableHeaderGroup"
  | .tableRowGroup => "TableRowGroup"
  | .tableFooterGroup => "TableFooterGroup"
  | .tableRow => "TableRow"
  | .tableCell => "TableCell"
  | .flex => "Flex"
  | .inlineFlex => "InlineFlex"
  | .grid => "Grid"
  | .inlineGrid => "InlineGrid"
  | .flowRoot => "FlowRoot"
  | .contents => "Contents"
  | .ruby => "Ruby"
  | .rubyBase => "RubyBase"
  | .rubyText => "RubyText"
  | .rubyBaseContainer => "RubyBaseContainer"
  | .rubyTextContainer => "RubyTextContainer"

def attr (a : Attribute) : String :=
  record "Attribute" [("name", Text.quoted a.name), ("value", Text.quoted a.value)]

def tag (t : TagTraits) : String :=
  record "TagDefinition"
    [("is_void", bool t.isVoid), ("ignore_first_lf", bool t.ignoresFirstLinefeed)]

def element (e : Element) : String :=
  record "Element"
    [ ("name", Text.quoted e.name),
      ("namespace", option Text.quoted e.ns),
      ("attrs", list (e.attrs.map attr)),
      ("tag", tag e.tag),
      ("start_span", span e.openTag),
      ("end_span", option span e.closeTag),
      ("condition", option Text.quoted e.condition),
      ("has_component_closing_tag", option bool e.hasComponentClosing) ]

def kind : Kind → String
  | .root => "Root"
  | .element e => wrapped "Element" (element e)
  | .text value => record "Text" [("value", Text.quoted value)]
  | .comment value => record "Comment" [("value", Text.quoted value)]
  | .cdata value => record "Cdata" [("value", Text.quoted value)]
  | .interpolation => "Interpolation"
  | .doctype value => record "Doctype" [("value", Text.quoted value)]
  | .conditionalStart condition =>
    record "IeConditionalStartComment" [("condition", Text.quoted condition)]
  | .conditionalEnd => "IeConditionalEndComment"

def annotations (a : Annotations) : String :=
  record "Annotations"
    [ ("css_display", option display a.display),
      ("has_leading_spaces", option bool a.hasLeadingSpaces),
      ("has_trailing_spaces", option bool a.hasTrailingSpaces),
      ("has_dangling_spaces", option bool a.hasDanglingSpaces),
      ("is_leading_space_sensitive", option bool a.isLeadingSensitive),
      ("is_trailing_space_sensitive", option bool a.isTrailingSensitive),
      ("is_dangling_space_sensitive", option bool a.isDanglingSensitive),
      ("is_whitespace_sensitive", option bool a.isWhitespaceSensitive),
      ("is_indentation_sensitive", option bool a.isIndentationSensitive),
      ("is_self_closing", option bool a.isSelfClosing) ]

/-- A node on one line: its kind, its offsets, its number of children and its annotations. -/
def node (c : Content) (arity : Option Nat) : String :=
  let count := match arity with
    | some n => toString n
    | none => "-"
  kind c.kind ++ " @" ++ toString c.span.start.offset ++ ".." ++ toString c.span.stop.offset ++
    " children=" ++ count ++ " " ++ annotations c.notes

end Markup.Describe
