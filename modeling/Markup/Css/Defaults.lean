import Markup.Css.Display
import Markup.Css.WhiteSpace
import Markup.Text.Space

/-! What elements look like without a style sheet: `display` and `white-space` by tag name. Names
are compared without regard to letter case. -/
namespace Markup.Css

namespace Display

/-- Elements by their display. Elements that are not shown as boxes but read like blocks stand with
the blocks; form controls and media, which are sized like inline blocks, with those. -/
def defaults : List (Display × List String) :=
  [ (none, ["area", "base", "basefont", "datalist", "head", "link", "meta", "noembed", "noframes",
      "rp", "style", "title"]),
    (block, ["html", "body", "address", "blockquote", "center", "div", "figure", "figcaption",
      "footer", "form", "header", "hr", "legend", "listing", "main", "p", "plaintext", "pre", "xmp",
      "article", "aside", "h1", "h2", "h3", "h4", "h5", "h6", "hgroup", "nav", "section", "dir",
      "dd", "dl", "dt", "menu", "ol", "ul", "fieldset", "frameset", "frame", "search", "source",
      "track", "script", "param", "details", "summary", "dialog", "option", "optgroup"]),
    (listItem, ["li"]),
    (table, ["table"]),
    (tableCaption, ["caption"]),
    (tableColumnGroup, ["colgroup"]),
    (tableColumn, ["col"]),
    (tableHeaderGroup, ["thead"]),
    (tableRowGroup, ["tbody"]),
    (tableFooterGroup, ["tfoot"]),
    (tableRow, ["tr"]),
    (tableCell, ["td", "th"]),
    (inlineBlock, ["input", "button", "select", "video", "audio", "meter", "progress", "object"]),
    (inline, ["template"]) ]

def ofTag? (name : String) : Option Display :=
  (defaults.find? fun entry => entry.2.contains (Text.lower name)).map (·.1)

end Display

namespace WhiteSpace

def defaults : List (WhiteSpace × List String) :=
  [ (pre, ["pre", "listing", "xmp"]),
    (preWrap, ["textarea", "plaintext"]),
    (nowrap, ["nobr"]) ]

def ofTag (name : String) : WhiteSpace :=
  ((defaults.find? fun entry => entry.2.contains (Text.lower name)).map (·.1)).getD normal

end WhiteSpace

end Markup.Css
