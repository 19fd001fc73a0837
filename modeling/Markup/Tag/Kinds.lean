import Markup.Text.Blank

/-!
# What the names of elements mean

Fixed knowledge about HTML elements, independent of any settings: which have no content, which have
content that is not markup, and which are ended by the start of another element.
-/

namespace Markup.Tag

open Markup.Text

/-- Elements that never have content or an end tag. -/
def voidNames : List String :=
  ["area", "base", "basefont", "br", "col", "embed", "frame", "hr", "img", "input", "keygen",
    "link", "meta", "param", "source", "track", "wbr"]

/-- Elements whose content is raw text up to the matching end tag. -/
def rawTextNames : List String :=
  ["script", "style", "textarea", "title", "xmp"]

/-- Elements whose start ends an open paragraph. -/
def paragraphEnders : List String :=
  ["address", "article", "aside", "blockquote", "details", "div", "dl", "fieldset", "figcaption",
    "figure", "footer", "form", "h1", "h2", "h3", "h4", "h5", "h6", "header", "hr", "main", "menu",
    "nav", "ol", "p", "pre", "section", "table", "ul"]

/-- The elements whose end tag is optional, each with the elements whose start ends it. -/
def optionalEnds : List (String × List String) :=
  [("p", paragraphEnders),
    ("li", ["li"]),
    ("dt", ["dt", "dd"]),
    ("dd", ["dt", "dd"]),
    ("tr", ["tr", "tbody", "thead", "tfoot"]),
    ("td", ["td", "th", "tr", "tbody", "thead", "tfoot"]),
    ("th", ["td", "th", "tr", "tbody", "thead", "tfoot"]),
    ("option", ["option", "optgroup"]),
    ("thead", ["tbody", "tfoot"]),
    ("tbody", ["tbody", "tfoot"])]

def isVoid (name : List Char) : Bool :=
  listed voidNames name

def isRawText (name : List Char) : Bool :=
  listed rawTextNames name

/-- Whether the start of a `next` element ends an open `current` element. -/
def impliesEnd (current next : List Char) : Bool :=
  optionalEnds.any fun (name, enders) => sameName name.toList current && listed enders next

end Markup.Tag
