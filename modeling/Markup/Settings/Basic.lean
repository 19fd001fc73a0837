import Markup.Text.Blank
import Markup.Text.Quoted
import Markup.Tag.Basic

/-!
# Settings

Every option of a formatting pass, with its default, and which settings are accepted. Names of
elements are matched in any case.
-/

namespace Markup

open Markup.Text

/-- When attributes or words are put on lines of their own. -/
inductive WrapMode where
  | never
  | always
  | asNeeded
  deriving DecidableEq, Repr, Inhabited

/-- The quotes that attribute values are to have. -/
inductive QuoteStyle where
  | single
  | double
  | asIs
  deriving DecidableEq, Repr, Inhabited

/-- The quote that a style asks for, if it asks for one. -/
def QuoteStyle.quote? : QuoteStyle → Option Quote
  | single => some .single
  | double => some .double
  | asIs => none

/-- The options of a formatting pass. -/
structure Settings where
  rightMargin : Nat := 120
  indentSize : Nat := 4
  continuationIndentSize : Nat := 8
  /-- How many blank lines between items are kept at most. -/
  keepBlankLines : Nat := 2
  keepLineBreaks : Bool := true
  keepLineBreaksInText : Bool := true
  keepWhitespaces : Bool := false
  alignAttributes : Bool := true
  alignText : Bool := false
  attributeWrap : WrapMode := .asNeeded
  textWrap : WrapMode := .asNeeded
  quoteStyle : QuoteStyle := .double
  enforceQuotes : Bool := false
  /-- From this height in lines on, the children of an element are not indented. Zero sets no
  limit. -/
  heightLimit : Nat := 0
  doNotIndentChildrenOf : List String := ["html", "body", "thead", "tbody", "tfoot"]
  inlineElements : List String :=
    ["a", "abbr", "acronym", "b", "basefont", "bdo", "big", "br", "cite", "code", "dfn", "em",
      "font", "i", "img", "input", "kbd", "label", "q", "s", "samp", "select", "small", "span",
      "strike", "strong", "sub", "sup", "textarea", "tt", "u", "var"]
  keepWhitespacesInside : List String := ["span", "pre", "textarea"]
  spaceInsideEmptyTag : Bool := false
  deriving DecidableEq, Repr, Inhabited

/-- The widest indent that is accepted, in columns. -/
def maximumIndent : Nat := 1000

/-- Why settings are refused. An option is named as in a settings file. -/
inductive SettingsError where
  | zeroMargin
  | indentTooWide (option : String) (width : Nat)
  | invalidTagName (option : String) (name : String)
  | unreadable (details : String)
  deriving DecidableEq, Repr, Inhabited

namespace SettingsError

def message : SettingsError → String
  | zeroMargin => "right margin must be at least one column"
  | indentTooWide option width =>
      s!"{option} of {width} columns is wider than {maximumIndent}"
  | invalidTagName option name => s!"invalid tag name {quoted name} in {option}"
  | unreadable details => s!"unable to read settings: {details}"

end SettingsError

namespace Settings

/-- Tag names are ASCII letters and digits and a few marks, and begin with a letter. -/
def isValidTagName (name : String) : Bool :=
  match name.toList with
  | [] => false
  | c :: rest =>
      c.isAlpha && rest.all fun d =>
        d.isAlphanum || d == '-' || d == '_' || d == ':' || d == '.'

/-- The options that are indents, under their names. -/
def indents (settings : Settings) : List (String × Nat) :=
  [("indent-size", settings.indentSize),
    ("continuation-indent-size", settings.continuationIndentSize)]

/-- The options that list names of elements, under their names. -/
def nameLists (settings : Settings) : List (String × List String) :=
  [("do-not-indent-children-of", settings.doNotIndentChildrenOf),
    ("inline-elements", settings.inlineElements),
    ("keep-whitespaces-inside", settings.keepWhitespacesInside)]

/-- The first thing wrong with settings, if anything is. -/
def problem? (settings : Settings) : Option SettingsError :=
  if settings.rightMargin = 0 then some .zeroMargin
  else
    match settings.indents.find? fun (_, width) => decide (maximumIndent < width) with
    | some (option, width) => some (.indentTooWide option width)
    | none =>
        settings.nameLists.findSome? fun (option, names) =>
          (names.find? fun name => !isValidTagName name).map (.invalidTagName option)

/-- Accepts settings that can produce sensible output. -/
def check (settings : Settings) : Except SettingsError Unit :=
  match settings.problem? with
  | none => .ok ()
  | some problem => .error problem

def isInline (settings : Settings) (name : List Char) : Bool :=
  listed settings.inlineElements name

def keepsWhitespacesInside (settings : Settings) (name : List Char) : Bool :=
  listed settings.keepWhitespacesInside name

def doesNotIndentChildrenOf (settings : Settings) (name : List Char) : Bool :=
  listed settings.doNotIndentChildrenOf name

/-- Text is filled in the same way under both wrapping modes; wrapping always does not put every
word on a line of its own. -/
def wrapsText (settings : Settings) : Bool :=
  settings.textWrap != .never

end Settings

end Markup
