import Markup.Text.Blank
import Markup.Settings.Basic
import Markup.Tree.Basic
import Markup.Plan.Cursor

/-!
# Laying out a start tag

Where the attributes of a start tag go, and how their values are quoted. Whether the tag would fit
on one line is predicted from the widths of its parts; the column is then followed through the
attributes, whose values may have several lines.
-/

namespace Markup

open Markup.Text

namespace Settings

/-- The quotes that the value of an attribute gets. Quotes are enforced only where the value does
not contain them. -/
def quoteFor (settings : Settings) (attr : Attribute) : Option Quote :=
  match attr.value with
  | none => none
  | some value =>
      if settings.enforceQuotes then
        match settings.quoteStyle.quote? with
        | none => value.quote
        | some target => if value.raw.contains target.char then value.quote else some target
      else value.quote

/-- Number of columns that an attribute takes on one line, without the gap in front of it. -/
def attributeWidth (settings : Settings) (attr : Attribute) : Nat :=
  match attr.value with
  | none => attr.name.length
  | some value =>
      attr.name.length + 1 + value.raw.length +
        if (settings.quoteFor attr).isSome then 2 else 0

/-- Number of columns that the end of a start tag takes. -/
def endingWidth (settings : Settings) : Ending → Nat
  | .plain => 1
  | .selfClosing => if settings.spaceInsideEmptyTag then 3 else 2

/-- Number of columns that the attributes and the end of a start tag take on one line. -/
def restOfTagWidth (settings : Settings) (tag : StartTag) : Nat :=
  tag.attributes.foldr (fun attr width => 1 + settings.attributeWidth attr + width)
    (settings.endingWidth tag.ending)

/-- Whether a line break of the source inside a tag stays one. -/
def keepsBreakInTag (settings : Settings) (blanks : List Char) : Bool :=
  blanks.contains '\n' && (settings.keepLineBreaks || settings.attributeWrap == .never)

/-- Whether all attributes but the first go on lines of their own, in a tag that overflows the
margin or does not. -/
def wrapsAttributes (settings : Settings) (overflow : Bool) : Bool :=
  match settings.attributeWrap with
  | .never => false
  | .always => true
  | .asNeeded => overflow

/-- What stands in front of an attribute that is broken to a line of its own or is not. -/
def attributeGap (broken : Bool) (aligned : Nat) : Gap :=
  if broken then .lineBreak 1 aligned else .space

/-- The position after an attribute that is written with the given quotes. -/
def writeAttribute (cursor : Cursor) (attr : Attribute) (quote : Option Quote) : Cursor :=
  let named := cursor.write attr.name
  match attr.value with
  | none => named
  | some value =>
      let width := (quoteText quote).length
      (((named.place 1).place width).write value.raw).place width

/-- Lays out one attribute at the given column of alignment. -/
def layoutAttribute (settings : Settings) (cursor : Cursor) (attr : Attribute) (broken : Bool)
    (aligned : Nat) : AttributeLayout × Cursor :=
  let gap := attributeGap broken aligned
  let quote := settings.quoteFor attr
  (⟨gap, quote⟩, writeAttribute (cursor.skip gap) attr quote)

/-- Lays out the attributes behind the first one. -/
def layoutFurther (settings : Settings) (wrapped : Bool) (aligned : Nat) :
    Cursor → List Attribute → List AttributeLayout × Cursor
  | cursor, [] => ([], cursor)
  | cursor, attr :: rest =>
      let broken := settings.keepsBreakInTag attr.gap || wrapped
      let (layout, after) := settings.layoutAttribute cursor attr broken aligned
      let (layouts, final) := settings.layoutFurther wrapped aligned after rest
      (layout :: layouts, final)

/-- Lays out the attributes of a tag. Those on lines of their own are aligned with the first
attribute, if that is asked for and the first one follows the name of the element. -/
def layoutAttributes (settings : Settings) (wrapped : Bool) (indent : Nat) (cursor : Cursor) :
    List Attribute → List AttributeLayout × Cursor
  | [] => ([], cursor)
  | attr :: rest =>
      let broken := settings.keepsBreakInTag attr.gap
      let aligned :=
        if settings.alignAttributes && !broken then cursor.column + 1
        else indent + settings.continuationIndentSize
      let (layout, after) := settings.layoutAttribute cursor attr broken aligned
      let (layouts, final) := settings.layoutFurther wrapped aligned after rest
      (layout :: layouts, final)

/-- What stands in front of the end of a start tag. -/
def tagEndGap (settings : Settings) (tag : StartTag) (indent : Nat) : Gap :=
  if settings.keepsBreakInTag tag.trailing then .lineBreak 1 indent
  else if tag.ending = .selfClosing && settings.spaceInsideEmptyTag then .space
  else .nothing

/-- Lays out a start tag that begins at the cursor. -/
def layoutStartTag (settings : Settings) (tag : StartTag) (indent : Nat) (cursor : Cursor) :
    List AttributeLayout × Gap × Cursor :=
  let named := cursor.place (1 + tag.name.length)
  let overflow := decide (settings.rightMargin < named.column + settings.restOfTagWidth tag)
  let (layouts, attributed) :=
    settings.layoutAttributes (settings.wrapsAttributes overflow) indent named tag.attributes
  let gap := settings.tagEndGap tag indent
  (layouts, gap, (attributed.skip gap).place tag.ending.text.length)

end Settings

end Markup
