import Markup.Text.Words
import Markup.Tag.Kinds
import Markup.Tree.Basic
import Markup.Plan.StartTag
import Markup.Plan.Words

/-!
# Laying out nodes

Nodes are laid out in document order. The blanks behind an item are handed on until the gap in
front of the next item takes their place. Where the height of elements is limited, the content of
an element is laid out with its children indented first, and again without if that is too tall; of
the first layout only the heights that it found out about are kept.
-/

namespace Markup

open Markup.Text

/-! ## The state of planning -/

/-- A plan in the making: the output position, the decisions so far, and for each element whether it
is short enough to have its children indented, as far as that is known. -/
structure Draft where
  cursor : Cursor
  plan : Plan
  short : Array (Option Bool)
  deriving DecidableEq, Repr, Inhabited

namespace Draft

/-- A draft that has decided nothing, at the given position. -/
def start (cursor : Cursor) (count : Nat) : Draft :=
  ⟨cursor, Plan.empty count, Array.replicate count none⟩

def moveTo (draft : Draft) (cursor : Cursor) : Draft :=
  { draft with cursor := cursor }

def decide (draft : Draft) (id : Nat) (decision : Decision) : Draft :=
  { draft with plan := draft.plan.decide id decision }

/-- Whether an element is known to be short enough or too tall. -/
def short? (draft : Draft) (id : Nat) : Option Bool :=
  (draft.short[id]?).join

/-- Notes whether an element is short enough. -/
def measure (draft : Draft) (id : Nat) (fits : Bool) : Draft :=
  { draft with short := draft.short.setIfInBounds id (some fits) }

end Draft

/-- How far a flow of nodes has been laid out, with the blanks that wait for the next item. -/
structure Progress where
  draft : Draft
  flow : Flow
  blanks : List Char
  deriving DecidableEq, Repr, Inhabited

/-- The start of an element, laid out: the gap in front of it, its indent, whether it begins its
line and whether it is a block; its start tag; the flow it lies in, and the draft behind the start
tag. The number of lines is that in front of the start tag. -/
structure Heading where
  before : Gap
  indent : Nat
  ownLine : Bool
  block : Bool
  attributes : List AttributeLayout
  tagEnd : Gap
  lines : Nat
  flow : Flow
  draft : Draft
  deriving DecidableEq, Repr, Inhabited

/-- The content of an element, laid out: the gap in front of the end tag, the blanks that are left
over where there is no end tag, whether a line was broken, and the draft behind the element. -/
structure Body where
  endTag : Gap
  blanks : List Char
  broken : Bool
  draft : Draft
  deriving DecidableEq, Repr, Inhabited

/-! ## Leaves and headings -/

namespace Settings

/-- Content that has to come through untouched. -/
def preserves (settings : Settings) (name : List Char) : Bool :=
  Tag.isRawText name || settings.keepsWhitespacesInside name

/-- How the content of an element comes about. -/
def contentOf (settings : Settings) (tag : StartTag) : Content :=
  if tag.ending = .selfClosing || Tag.isVoid tag.name then .empty
  else if settings.preserves tag.name then .verbatim
  else .formatted

/-- Number of columns that a start tag takes on one line. -/
def tagWidth (settings : Settings) (tag : StartTag) : Nat :=
  1 + tag.name.length + settings.restOfTagWidth tag

/-- How far into the content of an element its leading part is looked for. -/
def lookahead : Nat := 8

/-- Number of columns of a start tag on one line, together with what is glued to it without a
blank, looking so many elements deep. -/
def leadingWidth (settings : Settings) : Nat → StartTag → List Node → Nat
  | 0, tag, _ => settings.tagWidth tag
  | depth + 1, tag, children =>
      settings.tagWidth tag +
        if settings.preserves tag.name then 0
        else
          match children with
          | .element child inner :: _ =>
              if settings.isInline child.name then settings.leadingWidth depth child.tag
                inner else 0
          | .leaf leaf :: _ =>
              if leaf.kind = .text then
                match Run.ofText leaf.raw with
                | .words [] first _ _ => first.width
                | _ => 0
              else 0
          | [] => 0

/-- Lays out a leaf that is not text. -/
def layoutAtom (settings : Settings) (leaf : Leaf) (kind : Following) (progress : Progress) :
    Progress :=
  let width := (firstLine leaf.raw).length
  let (gap, cursor, flow) :=
    settings.separate progress.draft.cursor progress.flow progress.blanks kind width
  let draft := (progress.draft.moveTo (cursor.write leaf.raw)).decide leaf.id
    ⟨gap, .nothing, cursor.column, .atom⟩
  ⟨draft, flow.follow kind, []⟩

/-- Lays out a text. Blank text is left to the gap in front of the next item. -/
def layoutText (settings : Settings) (leaf : Leaf) (progress : Progress) : Progress :=
  match Run.ofText leaf.raw with
  | .blank leading =>
      let decision : Decision := ⟨.nothing, .nothing, progress.flow.indent, .text []⟩
      ⟨progress.draft.decide leaf.id decision, progress.flow, progress.blanks ++ leading⟩
  | .words leading first rest trailing =>
      let (gap, cursor, flow) := settings.separate progress.draft.cursor progress.flow
        (progress.blanks ++ leading) .inline first.width
      let continuation := if settings.alignText then cursor.column else flow.indent
      let (gaps, after, broken) := settings.layoutWords continuation cursor first.width
        (rest.map fun (blanks, word) => (blanks, word.width))
      let draft := (progress.draft.moveTo after).decide leaf.id
        ⟨gap, .nothing, flow.indent, .text gaps⟩
      ⟨draft, { flow with broken := flow.broken || broken }.follow .inline, trailing⟩

def layoutLeaf (settings : Settings) (leaf : Leaf) (progress : Progress) : Progress :=
  match leaf.kind with
  | .text => settings.layoutText leaf progress
  | .comment => settings.layoutAtom leaf .comment progress
  | .verbatim => settings.layoutAtom leaf .inline progress
  | .doctype => settings.layoutAtom leaf .block progress

/-- Lays out the start of an element. A block has no width of its own to consider, since it begins
a line in any case. -/
def layoutHeading (settings : Settings) (tag : StartTag) (children : List Node)
    (progress : Progress) : Heading :=
  let block := !settings.isInline tag.name
  let kind : Following := if block then .block else .inline
  let width := if block then 0 else settings.leadingWidth lookahead tag children
  let (gap, cursor, flow) :=
    settings.separate progress.draft.cursor progress.flow progress.blanks kind width
  let indent := if cursor.blank then cursor.column else flow.indent
  let (attributes, tagEnd, after) := settings.layoutStartTag tag indent cursor
  { before := gap
    indent := indent
    ownLine := cursor.blank
    block := block
    attributes := attributes
    tagEnd := tagEnd
    lines := cursor.lines
    flow := flow
    draft := progress.draft.moveTo after }

/-! ## The content of an element -/

/-- Lays out the end tag behind the children of an element. -/
def layoutEnding (settings : Settings) (heading : Heading) (endTag : Option EndTag)
    (inner : Progress) : Body :=
  match endTag with
  | none => ⟨.nothing, inner.blanks, inner.flow.broken, inner.draft⟩
  | some tag =>
      let gap := settings.closingGap inner.flow inner.blanks heading.indent
        (heading.ownLine || heading.block) heading.block
      let cursor := (inner.draft.cursor.skip gap).place (3 + tag.name.length)
      ⟨gap, [], inner.flow.broken, inner.draft.moveTo cursor⟩

/-- Whether the height of an element is known to allow its children to be indented. -/
def isShort? (settings : Settings) (draft : Draft) (id : Nat) : Option Bool :=
  if settings.heightLimit = 0 then some true else draft.short? id

/-- Chooses the indent of the children of an element, given how the content is laid out at an
indent. Where the height is not known yet, the content is laid out indented to find out. -/
def layoutBody (settings : Settings) (id : Nat) (name : List Char) (heading : Heading)
    (content : Nat → Draft → Body) : Body :=
  let flush := heading.indent
  let stepped := heading.indent + settings.indentSize
  if (heading.ownLine || heading.block) && !settings.doesNotIndentChildrenOf name then
    match settings.isShort? heading.draft id with
    | some true => content stepped heading.draft
    | some false => content flush heading.draft
    | none =>
        let trial := content stepped heading.draft
        let fits := Nat.blt (trial.draft.cursor.lines - heading.lines) settings.heightLimit
        let measured := trial.draft.measure id fits
        if fits then { trial with draft := measured }
        else content flush { heading.draft with short := measured.short }
  else content flush heading.draft

/-- The progress behind an element whose content has been laid out. -/
def finishElement (id : Nat) (heading : Heading) (content : Content) (body : Body) : Progress :=
  let kind : Following := if heading.block then .block else .inline
  let broken := heading.flow.broken || (!heading.block && body.broken)
  let decision : Decision :=
    ⟨heading.before, .nothing, heading.indent,
      .element heading.attributes heading.tagEnd content body.endTag⟩
  ⟨body.draft.decide id decision, { heading.flow with broken := broken }.follow kind, body.blanks⟩

/-! ## All nodes -/

mutual

/-- Lays out a node. -/
def layoutNode (settings : Settings) : Node → Progress → Progress
  | .leaf leaf, progress => settings.layoutLeaf leaf progress
  | .element elem children, progress =>
      let heading := settings.layoutHeading elem.tag children progress
      match settings.contentOf elem.tag with
      | .empty =>
          finishElement elem.id heading .empty ⟨.nothing, [], false, heading.draft⟩
      | .verbatim =>
          let (kept, left) := elem.preserved children
          let draft := heading.draft.moveTo (heading.draft.cursor.write kept)
          finishElement elem.id heading .verbatim ⟨.nothing, left, false, draft⟩
      | .formatted =>
          finishElement elem.id heading .formatted
            (settings.layoutBody elem.id elem.name heading fun indent draft =>
              settings.layoutEnding heading elem.endTag
                (settings.layoutNodes children
                  ⟨draft, Flow.start indent (.start heading.block), []⟩))

/-- Lays out nodes that follow each other. -/
def layoutNodes (settings : Settings) : List Node → Progress → Progress
  | [], progress => progress
  | node :: rest, progress => settings.layoutNodes rest (settings.layoutNode node progress)

end

/-- What goes behind the last node of a document, in place of the blanks there. -/
def finalGap (settings : Settings) (blanks : List Char) : Gap :=
  if settings.keepWhitespaces then Gap.keep blanks
  else if blanks.contains '\n' then .lineBreak 1 0
  else .nothing

/-- Lays out a whole document. -/
def layoutDocument (settings : Settings) (document : Document) : Plan :=
  let final := settings.layoutNodes document.children
    ⟨Draft.start .origin document.count, Flow.start 0 (.start false), []⟩
  { final.draft.plan with ending := settings.finalGap final.blanks }

end Settings

end Markup
