import Markup.Text.Blank
import Markup.Text.Utf8
import Markup.Text.Words
import Markup.Span
import Markup.Tree.Basic
import Markup.Plan.Nodes

/-!
# Laying out part of a document

A range of the source selects a run of siblings: the descent ends at the innermost element whose
content holds the whole range, and the run goes from the first to the last of its children that the
range touches. The run is laid out where it stands. The source in front of the line it starts on,
and the blanks behind it, stay exactly as they are; a run that starts its own line is indented as
the children of its container are.
-/

namespace Markup

open Markup.Text

/-- The range with its ends in order, clamped to the text, and widened to whole characters. -/
def Span.normalize (range : Span) (text : List Char) : Span :=
  ⟨floorBoundary text (min range.start range.stop), ceilBoundary text (max range.start range.stop)⟩

/-- A run of siblings, not empty, with the element they are children of, if they are not at the top
level, and the sibling right in front of them. -/
structure Selection where
  container : Option Element
  before : Option Node
  first : Node
  rest : List Node
  deriving Repr, Inhabited

namespace Selection

def nodes (selection : Selection) : List Node :=
  selection.first :: selection.rest

/-- The last node of the run. -/
def last (selection : Selection) : Node :=
  selection.rest.getLast?.getD selection.first

end Selection

/-- The nodes up to the last one that overlaps a range, and none if no node does. -/
def upToLast (range : Span) : List Node → List Node
  | [] => []
  | node :: rest =>
      match upToLast range rest with
      | [] => if node.span.overlaps range then [node] else []
      | found => node :: found

namespace Settings

mutual

/-- The run that a range selects within a single node that it touches. -/
def selectWithin (settings : Settings) (range : Span) (container : Option Element)
    (before : Option Node) : Node → Option Selection
  | .leaf leaf => some ⟨container, before, .leaf leaf, []⟩
  | .element elem children =>
      if elem.content.contains range then
        if settings.preserves elem.name then none
        else settings.selectAmong range (some elem) none children
      else some ⟨container, before, .element elem children, []⟩

/-- The run that a range selects among the children of a container, given the sibling in front of
them. Nothing is selected where the range touches no child, or lies within content that is always
reproduced as it is. -/
def selectAmong (settings : Settings) (range : Span) (container : Option Element)
    (before : Option Node) : List Node → Option Selection
  | [] => none
  | node :: rest =>
      if node.span.overlaps range then
        match upToLast range rest with
        | [] => settings.selectWithin range container before node
        | found => some ⟨container, before, node, found⟩
      else settings.selectAmong range container (some node) rest

end

/-- The run that a range of a document selects. -/
def select (settings : Settings) (document : Document) (range : Span) : Option Selection :=
  settings.selectAmong range none none document.children

/-- Number of blank columns at the start of the line that an offset lies on. -/
def lineIndent (source : List Char) (offset : Nat) : Nat :=
  let line := lastLine (takeBytes offset source) ++ dropBytes offset source
  (line.takeWhile fun c => c == ' ' || c == '\t').length

/-- Whether the children of an element are indented, judging its height from the source. -/
def stepsChildren (settings : Settings) (elem : Element) (height : Nat) : Bool :=
  !settings.doesNotIndentChildrenOf elem.name &&
    (settings.heightLimit == 0 || height < settings.heightLimit)

/-- The indent of the children of a container that is left where it stands. -/
def nestedIndent (settings : Settings) (source : List Char) (container : Option Element) : Nat :=
  match container with
  | none => 0
  | some elem =>
      let base := lineIndent source elem.span.start
      let inside := takeBytes elem.span.size (dropBytes elem.span.start source)
      if settings.stepsChildren elem (newlines inside) then base + settings.indentSize else base

/-- The text that holds the line feed in front of a run, given whether only blanks precede the run
on its line. -/
def leadText? (blank : Bool) (before : Option Node) : Option Leaf :=
  match before with
  | some (.leaf leaf) =>
      if leaf.kind = .text && blank && leaf.raw.contains '\n' then some leaf else none
  | _ => none

/-- The decision that reproduces a text up to its last line feed, and leaves out what follows. -/
def keepLines (leaf : Leaf) : Decision :=
  match Run.ofText leaf.raw with
  | .blank leading => ⟨Gap.keep (beforeLastLine leading), .nothing, 0, .text []⟩
  | .words leading _ rest trailing =>
      ⟨Gap.keep leading, Gap.keep (beforeLastLine trailing), 0,
        .text (rest.map fun (blanks, _) => .kept blanks)⟩

/-- Lays out a run of siblings in place. -/
def layoutSelection (settings : Settings) (document : Document) (selection : Selection) : Plan :=
  let start := selection.first.span.start
  let line := lastLine (takeBytes start document.source)
  let blank := allBlank line
  let nested := settings.nestedIndent document.source selection.container
  let lead := leadText? blank selection.before
  let indent :=
    if blank then if lead.isSome then nested else line.length
    else if selection.container.isSome then nested
    else lineIndent document.source start
  let cursor : Cursor :=
    { column := if lead.isSome then indent else line.length
      blank := blank
      fresh := false
      anchored := true
      lines := 0 }
  let final := settings.layoutNodes selection.nodes
    ⟨Draft.start cursor document.count, Flow.start indent .inline, []⟩
  let behind := match final.blanks with
    | [] => final.draft.plan
    | c :: rest => final.draft.plan.modify selection.last.id fun decision =>
        { decision with after := .kept (c :: rest) }
  match lead with
  | none => behind
  | some leaf =>
      (behind.decide leaf.id (keepLines leaf)).modify selection.first.id fun decision =>
        { decision with before := .lineBreak 1 indent }

/-- Plans a document, or the part of it that a range selects. -/
def plan (settings : Settings) (document : Document) (range : Option Span) :
    Except SettingsError Plan := do
  settings.check
  match range with
  | none => return settings.layoutDocument document
  | some range =>
      match settings.select document (range.normalize document.source) with
      | none => return Plan.empty document.count
      | some selection => return settings.layoutSelection document selection

end Settings

end Markup
