import Markup.Text.Blank
import Markup.Text.Utf8
import Markup.Tag.Kinds
import Markup.Token
import Markup.Tree.Basic

/-!
# Building the tree of a text

The tree is built token by token. Running text is held back until the next markup, so that what
turns out not to be markup joins it; the elements whose end has not been seen form a stack. An end
tag that no open element matches is text. The only failure is nesting beyond a fixed depth.
-/

namespace Markup

open Markup.Text

/-- The greatest number of elements that may be open at once. -/
def maximumDepth : Nat := 512

/-- Elements are nested too deep; the start tag at this offset is one too many. -/
structure TooDeep where
  offset : Nat
  deriving DecidableEq, Repr, Inhabited

def TooDeep.message (_ : TooDeep) : String :=
  s!"elements nested more than {maximumDepth} deep"

/-- An element whose end has not been read. -/
structure OpenElement where
  id : Nat
  tag : StartTag
  opened : Span
  children : Array Node
  deriving Inhabited

/-- The element that ends with the given end tag, if any, which covers the given span. -/
def OpenElement.close (inner : OpenElement) (endTag : Option EndTag) (closed : Span) : Node :=
  .element ⟨inner.id, inner.tag, endTag, inner.opened, closed⟩ inner.children.toList

/-- The open elements, the innermost first, and the finished nodes that lie in none of them. -/
structure Nesting where
  stack : List OpenElement := []
  finished : Array Node := #[]
  deriving Inhabited

namespace Nesting

def depth (nesting : Nesting) : Nat :=
  nesting.stack.length

/-- Adds a node to the innermost open element, or to the document where nothing is open. -/
def append (nesting : Nesting) (node : Node) : Nesting :=
  match nesting.stack with
  | [] => { nesting with finished := nesting.finished.push node }
  | inner :: outer =>
      { nesting with stack := { inner with children := inner.children.push node } :: outer }

def push (nesting : Nesting) (element : OpenElement) : Nesting :=
  { nesting with stack := element :: nesting.stack }

/-- Ends the innermost open element. -/
def pop (nesting : Nesting) (endTag : Option EndTag) (closed : Span) : Nesting :=
  match nesting.stack with
  | [] => nesting
  | inner :: outer => { nesting with stack := outer }.append (inner.close endTag closed)

/-- Ends the given number of open elements, innermost first, without end tags. -/
def popMany (nesting : Nesting) (offset : Nat) : Nat → Nesting
  | 0 => nesting
  | count + 1 => (nesting.pop none ⟨offset, offset⟩).popMany offset count

/-- How many elements are open inside the innermost one with this name. -/
def inside? (nesting : Nesting) (name : List Char) : Option Nat :=
  nesting.stack.findIdx? fun element => sameName element.tag.name name

/-- Ends every open element that the start of an element with this name ends. -/
def popImplied (nesting : Nesting) (offset : Nat) (name : List Char) : Nesting :=
  nesting.popMany offset
    (nesting.stack.takeWhile fun element => Tag.impliesEnd element.tag.name name).length

/-- Ends every open element, as the end of the text does. -/
def finish (nesting : Nesting) (offset : Nat) : List Node :=
  (nesting.popMany offset nesting.depth).finished.toList

end Nesting

/-- A tree under construction. The nodes cover the source up to `position`; the text behind that
has been read and waits to become a node. -/
structure Builder where
  position : Nat := 0
  waiting : List Char := []
  next : Nat := 0
  nesting : Nesting := {}
  reports : List Report := []
  deriving Inhabited

namespace Builder

/-- Offset of the first character that has not been read. -/
def offset (builder : Builder) : Nat :=
  builder.position + byteSize builder.waiting

/-- Holds more text back. -/
def hold (builder : Builder) (raw : List Char) : Builder :=
  { builder with waiting := builder.waiting ++ raw }

/-- Adds a leaf with the given source. -/
def addLeaf (builder : Builder) (kind : LeafKind) (raw : List Char) : Builder :=
  let stop := builder.position + byteSize raw
  { builder with
    position := stop
    next := builder.next + 1
    nesting := builder.nesting.append (.leaf ⟨kind, builder.next, raw, ⟨builder.position, stop⟩⟩) }

/-- Makes a node of the text held back, if there is any. -/
def flush (builder : Builder) : Builder :=
  match builder.waiting with
  | [] => builder
  | _ :: _ => { builder with waiting := [] }.addLeaf .text builder.waiting

/-- Flushes and ends what the start of an element with this name ends. -/
def prepare (builder : Builder) (name : List Char) : Except TooDeep Builder :=
  let flushed := builder.flush
  let nesting := flushed.nesting.popImplied flushed.position name
  if maximumDepth ≤ nesting.depth then .error ⟨flushed.position⟩
  else .ok { flushed with nesting := nesting }

/-- Opens an element, or adds it at once if it has no content. -/
def startElement (builder : Builder) (tag : StartTag) : Builder :=
  let opened : Span := ⟨builder.position, builder.position + byteSize tag.text⟩
  let after := { builder with position := opened.stop, next := builder.next + 1 }
  if tag.ending = .selfClosing || Tag.isVoid tag.name then
    { after with
      nesting := builder.nesting.append
        (.element ⟨builder.next, tag, none, opened, ⟨opened.stop, opened.stop⟩⟩ []) }
  else
    { after with nesting := builder.nesting.push ⟨builder.next, tag, opened, #[]⟩ }

/-- Adds an element with raw text as its content. -/
def addRawElement (builder : Builder) (tag : StartTag) (content : List Char)
    (close : Option EndTag) : Builder :=
  let started : Builder :=
    { builder with
      position := builder.position + byteSize tag.text
      next := builder.next + 1
      nesting := builder.nesting.push
        ⟨builder.next, tag, ⟨builder.position, builder.position + byteSize tag.text⟩, #[]⟩ }
  let filled := match content with
    | [] => started
    | _ :: _ => started.addLeaf .verbatim content
  let stop := filled.position + byteSize (Token.closeText close)
  { filled with
    position := stop
    nesting := filled.nesting.pop close ⟨filled.position, stop⟩ }

/-- Ends the innermost open element with the name of the end tag, and all elements inside it. An
end tag that matches nothing is text. -/
def endElement (builder : Builder) (tag : EndTag) : Builder :=
  match builder.nesting.inside? tag.name with
  | none => builder.hold tag.raw
  | some count =>
      let flushed := builder.flush
      let stop := flushed.position + byteSize tag.raw
      { flushed with
        position := stop
        nesting := (flushed.nesting.popMany flushed.position count).pop (some tag)
          ⟨flushed.position, stop⟩ }

/-- Adds the next token. What never ends is reported and becomes text. -/
def add (builder : Builder) : Token → Except TooDeep Builder
  | .text raw => .ok (builder.hold raw)
  | .comment raw => .ok (builder.flush.addLeaf .comment raw)
  | .cdata raw => .ok (builder.flush.addLeaf .verbatim raw)
  | .declaration raw => .ok (builder.flush.addLeaf .doctype raw)
  | .startTag tag => do
      let prepared ← builder.prepare tag.name
      return prepared.startElement tag
  | .rawElement tag content close => do
      let prepared ← builder.prepare tag.name
      return prepared.addRawElement tag content close
  | .endTag tag => .ok (builder.endElement tag)
  | .unterminated construct raw =>
      .ok ({ builder with
        reports := builder.reports ++ [Report.mk builder.offset construct] }.hold raw)

/-- Adds tokens in order, up to the first failure. -/
def addAll (builder : Builder) (tokens : List Token) : Except TooDeep Builder :=
  tokens.foldlM add builder

/-- The tree, at the end of the text. -/
def document (builder : Builder) (source : List Char) : Document :=
  let flushed := builder.flush
  ⟨source, flushed.nesting.finish flushed.position, flushed.next, flushed.reports⟩

end Builder

/-- Reads a text as a tree. -/
def parse (text : List Char) : Except TooDeep Document := do
  let builder ← Builder.addAll {} (Token.ofText text)
  return builder.document text

end Markup
