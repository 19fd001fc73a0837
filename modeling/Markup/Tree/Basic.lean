import Markup.Text.Utf8
import Markup.Text.Blank
import Markup.Span
import Markup.Tag.Basic
import Markup.Token

/-!
# Documents as trees

A node is an element with its children or a leaf. Every node has a number, given in the order in
which the nodes begin, and knows the span of source it was read from. Nothing of the source is
lost in the tree: `Node.text` writes a node as it was.
-/

namespace Markup

open Markup.Text

/-! ## Nodes -/

/-- The kinds of nodes without children. A verbatim leaf is the content of a raw text element or a
CDATA section; a doctype is any markup declaration or processing instruction. -/
inductive LeafKind where
  | text
  | comment
  | verbatim
  | doctype
  deriving DecidableEq, Repr, Inhabited

/-- A node without children. -/
structure Leaf where
  kind : LeafKind
  id : Nat
  raw : List Char
  span : Span
  deriving DecidableEq, Repr, Inhabited

/-- An element, its children apart. The span of the end tag is empty, at the end of the element,
where there is no end tag. -/
structure Element where
  id : Nat
  tag : StartTag
  endTag : Option EndTag
  opened : Span
  closed : Span
  deriving DecidableEq, Repr, Inhabited

/-- An element with its children, or a leaf. -/
inductive Node where
  | element (elem : Element) (children : List Node)
  | leaf (piece : Leaf)
  deriving Repr, Inhabited

mutual

/-- Nodes can be compared, from the root down. -/
def Node.decEq : (node other : Node) → Decidable (node = other)
  | .leaf piece, .leaf found => decidable_of_iff (piece = found) (by simp)
  | .element elem children, .element found others =>
      match Node.decEqAll children others with
      | isTrue hsame => decidable_of_iff (elem = found) (by simp [hsame])
      | isFalse hother => isFalse (by simp [hother])
  | .leaf _, .element _ _ => isFalse nofun
  | .element _ _, .leaf _ => isFalse nofun

def Node.decEqAll : (nodes others : List Node) → Decidable (nodes = others)
  | [], [] => isTrue rfl
  | node :: rest, other :: others =>
      match Node.decEq node other with
      | isTrue hsame => match Node.decEqAll rest others with
          | isTrue hrest => isTrue (by rw [hsame, hrest])
          | isFalse hother => isFalse (by simp [hother])
      | isFalse hother => isFalse (by simp [hother])
  | [], _ :: _ => isFalse nofun
  | _ :: _, [] => isFalse nofun

end

instance : DecidableEq Node :=
  Node.decEq

/-! ## What is known of an element -/

namespace Element

def name (element : Element) : List Char :=
  element.tag.name

/-- The whole element, both tags included. -/
def span (element : Element) : Span :=
  ⟨element.opened.start, element.closed.stop⟩

/-- Everything between the two tags. -/
def content (element : Element) : Span :=
  ⟨element.opened.stop, element.closed.start⟩

/-- Whether the element has this name, in any case. -/
def is (element : Element) (name : List Char) : Bool :=
  sameName element.name name

/-- The spans of attributes that are written one after the other from the given offset on. The
blanks in front of an attribute are not part of its span. -/
def spansFrom : Nat → List Attribute → List (Attribute × Span)
  | _, [] => []
  | offset, attr :: rest =>
      let start := offset + byteSize attr.gap
      let stop := start + byteSize attr.body
      (attr, ⟨start, stop⟩) :: spansFrom stop rest

/-- The attributes, each with its span. -/
def attributes (element : Element) : List (Attribute × Span) :=
  spansFrom (element.opened.start + 1 + byteSize element.name) element.tag.attributes

/-- The first attribute with this name, in any case. -/
def attribute? (element : Element) (name : List Char) : Option (Attribute × Span) :=
  element.attributes.find? fun (attr, _) => sameName attr.name name

/-- The text of the end tag, if there is one. -/
def endText (element : Element) : List Char :=
  match element.endTag with
  | none => []
  | some tag => tag.raw

end Element

/-! ## The source of a node -/

namespace Node

def id : Node → Nat
  | .element elem _ => elem.id
  | .leaf piece => piece.id

def span : Node → Span
  | .element elem _ => elem.span
  | .leaf piece => piece.span

mutual

/-- Writes the source of a node in front of a text. A text is copied once, however deep the nodes
nest. -/
def write : Node → List Char → List Char
  | .element elem children, rest => elem.tag.text ++ writeAll children (elem.endText ++ rest)
  | .leaf piece, rest => piece.raw ++ rest

/-- Writes the source of nodes that follow each other in front of a text. -/
def writeAll : List Node → List Char → List Char
  | [], rest => rest
  | node :: others, rest => write node (writeAll others rest)

end

/-- The source of a node. -/
def text (node : Node) : List Char :=
  write node []

/-- The source of nodes that follow each other. -/
def textOfAll (nodes : List Node) : List Char :=
  writeAll nodes []

mutual

theorem write_append (node : Node) (first second : List Char) :
    write node (first ++ second) = write node first ++ second := by
  cases node with
  | element elem children =>
      simp only [write]
      rw [← List.append_assoc elem.endText, writeAll_append, List.append_assoc]
  | leaf piece => simp [write]

theorem writeAll_append (nodes : List Node) (first second : List Char) :
    writeAll nodes (first ++ second) = writeAll nodes first ++ second := by
  cases nodes with
  | nil => rfl
  | cons node others =>
      simp only [writeAll]
      rw [writeAll_append, write_append]

end

theorem write_eq_append (node : Node) (rest : List Char) : write node rest = text node ++ rest :=
  write_append node [] rest

theorem writeAll_eq_append (nodes : List Node) (rest : List Char) :
    writeAll nodes rest = textOfAll nodes ++ rest :=
  writeAll_append nodes [] rest

@[simp]
theorem text_element (elem : Element) (children : List Node) :
    text (.element elem children) = elem.tag.text ++ (textOfAll children ++ elem.endText) := by
  simp [text, write, writeAll_eq_append]

@[simp]
theorem text_leaf (piece : Leaf) : text (.leaf piece) = piece.raw := by
  simp [text, write]

@[simp]
theorem textOfAll_nil : textOfAll [] = [] :=
  rfl

@[simp]
theorem textOfAll_cons (node : Node) (others : List Node) :
    textOfAll (node :: others) = text node ++ textOfAll others := by
  simp [textOfAll, writeAll, write_eq_append]

end Node

/-! ## Preserved content -/

/-- What is copied when the content of an element is preserved, from the end of its start tag on,
and the blanks that are left to whatever follows. Only an element without an end tag leaves its
trailing blanks. -/
def Element.preserved (element : Element) (children : List Node) : List Char × List Char :=
  let content := Node.textOfAll children
  match element.endTag with
  | some tag => (content ++ tag.raw, [])
  | none => splitTail content

/-- The offset behind what is copied when the content of an element is preserved. -/
def Element.preservedEnd (element : Element) (children : List Node) : Nat :=
  element.opened.stop + byteSize (element.preserved children).1

/-! ## Documents -/

/-- A construct that was given up on, with the offset it begins at. -/
structure Report where
  offset : Nat
  construct : Construct
  deriving DecidableEq, Repr, Inhabited

def Report.message (report : Report) : String :=
  s!"unterminated {report.construct.label}; keeping the rest as text"

/-- A text read as a tree. Its nodes are numbered from zero up to, and not including, `count`. -/
structure Document where
  source : List Char
  children : List Node
  count : Nat
  reports : List Report
  deriving DecidableEq, Repr, Inhabited

end Markup
