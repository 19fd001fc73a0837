import Markup.Proofs.LetterCase.Token
import Markup.Proofs.Outcome
import Markup.Tree.Building

/-!
# Trees in lower case

A step of building the tree of a text compares names in any case, and otherwise only looks at how
many bytes there are. Building a tree from tokens in lower case therefore comes to building the tree
and putting it in lower case: nodes, numbers, spans and reports stay. Main statement: `parse_lower`.
-/

namespace Markup

open Markup.Text

/-! ## Nodes -/

@[simps]
def Leaf.lower (piece : Leaf) : Leaf :=
  { piece with raw := Text.lower piece.raw }

@[simps]
def Element.lower (elem : Element) : Element :=
  { elem with tag := elem.tag.lower, endTag := elem.endTag.map EndTag.lower }

@[simp]
theorem Element.lower_name (elem : Element) : elem.lower.name = Text.lower elem.name := rfl

theorem Element.endText_lower (elem : Element) : elem.lower.endText = Text.lower elem.endText := by
  cases hclose : elem.endTag <;> simp [endText, lower, EndTag.lower, hclose]

namespace Node

mutual

/-- A node with all its text in lower case. -/
def lower : Node → Node
  | .element elem children => .element elem.lower (lowerAll children)
  | .leaf piece => .leaf piece.lower

def lowerAll : List Node → List Node
  | [] => []
  | node :: rest => lower node :: lowerAll rest

end

theorem lowerAll_eq_map (nodes : List Node) : lowerAll nodes = nodes.map lower := by
  induction nodes with
  | nil => rfl
  | cons node rest ih => rw [lowerAll, ih, List.map_cons]

mutual

theorem text_lower (node : Node) : text (lower node) = Text.lower (text node) := by
  cases node with
  | element elem children =>
      rw [lower, text_element, text_element, textOfAll_lower, Element.endText_lower, lower_append,
        lower_append]
      exact congrArg (· ++ _) (StartTag.text_lower elem.tag)
  | leaf piece => rw [lower, text_leaf, text_leaf, Leaf.lower]

theorem textOfAll_lower (nodes : List Node) :
    textOfAll (lowerAll nodes) = Text.lower (textOfAll nodes) := by
  cases nodes with
  | nil => rfl
  | cons node rest =>
      rw [lowerAll, textOfAll_cons, textOfAll_cons, text_lower, textOfAll_lower, lower_append]

end

end Node

/-- What an element leaves to whatever follows it is blank, and the same in lower case. -/
theorem Element.preserved_lower (elem : Element) (children : List Node) :
    elem.lower.preserved (Node.lowerAll children) =
      (Text.lower (elem.preserved children).1, (elem.preserved children).2) := by
  cases hclose : elem.endTag with
  | none =>
      simp only [preserved, Element.lower, hclose, Option.map_none, Node.textOfAll_lower,
        splitTail_lower]
      exact congrArg (Prod.mk _) (lower_of_allBlank (splitTail_blank _))
  | some tag =>
      simp only [preserved, Element.lower, hclose, Option.map_some, Node.textOfAll_lower,
        EndTag.lower, lower_append]

/-! ## Open elements -/

@[simps]
def OpenElement.lower (elem : OpenElement) : OpenElement :=
  { elem with tag := elem.tag.lower, children := elem.children.map Node.lower }

theorem OpenElement.close_lower (inner : OpenElement) (endTag : Option EndTag) (closed : Span) :
    inner.lower.close (endTag.map EndTag.lower) closed = (inner.close endTag closed).lower := by
  simp only [close, Node.lower, Node.lowerAll_eq_map, lower, Array.toList_map]
  rfl

namespace Nesting

def lower (nesting : Nesting) : Nesting :=
  ⟨nesting.stack.map OpenElement.lower, nesting.finished.map Node.lower⟩

@[simp]
theorem depth_lower (nesting : Nesting) : nesting.lower.depth = nesting.depth :=
  List.length_map _

theorem append_lower (nesting : Nesting) (node : Node) :
    nesting.lower.append node.lower = (nesting.append node).lower := by
  obtain ⟨stack, finished⟩ := nesting
  cases stack with
  | nil => simp [append, lower]
  | cons inner outer => simp [append, lower, OpenElement.lower]

theorem push_lower (nesting : Nesting) (element : OpenElement) :
    nesting.lower.push element.lower = (nesting.push element).lower := rfl

theorem pop_lower (nesting : Nesting) (endTag : Option EndTag) (closed : Span) :
    nesting.lower.pop (endTag.map EndTag.lower) closed = (nesting.pop endTag closed).lower := by
  obtain ⟨stack, finished⟩ := nesting
  cases stack with
  | nil => rfl
  | cons inner outer =>
      have hpop := append_lower ⟨outer, finished⟩ (inner.close endTag closed)
      rw [← OpenElement.close_lower] at hpop
      exact hpop

theorem popMany_lower (nesting : Nesting) (offset count : Nat) :
    nesting.lower.popMany offset count = (nesting.popMany offset count).lower := by
  induction count generalizing nesting with
  | zero => rfl
  | succ count ih => rw [popMany, popMany, ← ih, ← pop_lower, Option.map_none]

theorem inside?_lower (nesting : Nesting) (name : List Char) :
    nesting.lower.inside? (Text.lower name) = nesting.inside? name := by
  simp only [inside?, lower, List.findIdx?_map, Function.comp_def, OpenElement.lower_tag,
    StartTag.lower_name, sameName_lower_left, sameName_lower_right]

theorem popImplied_lower (nesting : Nesting) (offset : Nat) (name : List Char) :
    nesting.lower.popImplied offset (Text.lower name) = (nesting.popImplied offset name).lower := by
  rw [popImplied, popMany_lower, popImplied]
  simp only [lower, List.takeWhile_map, List.length_map, Function.comp_def, OpenElement.lower_tag,
    StartTag.lower_name, Tag.impliesEnd_lower]

theorem finish_lower (nesting : Nesting) (offset : Nat) :
    nesting.lower.finish offset = Node.lowerAll (nesting.finish offset) := by
  rw [finish, finish, depth_lower, popMany_lower, Node.lowerAll_eq_map]
  exact Array.toList_map

end Nesting

/-! ## Building -/

namespace Builder

def lower (builder : Builder) : Builder :=
  { builder with waiting := Text.lower builder.waiting, nesting := builder.nesting.lower }

theorem hold_lower (builder : Builder) (raw : List Char) :
    builder.lower.hold (Text.lower raw) = (builder.hold raw).lower := by
  simp [hold, lower]

theorem addLeaf_lower (builder : Builder) (kind : LeafKind) (raw : List Char) :
    builder.lower.addLeaf kind (Text.lower raw) = (builder.addLeaf kind raw).lower := by
  simp only [addLeaf, lower, byteSize_lower, ← Nesting.append_lower, Node.lower, Leaf.lower]

theorem flush_lower (builder : Builder) : builder.lower.flush = builder.flush.lower := by
  cases hwaiting : builder.waiting with
  | nil => simp [flush, lower, hwaiting]
  | cons c rest =>
      have hadd := addLeaf_lower { builder with waiting := [] } .text builder.waiting
      rw [hwaiting] at hadd
      simpa [flush, lower, hwaiting] using hadd

theorem prepare_lower (builder : Builder) (name : List Char) :
    builder.lower.prepare (Text.lower name) = (builder.prepare name).map lower := by
  have hposition : builder.flush.lower.position = builder.flush.position := rfl
  have hnesting : builder.flush.lower.nesting = builder.flush.nesting.lower := rfl
  rw [prepare, prepare, flush_lower]
  simp only [hposition, hnesting, Nesting.popImplied_lower, Nesting.depth_lower]
  split <;> rfl

theorem startElement_lower (builder : Builder) (tag : StartTag) :
    builder.lower.startElement tag.lower = (builder.startElement tag).lower := by
  simp only [startElement, lower, StartTag.text_lower, byteSize_lower, StartTag.lower_name,
    StartTag.lower_ending, Tag.isVoid_lower]
  split
  next =>
    simp only [← Nesting.append_lower, Node.lower, Node.lowerAll, Element.lower, Option.map_none]
  next => simp only [← Nesting.push_lower, OpenElement.lower, List.map_toArray, List.map_nil]

/-- A raw text element, up to the end of its start tag. -/
def enter (builder : Builder) (tag : StartTag) : Builder :=
  { builder with
    position := builder.position + byteSize tag.text
    next := builder.next + 1
    nesting := builder.nesting.push
      ⟨builder.next, tag, ⟨builder.position, builder.position + byteSize tag.text⟩, #[]⟩ }

/-- The content of a raw text element, which is no node where it is empty. -/
def fill (builder : Builder) (content : List Char) : Builder :=
  match content with
  | [] => builder
  | _ :: _ => builder.addLeaf .verbatim content

/-- The end of a raw text element, from its end tag on. -/
def leave (builder : Builder) (close : Option EndTag) : Builder :=
  let stop := builder.position + byteSize (Token.closeText close)
  { builder with
    position := stop
    nesting := builder.nesting.pop close ⟨builder.position, stop⟩ }

theorem addRawElement_eq (builder : Builder) (tag : StartTag) (content : List Char)
    (close : Option EndTag) :
    builder.addRawElement tag content close = ((builder.enter tag).fill content).leave close := rfl

theorem enter_lower (builder : Builder) (tag : StartTag) :
    builder.lower.enter tag.lower = (builder.enter tag).lower := by
  simp only [enter, lower, StartTag.text_lower, byteSize_lower, ← Nesting.push_lower,
    OpenElement.lower, List.map_toArray, List.map_nil]

theorem fill_lower (builder : Builder) (content : List Char) :
    builder.lower.fill (Text.lower content) = (builder.fill content).lower := by
  cases content with
  | nil => rfl
  | cons c rest => exact addLeaf_lower builder .verbatim (c :: rest)

theorem leave_lower (builder : Builder) (close : Option EndTag) :
    builder.lower.leave (close.map EndTag.lower) = (builder.leave close).lower := by
  simp only [leave, lower, Token.closeText_lower, byteSize_lower, Nesting.pop_lower]

theorem addRawElement_lower (builder : Builder) (tag : StartTag) (content : List Char)
    (close : Option EndTag) :
    builder.lower.addRawElement tag.lower (Text.lower content) (close.map EndTag.lower) =
      (builder.addRawElement tag content close).lower := by
  rw [addRawElement_eq, addRawElement_eq, enter_lower, fill_lower, leave_lower]

theorem endElement_lower (builder : Builder) (tag : EndTag) :
    builder.lower.endElement tag.lower = (builder.endElement tag).lower := by
  have hinside : builder.lower.nesting.inside? tag.lower.name = builder.nesting.inside? tag.name :=
    builder.nesting.inside?_lower tag.name
  have hbytes : byteSize tag.lower.raw = byteSize tag.raw := byteSize_lower tag.raw
  have hpop := fun (nesting : Nesting) closed => nesting.pop_lower (some tag) closed
  rw [endElement, endElement, hinside]
  cases builder.nesting.inside? tag.name with
  | none => exact hold_lower builder tag.raw
  | some count =>
      rw [Option.map_some] at hpop
      simp only [flush_lower, hbytes]
      simp only [lower, Nesting.popMany_lower, hpop]

/-- A token in lower case adds in lower case what the token adds. -/
theorem add_lower (builder : Builder) (token : Token) :
    builder.lower.add token.lower = (builder.add token).map lower := by
  cases token with
  | text raw => exact congrArg Except.ok (hold_lower builder raw)
  | comment raw =>
      rw [Token.lower, add, add, flush_lower, addLeaf_lower]
      rfl
  | cdata raw =>
      rw [Token.lower, add, add, flush_lower, addLeaf_lower]
      rfl
  | declaration raw =>
      rw [Token.lower, add, add, flush_lower, addLeaf_lower]
      rfl
  | startTag tag =>
      have hprepare := prepare_lower builder tag.name
      simp only [Token.lower, add, StartTag.lower_name, hprepare]
      cases builder.prepare tag.name with
      | error failure => rfl
      | ok prepared => exact congrArg Except.ok (startElement_lower prepared tag)
  | rawElement tag content close =>
      have hprepare := prepare_lower builder tag.name
      simp only [Token.lower, add, StartTag.lower_name, hprepare]
      cases builder.prepare tag.name with
      | error failure => rfl
      | ok prepared => exact congrArg Except.ok (addRawElement_lower prepared tag content close)
  | endTag tag => exact congrArg Except.ok (endElement_lower builder tag)
  | unterminated construct raw =>
      -- a report is about an offset, which counts bytes
      have hoffset : builder.lower.offset = builder.offset := by simp [offset, lower]
      let reported := { builder with
        reports := builder.reports ++ [Report.mk builder.offset construct] }
      rw [Token.lower, add, hoffset]
      exact congrArg Except.ok (hold_lower reported raw)

theorem addAll_lower (builder : Builder) (tokens : List Token) :
    builder.lower.addAll (tokens.map Token.lower) = (builder.addAll tokens).map lower := by
  induction tokens generalizing builder with
  | nil => rfl
  | cons token rest ih =>
      simp only [addAll, List.map_cons, List.foldlM_cons, add_lower] at ih ⊢
      cases builder.add token with
      | error failure => rfl
      | ok next => exact ih next

end Builder

/-! ## Documents -/

@[simps]
def Document.lower (document : Document) : Document :=
  { document with
    source := Text.lower document.source
    children := Node.lowerAll document.children }

theorem Builder.document_lower (builder : Builder) (source : List Char) :
    builder.lower.document (Text.lower source) = (builder.document source).lower := by
  rw [document, document, flush_lower]
  exact congrArg (Document.mk _ · _ _) (builder.flush.nesting.finish_lower _)

/-- A text in lower case is read as the text is, and refused where the text is. -/
theorem parse_lower {text : List Char} (hplain : Token.marksSection text = false) :
    parse (Text.lower text) = (parse text).map Document.lower := by
  have hempty : Builder.lower {} = {} := by simp [Builder.lower, Nesting.lower]
  have hbuild := Builder.addAll_lower {} (Token.ofText text)
  rw [hempty, ← Token.ofText_lower hplain] at hbuild
  rw [parse, parse, hbuild]
  cases Builder.addAll {} (Token.ofText text) with
  | error failure => rfl
  | ok builder => exact congrArg Except.ok (builder.document_lower text)

/-! ## Trees that differ in case -/

/-- Leaves that differ in the case of letters at most. Running text is cut at the same places. -/
structure Leaf.Alike (first second : Leaf) : Prop where
  kind : first.kind = second.kind
  id : first.id = second.id
  span : first.span = second.span
  raw : sameName first.raw second.raw = true
  fragments : List.Forall₂ Fragment.Alike (fragments first.raw) (fragments second.raw)

/-- Elements whose tags differ in the case of letters at most. -/
structure Element.Alike (first second : Element) : Prop where
  id : first.id = second.id
  opened : first.opened = second.opened
  closed : first.closed = second.closed
  tag : first.tag.lower = second.tag.lower
  endTag : first.endTag.map EndTag.lower = second.endTag.map EndTag.lower

/-- Trees of one shape whose nodes differ in the case of letters at most. -/
inductive Node.Alike : Node → Node → Prop
  | leaf {first second : Leaf} : first.Alike second → Alike (.leaf first) (.leaf second)
  | element {first second : Element} {children others : List Node} :
      first.Alike second → List.Forall₂ Alike children others →
        Alike (.element first children) (.element second others)

/-- Documents that differ in the case of letters at most. -/
structure Document.Alike (first second : Document) : Prop where
  source : sameName first.source second.source = true
  children : List.Forall₂ Node.Alike first.children second.children
  count : first.count = second.count
  reports : first.reports = second.reports

theorem Leaf.alike_of_lower_eq {first second : Leaf} (hsame : first.lower = second.lower) :
    first.Alike second := by
  obtain ⟨hkind, hid, hraw, hspan⟩ := Leaf.mk.inj hsame
  exact ⟨hkind, hid, hspan, sameName_iff.mpr hraw, fragments_alike hraw⟩

theorem Element.alike_of_lower_eq {first second : Element} (hsame : first.lower = second.lower) :
    first.Alike second := by
  obtain ⟨hid, htag, hend, hopened, hclosed⟩ := Element.mk.inj hsame
  exact ⟨hid, hopened, hclosed, htag, hend⟩

namespace Node

mutual

theorem alike_of_lower_eq {first second : Node} (hsame : first.lower = second.lower) :
    first.Alike second := by
  cases first with
  | leaf piece =>
      cases second with
      | leaf other => exact .leaf (Leaf.alike_of_lower_eq (Node.leaf.inj hsame))
      | element elem children => cases hsame
  | element elem children =>
      cases second with
      | leaf other => cases hsame
      | element twin others =>
          obtain ⟨helem, hchildren⟩ := Node.element.inj hsame
          exact .element (Element.alike_of_lower_eq helem) (alikeAll_of_lower_eq hchildren)

theorem alikeAll_of_lower_eq {nodes others : List Node} (hsame : lowerAll nodes = lowerAll others) :
    List.Forall₂ Alike nodes others := by
  cases nodes with
  | nil =>
      cases others with
      | nil => exact .nil
      | cons other rest => cases hsame
  | cons node rest =>
      cases others with
      | nil => cases hsame
      | cons other twins =>
          obtain ⟨hnode, hrest⟩ := List.cons.inj hsame
          exact .cons (alike_of_lower_eq hnode) (alikeAll_of_lower_eq hrest)

end

end Node

theorem Document.alike_of_lower_eq {first second : Document} (hsame : first.lower = second.lower) :
    first.Alike second := by
  obtain ⟨hsource, hchildren, hcount, hreports⟩ := Document.mk.inj hsame
  exact ⟨sameName_iff.mpr hsource, Node.alikeAll_of_lower_eq hchildren, hcount, hreports⟩

end Markup
