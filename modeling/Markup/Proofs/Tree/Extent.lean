import Markup.Proofs.Tree.Listing

/-!
# Where nodes lie in their source

The nodes of a document lie end to end: each begins where the one before it ends, and the children
of an element fill the space between its tags. So the span of every node cuts its own text out of
the source, and the numbers of the nodes in document order are those from zero on. Both are facts
about every state of the builder, and are carried through it token by token.
-/

namespace Markup

open Markup.Text

/-! ## Spans of a text -/

/-- The span cuts this piece out of the text, both its ends being ends of characters. -/
def Span.Cuts (span : Span) (text piece : List Char) : Prop :=
  ∃ before after, text = before ++ (piece ++ after) ∧
    span.start = byteSize before ∧ span.stop = byteSize before + byteSize piece

theorem Text.byteSize_pos {text : List Char} (hne : text ≠ []) : 0 < byteSize text := by
  obtain ⟨c, tail, rfl⟩ := List.exists_cons_of_ne_nil hne
  have hsize := c.utf8Size_pos
  rw [byteSize_cons]
  omega

namespace Node

mutual

/-- The node begins at this offset, its parts end to end. -/
def Lies : Node → Nat → Prop
  | .element elem children, offset =>
      elem.opened = ⟨offset, offset + byteSize elem.tag.text⟩ ∧
        LieFrom children elem.opened.stop ∧
        elem.closed = ⟨elem.opened.stop + byteSize (textOfAll children),
          elem.opened.stop + byteSize (textOfAll children) + byteSize elem.endText⟩
  | .leaf piece, offset => piece.span = ⟨offset, offset + byteSize piece.raw⟩

/-- The nodes lie end to end, the first at this offset. -/
def LieFrom : List Node → Nat → Prop
  | [], _ => True
  | node :: rest, offset => Lies node offset ∧ LieFrom rest (offset + byteSize (text node))

end

mutual

/-- A node and all nodes inside it, in document order. -/
def preorder : Node → List Node
  | .element elem children => .element elem children :: preorderAll children
  | .leaf piece => [.leaf piece]

def preorderAll : List Node → List Node
  | [] => []
  | node :: rest => preorder node ++ preorderAll rest

end

theorem mem_preorder_self (node : Node) : node ∈ preorder node := by
  cases node <;> simp [preorder]

theorem mem_preorderAll_iff {nodes : List Node} {inner : Node} :
    inner ∈ preorderAll nodes ↔ ∃ node ∈ nodes, inner ∈ preorder node := by
  induction nodes with
  | nil => simp [preorderAll]
  | cons node rest ih => simp [preorderAll, ih]

mutual

theorem child_mem_preorder {node child : Node} {elem : Element} {children : List Node}
    (hmem : .element elem children ∈ preorder node) (hchild : child ∈ children) :
    child ∈ preorder node := by
  cases node with
  | leaf piece => simp [preorder] at hmem
  | element outer nodes =>
      rcases List.mem_cons.mp hmem with heq | hinside
      · cases heq
        exact List.mem_cons_of_mem _
          (mem_preorderAll_iff.mpr ⟨child, hchild, child.mem_preorder_self⟩)
      · exact List.mem_cons_of_mem _ (child_mem_preorderAll hinside hchild)

/-- The children of an element in a tree are in the tree. -/
theorem child_mem_preorderAll {nodes : List Node} {child : Node} {elem : Element}
    {children : List Node} (hmem : .element elem children ∈ preorderAll nodes)
    (hchild : child ∈ children) : child ∈ preorderAll nodes := by
  cases nodes with
  | nil => simp [preorderAll] at hmem
  | cons node rest =>
      rcases List.mem_append.mp hmem with hfirst | hrest
      · exact List.mem_append_left _ (child_mem_preorder hfirst hchild)
      · exact List.mem_append_right _ (child_mem_preorderAll hrest hchild)

end

theorem textOfAll_append (first second : List Node) :
    textOfAll (first ++ second) = textOfAll first ++ textOfAll second := by
  induction first with
  | nil => rfl
  | cons node rest ih => simp [ih]

theorem lieFrom_append {first second : List Node} {offset : Nat} :
    LieFrom (first ++ second) offset ↔
      LieFrom first offset ∧ LieFrom second (offset + byteSize (textOfAll first)) := by
  induction first generalizing offset with
  | nil => simp [LieFrom]
  | cons node rest ih => simp [LieFrom, ih, and_assoc, Nat.add_assoc]

/-- A node that lies at an offset spans its own text. -/
theorem span_of_lies {node : Node} {offset : Nat} (hlies : node.Lies offset) :
    node.span = ⟨offset, offset + byteSize node.text⟩ := by
  cases node with
  | leaf piece => simpa [Lies, span] using hlies
  | element elem children =>
      obtain ⟨hopened, -, hclosed⟩ := hlies
      simp [span, Element.span, hopened, hclosed, Nat.add_assoc]

theorem cuts_of_lies {node : Node} {before after : List Char}
    (hlies : node.Lies (byteSize before)) :
    node.span.Cuts (before ++ (node.text ++ after)) node.text :=
  ⟨before, after, rfl, by rw [span_of_lies hlies], by rw [span_of_lies hlies]⟩

mutual

theorem exists_lies_of_mem_preorder {node inner : Node} (before after : List Char)
    (hlies : node.Lies (byteSize before)) (hmem : inner ∈ preorder node) :
    ∃ front back, before ++ (node.text ++ after) = front ++ (inner.text ++ back) ∧
      inner.Lies (byteSize front) := by
  cases node with
  | leaf piece =>
      obtain rfl := List.mem_singleton.mp hmem
      exact ⟨before, after, rfl, hlies⟩
  | element elem children =>
      rcases List.mem_cons.mp hmem with rfl | hinner
      · exact ⟨before, after, rfl, hlies⟩
      · obtain ⟨hopened, hchildren, -⟩ := hlies
        have hinside := exists_lies_of_mem_preorderAll (before ++ elem.tag.text)
          (elem.endText ++ after) (by simpa [hopened] using hchildren) hinner
        simpa using hinside

/-- Every node of a tree lies where its text stands in that of the tree. -/
theorem exists_lies_of_mem_preorderAll {nodes : List Node} {inner : Node}
    (before after : List Char) (hlie : LieFrom nodes (byteSize before))
    (hmem : inner ∈ preorderAll nodes) :
    ∃ front back, before ++ (textOfAll nodes ++ after) = front ++ (inner.text ++ back) ∧
      inner.Lies (byteSize front) := by
  cases nodes with
  | nil => simp [preorderAll] at hmem
  | cons node rest =>
      obtain ⟨hlies, hrest⟩ := hlie
      rcases List.mem_append.mp hmem with hinner | hinner
      · have hfirst := exists_lies_of_mem_preorder before (textOfAll rest ++ after) hlies hinner
        simpa using hfirst
      · have hothers := exists_lies_of_mem_preorderAll (before ++ node.text) after
          (by simpa using hrest) hinner
        simpa using hothers

end

end Node

/-! ## Spans in a tree under construction -/

namespace Nesting

/-- The finished nodes and the open elements with their children lie end to end up to this
offset. -/
def Reaches (finished : List Node) : List OpenElement → Nat → Prop
  | [], stop => Node.LieFrom finished 0 ∧ stop = byteSize (Node.textOfAll finished)
  | inner :: outer, stop =>
      Reaches finished outer inner.opened.start ∧
        inner.opened.stop = inner.opened.start + byteSize inner.tag.text ∧
        Node.LieFrom inner.children.toList inner.opened.stop ∧
        stop = inner.opened.stop + byteSize (Node.textOfAll inner.children.toList)

def ReachesTo (open_ : Nesting) (stop : Nat) : Prop :=
  Reaches open_.finished.toList open_.stack stop

theorem ReachesTo.append {open_ : Nesting} {stop : Nat} {added : Node}
    (hreaches : open_.ReachesTo stop) (hlies : added.Lies stop) :
    (open_.append added).ReachesTo (stop + byteSize added.text) := by
  unfold ReachesTo Nesting.append at *
  split
  next hstack =>
    rw [hstack] at hreaches
    obtain ⟨hlie, rfl⟩ := hreaches
    simp only [hstack, Reaches, Array.toList_push, Node.lieFrom_append, Node.textOfAll_append]
    exact ⟨⟨hlie, by simpa [Node.LieFrom] using hlies⟩, by simp⟩
  next inner outer hstack =>
    rw [hstack] at hreaches
    obtain ⟨houter, hopened, hlie, rfl⟩ := hreaches
    simp only [Reaches, Array.toList_push, Node.lieFrom_append, Node.textOfAll_append]
    exact ⟨houter, hopened, ⟨hlie, by simpa [Node.LieFrom] using hlies⟩, by simp [Nat.add_assoc]⟩

theorem ReachesTo.push {open_ : Nesting} {stop id : Nat} (hreaches : open_.ReachesTo stop)
    (tag : StartTag) :
    (open_.push ⟨id, tag, ⟨stop, stop + byteSize tag.text⟩, #[]⟩).ReachesTo
      (stop + byteSize tag.text) :=
  ⟨hreaches, rfl, trivial, rfl⟩

theorem ReachesTo.pop {open_ : Nesting} {stop : Nat} (hreaches : open_.ReachesTo stop)
    (hopen : open_.stack ≠ []) (endTag : Option EndTag) :
    (open_.pop endTag ⟨stop, stop + byteSize (Token.closeText endTag)⟩).ReachesTo
      (stop + byteSize (Token.closeText endTag)) := by
  unfold Nesting.pop
  split
  next hstack => exact absurd hstack hopen
  next inner outer hstack =>
    unfold ReachesTo at hreaches
    rw [hstack] at hreaches
    obtain ⟨houter, hopened, hlie, hstop⟩ := hreaches
    have hend : ∀ elem : Element, elem.endTag = endTag → elem.endText = Token.closeText endTag := by
      rintro elem rfl
      rfl
    have hlies : (inner.close endTag ⟨stop, stop + byteSize (Token.closeText endTag)⟩).Lies
        inner.opened.start := by
      refine ⟨?_, hlie, ?_⟩
      · simp [← hopened]
      · simp [hstop, hend]
    have houtside : Nesting.ReachesTo { open_ with stack := outer } inner.opened.start := houter
    have hsize : inner.opened.start + byteSize (inner.close endTag
        ⟨stop, stop + byteSize (Token.closeText endTag)⟩).text =
          stop + byteSize (Token.closeText endTag) := by
      simp [OpenElement.close, hend, hstop, hopened, Nat.add_assoc]
    have happended := houtside.append hlies
    rwa [hsize] at happended

theorem ReachesTo.pop_none {open_ : Nesting} {stop : Nat} (hreaches : open_.ReachesTo stop) :
    (open_.pop none ⟨stop, stop⟩).ReachesTo stop := by
  cases hstack : open_.stack with
  | nil => simpa [Nesting.pop, hstack] using hreaches
  | cons inner outer => exact hreaches.pop (by simp [hstack]) none

theorem ReachesTo.popMany {open_ : Nesting} {stop : Nat} (hreaches : open_.ReachesTo stop)
    (count : Nat) : (open_.popMany stop count).ReachesTo stop := by
  induction count generalizing open_ with
  | zero => exact hreaches
  | succ count ih => exact ih hreaches.pop_none

end Nesting

namespace Builder

/-- The nodes of the builder lie end to end up to its position. -/
def Placed (builder : Builder) : Prop :=
  builder.nesting.ReachesTo builder.position

theorem placed_start : ({} : Builder).Placed := by
  simp [Placed, Nesting.ReachesTo, Nesting.Reaches, Node.LieFrom]

theorem Placed.addLeaf {builder : Builder} (hplaced : builder.Placed) (kind : LeafKind)
    (raw : List Char) : (builder.addLeaf kind raw).Placed := by
  have hlies : (Node.leaf ⟨kind, builder.next, raw,
      ⟨builder.position, builder.position + byteSize raw⟩⟩).Lies builder.position := rfl
  have happended := Nesting.ReachesTo.append hplaced hlies
  rwa [Node.text_leaf] at happended

theorem Placed.flush {builder : Builder} (hplaced : builder.Placed) : builder.flush.Placed := by
  unfold Builder.flush
  split
  next => exact hplaced
  next =>
    have hemptied : Placed { builder with waiting := [] } := hplaced
    exact hemptied.addLeaf _ _

theorem Placed.prepare {builder prepared : Builder} {name : List Char} (hplaced : builder.Placed)
    (hprepare : builder.prepare name = .ok prepared) : prepared.Placed := by
  obtain ⟨-, rfl⟩ := Builder.prepare_eq_ok_iff.mp hprepare
  exact hplaced.flush.popMany _

theorem Placed.startElement {builder : Builder} (hplaced : builder.Placed) (tag : StartTag) :
    (builder.startElement tag).Placed := by
  unfold Builder.startElement
  dsimp only
  split
  next =>
    have hlies : (Node.element ⟨builder.next, tag, none,
        ⟨builder.position, builder.position + byteSize tag.text⟩,
        ⟨builder.position + byteSize tag.text, builder.position + byteSize tag.text⟩⟩ []).Lies
          builder.position := by
      simp [Node.Lies, Node.LieFrom, Element.endText]
    have happended := Nesting.ReachesTo.append hplaced hlies
    simp only [Node.text_element, Element.endText, Node.textOfAll_nil, List.append_nil] at happended
    exact happended
  next => exact Nesting.ReachesTo.push hplaced tag

theorem Placed.addRawElement {builder : Builder} (hplaced : builder.Placed) (tag : StartTag)
    (content : List Char) (close : Option EndTag) :
    (builder.addRawElement tag content close).Placed := by
  have hstarted : Placed { builder with
      position := builder.position + byteSize tag.text
      next := builder.next + 1
      nesting := builder.nesting.push ⟨builder.next, tag,
        ⟨builder.position, builder.position + byteSize tag.text⟩, #[]⟩ } :=
    Nesting.ReachesTo.push hplaced tag
  unfold Builder.addRawElement
  cases content with
  | nil => exact Nesting.ReachesTo.pop hstarted (by simp [Nesting.push]) close
  | cons c rest =>
      have hfilled := hstarted.addLeaf .verbatim (c :: rest)
      exact Nesting.ReachesTo.pop hfilled
        (by simp [Builder.addLeaf, Nesting.append, Nesting.push]) close

theorem Placed.endElement {builder : Builder} (hplaced : builder.Placed) (tag : EndTag) :
    (builder.endElement tag).Placed := by
  unfold Builder.endElement
  split
  next => exact hplaced
  next count hfound =>
    have hpopped := hplaced.flush.popMany count
    exact hpopped.pop (popMany_flush_stack_ne_nil hfound _) (some tag)

theorem placed_stable : Stable Placed where
  start := placed_start
  hold _ _ hplaced := hplaced
  flush := Placed.flush
  addLeaf _ _ hplaced := hplaced.addLeaf _ _
  prepare := Placed.prepare
  startElement _ hplaced := hplaced.startElement _
  addRawElement _ hplaced := hplaced.addRawElement _ _ _
  endElement _ hplaced := hplaced.endElement _

end Builder

/-! ## Documents -/

/-- The source of a tree, read off as a listing. -/
def textListing : Listing Char :=
  ⟨fun _ tag => tag.text, Leaf.raw, EndTag.raw⟩

@[simp]
theorem textListing_opening (id : Nat) (tag : StartTag) : textListing.opening id tag = tag.text :=
  rfl

@[simp]
theorem textListing_leaf (piece : Leaf) : textListing.leaf piece = piece.raw := rfl

@[simp]
theorem textListing_closing (tag : EndTag) : textListing.closing tag = tag.raw := rfl

namespace Node

theorem endText_eq (elem : Element) : elem.endText = textListing.ending elem.endTag := by
  unfold Element.endText Listing.ending
  split <;> simp_all

mutual

theorem textListing_node (node : Node) : textListing.node node = text node := by
  cases node with
  | leaf piece => simp [Listing.node]
  | element elem children =>
      simp only [Listing.node, text_element, textListing_nodes children, endText_eq,
        textListing_opening]

theorem textListing_nodes (nodes : List Node) : textListing.nodes nodes = textOfAll nodes := by
  cases nodes with
  | nil => rfl
  | cons node rest =>
      simp only [Listing.nodes, textOfAll_cons, textListing_node node, textListing_nodes rest]

end

end Node

namespace Builder

/-- The source that a builder has read, the text held back included. -/
def readText (builder : Builder) : List Char :=
  textListing.nesting builder.nesting ++ builder.waiting

theorem textListing_waiting (builder : Builder) :
    textListing.waiting builder = builder.waiting := by
  unfold Listing.waiting
  split
  next h => exact h.symm
  next h => rw [h]; rfl

theorem waiting_flush (builder : Builder) : builder.flush.waiting = [] := by
  unfold flush
  split
  next h => exact h
  next => rfl

theorem waiting_prepare {builder prepared : Builder} {name : List Char}
    (hprepare : builder.prepare name = .ok prepared) : prepared.waiting = [] := by
  obtain ⟨-, rfl⟩ := Builder.prepare_eq_ok_iff.mp hprepare
  exact builder.waiting_flush

theorem readText_addLeaf_flush (builder : Builder) (kind : LeafKind) (raw : List Char) :
    (builder.flush.addLeaf kind raw).readText = builder.readText ++ raw := by
  have hnesting := textListing.nesting_flush builder
  rw [textListing_waiting] at hnesting
  simp [readText, addLeaf, Listing.nesting_append, Listing.node, hnesting, waiting_flush]

theorem textListing_rawContent (id position : Nat) (content : List Char) :
    textListing.rawContent id position content = content := by
  cases content <;> rfl

theorem ending_closeText (close : Option EndTag) :
    textListing.ending close = Token.closeText close := by
  cases close <;> rfl

theorem readText_add {builder added : Builder} {token : Token}
    (hadd : builder.add token = .ok added) :
    added.readText = builder.readText ++ token.source := by
  cases token with
  | text raw => cases hadd; simp [readText, hold, Token.source]
  | comment raw => cases hadd; exact builder.readText_addLeaf_flush _ _
  | cdata raw => cases hadd; exact builder.readText_addLeaf_flush _ _
  | declaration raw => cases hadd; exact builder.readText_addLeaf_flush _ _
  | unterminated construct raw => cases hadd; simp [readText, hold, Token.source]
  | endTag tag =>
      cases hadd
      cases hfound : builder.nesting.inside? tag.name with
      | none => simp [endElement, hfound, readText, hold, Token.source]
      | some count =>
          have hwaiting : (builder.endElement tag).waiting = [] := by
            simp [endElement, hfound, waiting_flush]
          simp [readText, Listing.nesting_endElement _ hfound, textListing_waiting, hwaiting,
            Token.source]
  | startTag tag =>
      obtain ⟨prepared, hprepare, hstart⟩ := bind_eq_ok_iff.mp hadd
      cases hstart
      have hwaiting : (prepared.startElement tag).waiting = [] := by
        rw [← waiting_prepare hprepare]
        unfold startElement
        dsimp only
        split <;> rfl
      simp [readText, Listing.nesting_startElement, Listing.nesting_prepare _ hprepare,
        textListing_waiting, hwaiting, Token.source]
  | rawElement tag content close =>
      obtain ⟨prepared, hprepare, hstart⟩ := bind_eq_ok_iff.mp hadd
      cases hstart
      have hwaiting : (prepared.addRawElement tag content close).waiting = [] := by
        rw [← waiting_prepare hprepare]
        cases content <;> rfl
      simp [readText, Listing.nesting_addRawElement, Listing.nesting_prepare _ hprepare,
        textListing_waiting, hwaiting, Token.source, textListing_rawContent, ending_closeText]

theorem readText_addAll {builder final : Builder} {tokens : List Token}
    (haddAll : builder.addAll tokens = .ok final) :
    final.readText = builder.readText ++ tokens.flatMap Token.source := by
  induction tokens generalizing builder with
  | nil => cases haddAll; simp
  | cons token rest ih =>
      obtain ⟨added, hadd, hrest⟩ := addAll_eq_ok_cons.mp haddAll
      simp [ih hrest, readText_add hadd]

end Builder

namespace Document

theorem source_of_parse {text : List Char} {document : Document}
    (hparse : parse text = .ok document) : document.source = text := by
  obtain ⟨builder, -, rfl⟩ := parse_eq_ok_iff.mp hparse
  rfl

/-- Nothing of a text is lost in its tree. -/
theorem textOfAll_of_parse {text : List Char} {document : Document}
    (hparse : parse text = .ok document) : Node.textOfAll document.children = text := by
  obtain ⟨builder, haddAll, rfl⟩ := parse_eq_ok_iff.mp hparse
  have hread := Builder.readText_addAll haddAll
  rw [Token.flatMap_source_ofText] at hread
  rw [← Node.textListing_nodes]
  show textListing.nodes (builder.flush.nesting.finish builder.flush.position) = text
  rw [Listing.nodes_finish, Listing.nesting_flush, Builder.textListing_waiting]
  exact hread

/-- The nodes of a document lie end to end from the start of its source on. -/
theorem lieFrom_of_parse {text : List Char} {document : Document}
    (hparse : parse text = .ok document) : Node.LieFrom document.children 0 := by
  obtain ⟨builder, hplaced, hchildren, -⟩ := Builder.placed_stable.of_parse hparse
  have hfinished := Nesting.ReachesTo.popMany hplaced builder.flush.nesting.depth
  unfold Nesting.ReachesTo at hfinished
  rw [Nesting.stack_popMany_depth] at hfinished
  rw [hchildren]
  exact hfinished.1

/-- Every node lies where its text stands in the source. -/
theorem exists_lies_of_parse {text : List Char} {document : Document} {node : Node}
    (hparse : parse text = .ok document) (hmem : node ∈ Node.preorderAll document.children) :
    ∃ before after, text = before ++ (node.text ++ after) ∧ node.Lies (byteSize before) := by
  have hlies := Node.exists_lies_of_mem_preorderAll [] [] (lieFrom_of_parse hparse) hmem
  simpa [textOfAll_of_parse hparse] using hlies

/-- Every node spans its own text. -/
theorem cuts_of_parse {text : List Char} {document : Document} {node : Node}
    (hparse : parse text = .ok document) (hmem : node ∈ Node.preorderAll document.children) :
    node.span.Cuts text node.text := by
  obtain ⟨before, after, htext, hlies⟩ := exists_lies_of_parse hparse hmem
  rw [htext]
  exact Node.cuts_of_lies hlies

end Document

end Markup
