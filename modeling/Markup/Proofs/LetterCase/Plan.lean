import Markup.Plan.Selection
import Markup.Proofs.LetterCase.Tree

/-!
# Plans in lower case

A plan depends on the names of elements in any case, on blanks and on numbers of characters. None of
that changes when a document is put in lower case, so that every node is laid out as it was, from
the same position. Main statement: `Settings.plan_lower`.
-/

namespace Markup

open Markup.Text

theorem Cursor.write_lower (cursor : Cursor) (text : List Char) :
    cursor.write (Text.lower text) = cursor.write text := by
  cases text with
  | nil => rfl
  | cons c rest =>
      rw [lower_cons, write, write, ← lower_cons, columnAfter_lower, newlines_lower]

namespace Settings

variable (settings : Settings)

/-! ## Start tags -/

theorem quoteFor_lower (attr : Attribute) :
    settings.quoteFor attr.lower = settings.quoteFor attr := by
  obtain ⟨gap, name, value⟩ := attr
  cases value with
  | none => rfl
  | some value =>
      have hquote : ∀ quote : Quote, (Text.lower value.raw).contains quote.char =
          value.raw.contains quote.char :=
        fun quote => contains_lower quote.isAlpha_char value.raw
      simp only [quoteFor, Attribute.lower, AttributeValue.lower, Option.map_some, hquote]

theorem attributeWidth_lower (attr : Attribute) :
    settings.attributeWidth attr.lower = settings.attributeWidth attr := by
  have hquote := settings.quoteFor_lower attr
  obtain ⟨gap, name, value⟩ := attr
  cases value with
  | none => exact length_lower name
  | some value =>
      simp only [Attribute.lower, AttributeValue.lower, Option.map_some] at hquote
      simp only [attributeWidth, Attribute.lower, AttributeValue.lower, Option.map_some,
        length_lower, hquote]

theorem restOfTagWidth_lower (tag : StartTag) :
    settings.restOfTagWidth tag.lower = settings.restOfTagWidth tag := by
  simp only [restOfTagWidth, StartTag.lower, List.foldr_map, attributeWidth_lower]

theorem tagWidth_lower (tag : StartTag) : settings.tagWidth tag.lower = settings.tagWidth tag := by
  rw [tagWidth, restOfTagWidth_lower, tagWidth]
  exact congrArg (1 + · + _) (length_lower tag.name)

theorem keepsBreakInTag_lower (blanks : List Char) :
    settings.keepsBreakInTag (Text.lower blanks) = settings.keepsBreakInTag blanks := by
  rw [keepsBreakInTag, contains_lower rfl, keepsBreakInTag]

theorem writeAttribute_lower (cursor : Cursor) (attr : Attribute) (quote : Option Quote) :
    writeAttribute cursor attr.lower quote = writeAttribute cursor attr quote := by
  obtain ⟨gap, name, value⟩ := attr
  cases value with
  | none => exact cursor.write_lower name
  | some value =>
      simp only [writeAttribute, Attribute.lower, AttributeValue.lower, Option.map_some,
        Cursor.write_lower]

theorem layoutAttribute_lower (cursor : Cursor) (attr : Attribute) (broken : Bool) (aligned : Nat) :
    settings.layoutAttribute cursor attr.lower broken aligned =
      settings.layoutAttribute cursor attr broken aligned := by
  rw [layoutAttribute, layoutAttribute, quoteFor_lower, writeAttribute_lower]

theorem layoutFurther_lower (wrapped : Bool) (aligned : Nat) (cursor : Cursor)
    (attrs : List Attribute) :
    settings.layoutFurther wrapped aligned cursor (attrs.map Attribute.lower) =
      settings.layoutFurther wrapped aligned cursor attrs := by
  induction attrs generalizing cursor with
  | nil => rfl
  | cons attr rest ih =>
      simp only [List.map_cons, layoutFurther, layoutAttribute_lower, ih, Attribute.lower_gap,
        keepsBreakInTag_lower]

theorem layoutAttributes_lower (wrapped : Bool) (indent : Nat) (cursor : Cursor)
    (attrs : List Attribute) :
    settings.layoutAttributes wrapped indent cursor (attrs.map Attribute.lower) =
      settings.layoutAttributes wrapped indent cursor attrs := by
  cases attrs with
  | nil => rfl
  | cons attr rest =>
      simp only [List.map_cons, layoutAttributes, layoutAttribute_lower, layoutFurther_lower,
        Attribute.lower_gap, keepsBreakInTag_lower]

theorem layoutStartTag_lower (tag : StartTag) (indent : Nat) (cursor : Cursor) :
    settings.layoutStartTag tag.lower indent cursor =
      settings.layoutStartTag tag indent cursor := by
  have hgap : settings.tagEndGap tag.lower indent = settings.tagEndGap tag indent := by
    rw [tagEndGap, tagEndGap, StartTag.lower_trailing, keepsBreakInTag_lower, StartTag.lower_ending]
  rw [layoutStartTag, layoutStartTag, StartTag.lower_name, length_lower, hgap, restOfTagWidth_lower,
    StartTag.lower_attributes, layoutAttributes_lower, StartTag.lower_ending]

/-! ## Leaves and headings -/

theorem preserves_lower (name : List Char) :
    settings.preserves (Text.lower name) = settings.preserves name := by
  simp only [preserves, keepsWhitespacesInside, Tag.isRawText_lower, listed_lower]

theorem contentOf_lower (tag : StartTag) :
    settings.contentOf tag.lower = settings.contentOf tag := by
  simp only [contentOf, StartTag.lower_ending, StartTag.lower_name, preserves_lower,
    Tag.isVoid_lower]

theorem isInline_lower (name : List Char) :
    settings.isInline (Text.lower name) = settings.isInline name :=
  listed_lower _ name

theorem leadingWidth_lower (depth : Nat) (tag : StartTag) (children : List Node) :
    settings.leadingWidth depth tag.lower (Node.lowerAll children) =
      settings.leadingWidth depth tag children := by
  -- on how deep the leading part is looked for, which is what the width is recursive in
  induction depth generalizing tag children with
  | zero => exact settings.tagWidth_lower tag
  | succ depth ih =>
      cases children with
      | nil =>
          simp only [Node.lowerAll, leadingWidth, tagWidth_lower, StartTag.lower_name,
            preserves_lower]
      | cons node rest =>
          cases node with
          | element child inner =>
              simp only [Node.lowerAll, Node.lower, leadingWidth, tagWidth_lower,
                StartTag.lower_name, preserves_lower, Element.lower_name, isInline_lower,
                  Element.lower_tag, ih]
          | leaf leaf =>
              simp only [Node.lowerAll, Node.lower, leadingWidth, tagWidth_lower,
                StartTag.lower_name, preserves_lower, Leaf.lower, Run.ofText_lower]
              cases Run.ofText leaf.raw with
              | blank leading => rfl
              | words leading first others trailing =>
                  cases leading <;> simp only [Run.lower, Word.width_lower]

theorem layoutAtom_lower (leaf : Leaf) (kind : Following) (progress : Progress) :
    settings.layoutAtom leaf.lower kind progress = settings.layoutAtom leaf kind progress := by
  simp only [layoutAtom, Leaf.lower, firstLine_lower, length_lower, Cursor.write_lower]

theorem layoutText_lower (leaf : Leaf) (progress : Progress) :
    settings.layoutText leaf.lower progress = settings.layoutText leaf progress := by
  simp only [layoutText, Leaf.lower, Run.ofText_lower]
  cases Run.ofText leaf.raw with
  | blank leading => rfl
  | words leading first rest trailing =>
      simp only [Run.lower, Word.width_lower, List.map_map, Function.comp_def]

theorem layoutLeaf_lower (leaf : Leaf) (progress : Progress) :
    settings.layoutLeaf leaf.lower progress = settings.layoutLeaf leaf progress := by
  simp only [layoutLeaf, layoutText_lower, layoutAtom_lower]
  rfl

theorem layoutHeading_lower (tag : StartTag) (children : List Node) (progress : Progress) :
    settings.layoutHeading tag.lower (Node.lowerAll children) progress =
      settings.layoutHeading tag children progress := by
  simp only [layoutHeading, leadingWidth_lower, layoutStartTag_lower, StartTag.lower_name,
    isInline_lower]

/-! ## All nodes -/

theorem layoutEnding_lower (heading : Heading) (endTag : Option EndTag) (inner : Progress) :
    settings.layoutEnding heading (endTag.map EndTag.lower) inner =
      settings.layoutEnding heading endTag inner := by
  cases endTag with
  | none => rfl
  | some tag => simp only [layoutEnding, Option.map_some, EndTag.lower, length_lower]

theorem layoutBody_lower (id : Nat) (name : List Char) (heading : Heading)
    (content : Nat → Draft → Body) :
    settings.layoutBody id (Text.lower name) heading content =
      settings.layoutBody id name heading content := by
  simp only [layoutBody, doesNotIndentChildrenOf, listed_lower]

mutual

/-- A node in lower case is laid out as the node is. -/
theorem layoutNode_lower (node : Node) (progress : Progress) :
    settings.layoutNode node.lower progress = settings.layoutNode node progress := by
  cases node with
  | leaf leaf => exact settings.layoutLeaf_lower leaf progress
  | element elem children =>
      rw [Node.lower, layoutNode, layoutNode, Element.lower_tag, layoutHeading_lower,
        contentOf_lower, Element.preserved_lower]
      cases settings.contentOf elem.tag with
      | empty => rfl
      | verbatim =>
          -- what is copied leads to the same position, and the blanks left over are no letters
          simp only [Cursor.write_lower]
          rfl
      | formatted =>
          simp only [layoutNodes_lower, Element.lower_endTag, layoutEnding_lower,
            Element.lower_name, layoutBody_lower, Element.lower_id]

theorem layoutNodes_lower (nodes : List Node) (progress : Progress) :
    settings.layoutNodes (Node.lowerAll nodes) progress = settings.layoutNodes nodes progress := by
  cases nodes with
  | nil => rfl
  | cons node rest =>
      rw [Node.lowerAll, layoutNodes, layoutNodes, layoutNode_lower, layoutNodes_lower]

end

theorem layoutDocument_lower (document : Document) :
    settings.layoutDocument document.lower = settings.layoutDocument document := by
  rw [layoutDocument, layoutDocument, Document.lower_children, layoutNodes_lower,
    Document.lower_count]

end Settings

/-! ## Part of a document -/

theorem Node.span_lower (node : Node) : node.lower.span = node.span := by
  cases node <;> rfl

theorem Node.id_lower (node : Node) : node.lower.id = node.id := by
  cases node <;> rfl

theorem Span.normalize_lower (range : Span) (text : List Char) :
    range.normalize (Text.lower text) = range.normalize text := by
  rw [normalize, floorBoundary_lower, ceilBoundary_lower, normalize]

theorem upToLast_lower (range : Span) (nodes : List Node) :
    upToLast range (Node.lowerAll nodes) = Node.lowerAll (upToLast range nodes) := by
  induction nodes with
  | nil => rfl
  | cons node rest ih =>
      rw [Node.lowerAll, upToLast, upToLast, ih, Node.span_lower]
      cases upToLast range rest with
      | nil => cases hoverlaps : node.span.overlaps range <;> simp [Node.lowerAll]
      | cons other others => rfl

namespace Selection

@[simps]
def lower (selection : Selection) : Selection :=
  ⟨selection.container.map Element.lower, selection.before.map Node.lower, selection.first.lower,
    Node.lowerAll selection.rest⟩

theorem nodes_lower (selection : Selection) :
    selection.lower.nodes = Node.lowerAll selection.nodes := rfl

theorem id_last_lower (selection : Selection) : selection.lower.last.id = selection.last.id := by
  obtain ⟨container, before, first, rest⟩ := selection
  simp only [lower, last, Node.lowerAll_eq_map, List.getLast?_map]
  cases rest.getLast? <;> exact Node.id_lower _

end Selection

namespace Settings

variable (settings : Settings)

mutual

theorem selectWithin_lower (range : Span) (container : Option Element) (before : Option Node)
    (node : Node) :
    settings.selectWithin range (container.map Element.lower) (before.map Node.lower) node.lower =
      (settings.selectWithin range container before node).map Selection.lower := by
  cases node with
  | leaf leaf => rfl
  | element elem children =>
      have hinner := selectAmong_lower range (some elem) none children
      rw [Option.map_some, Option.map_none] at hinner
      have hcontent : elem.lower.content = elem.content := rfl
      rw [Node.lower, selectWithin, selectWithin, Element.lower_name, preserves_lower,
        hinner, hcontent]
      split
      next => split <;> rfl
      next => rfl

theorem selectAmong_lower (range : Span) (container : Option Element) (before : Option Node)
    (nodes : List Node) :
    settings.selectAmong range (container.map Element.lower) (before.map Node.lower)
        (Node.lowerAll nodes) =
      (settings.selectAmong range container before nodes).map Selection.lower := by
  cases nodes with
  | nil => rfl
  | cons node rest =>
      have hrest := selectAmong_lower range container (some node) rest
      rw [Option.map_some] at hrest
      rw [Node.lowerAll, selectAmong, selectAmong, Node.span_lower, upToLast_lower, hrest,
        selectWithin_lower]
      cases upToLast range rest with
      | nil => split <;> rfl
      | cons other others => split <;> rfl

end

theorem select_lower (document : Document) (range : Span) :
    settings.select document.lower range = (settings.select document range).map Selection.lower :=
  settings.selectAmong_lower range none none document.children

theorem lineIndent_lower (source : List Char) (offset : Nat) :
    lineIndent (Text.lower source) offset = lineIndent source offset := by
  have hindent : Caseless fun c => c == ' ' || c == '\t' := .of_letters (by decide)
  simp only [lineIndent, takeBytes_lower, dropBytes_lower, lastLine_lower, ← lower_append,
    takeWhile_lower hindent, length_lower]

theorem nestedIndent_lower (source : List Char) (container : Option Element) :
    settings.nestedIndent (Text.lower source) (container.map Element.lower) =
      settings.nestedIndent source container := by
  cases container with
  | none => rfl
  | some elem =>
      have hsteps : ∀ height, settings.stepsChildren elem.lower height =
          settings.stepsChildren elem height := fun height => by
        simp only [stepsChildren, Element.lower_name, doesNotIndentChildrenOf, listed_lower]
      simp only [nestedIndent, Option.map_some, lineIndent_lower, dropBytes_lower, takeBytes_lower,
        newlines_lower, hsteps]
      rfl

theorem leadText?_lower (blank : Bool) (before : Option Node) :
    leadText? blank (before.map Node.lower) = (leadText? blank before).map Leaf.lower := by
  cases before with
  | none => rfl
  | some node =>
      cases node with
      | element elem children => rfl
      | leaf leaf =>
          simp only [leadText?, Option.map_some, Node.lower, Leaf.lower]
          rw [contains_lower rfl]
          split <;> rfl

theorem keepLines_lower (leaf : Leaf) : keepLines leaf.lower = keepLines leaf := by
  rw [keepLines, keepLines, Leaf.lower, Run.ofText_lower]
  cases Run.ofText leaf.raw with
  | blank leading => rfl
  | words leading first rest trailing => simp [Run.lower]

theorem layoutSelection_lower (document : Document) (selection : Selection) :
    settings.layoutSelection document.lower selection.lower =
      settings.layoutSelection document selection := by
  simp only [layoutSelection, Document.lower_source, Document.lower_count,
    Selection.lower_container, Selection.lower_before, Selection.lower_first, Node.span_lower,
      Node.id_lower,
    Selection.id_last_lower, Selection.nodes_lower, layoutNodes_lower, takeBytes_lower,
      lastLine_lower,
    allBlank_lower, length_lower, lineIndent_lower, nestedIndent_lower, leadText?_lower,
    Option.isSome_map]
  cases leadText? _ selection.before with
  | none => simp
  | some leaf =>
      simp only [Option.map_some, keepLines_lower]
      rfl

/-- A document in lower case has the same plan. -/
theorem plan_lower (document : Document) (range : Option Span) :
    settings.plan document.lower range = settings.plan document range := by
  cases range with
  | none => rw [plan, plan, layoutDocument_lower]
  | some range =>
      rw [plan, plan]
      simp only [Document.lower_source, Span.normalize_lower, select_lower]
      cases settings.select document (range.normalize document.source) with
      | none => rfl
      | some selection => simp only [Option.map_some, layoutSelection_lower]

end Settings

end Markup
