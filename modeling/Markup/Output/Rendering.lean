import Markup.Text.Words
import Markup.Tree.Basic
import Markup.Plan.Basic
import Markup.Output.Fragment

/-!
# Writing a planned document

A document is written node by node. A node with a decision is written as decided, any other node as
it is in the source, though its children may have decisions again. A plan may have been made for
another document; writing fails at the first node that its decision does not fit.
-/

namespace Markup

open Markup.Text

/-- How a decision fails to fit its node. -/
inductive Misfit where
  | attributes
  | kind
  | words
  deriving DecidableEq, Repr, Inhabited

def Misfit.message : Misfit → String
  | attributes => "attribute layout out of step with the start tag"
  | kind => "layout does not match the kind of node"
  | words => "text layout out of step with its words"

/-- A node, given by the offset it begins at, that its decision does not fit. -/
structure RenderError where
  offset : Nat
  misfit : Misfit
  deriving DecidableEq, Repr, Inhabited

/-- What a gap is written as. -/
def Gap.pieces : Gap → List OutputPiece
  | nothing => []
  | space => emit .neutral [' ']
  | lineBreak newlines indent =>
      emit .newline (List.replicate newlines '\n') ++ emit .indent (List.replicate indent ' ')
  | kept text => emit .neutral text

/-- A gap is written as the text it stands for. -/
theorem Gap.joinPieces_pieces (gap : Gap) : joinPieces gap.pieces = gap.text := by
  cases gap with
  | nothing => rfl
  | space => rfl
  | lineBreak newlines indent =>
      simp only [pieces, joinPieces_append, joinPieces_emit, text]
  | kept text => exact joinPieces_emit _ _

/-- An attribute, with the quotes that its value gets. -/
def Attribute.pieces (attr : Attribute) (quote : Option Quote) : List OutputPiece :=
  emit .attributeName attr.name ++
    match attr.value with
    | none => []
    | some value =>
        emit .bracket ['='] ++ (emit .quote (quoteText quote) ++
          (emit .attributeValue value.raw ++ emit .quote (quoteText quote)))

/-- A start tag with its layout. -/
def StartTag.pieces (tag : StartTag) (layouts : List AttributeLayout) (tagEnd : Gap) :
    List OutputPiece :=
  emit .bracket ['<'] ++ (emit .tag tag.name ++
    ((tag.attributes.zip layouts).flatMap (fun (attr, layout) =>
        layout.gap.pieces ++ attr.pieces layout.quote) ++
      (tagEnd.pieces ++ emit .bracket tag.ending.text)))

/-- An end tag, of which only the name is kept. -/
def EndTag.pieces (tag : EndTag) : List OutputPiece :=
  emit .bracket ['<', '/'] ++ (emit .tag tag.name ++ emit .bracket ['>'])

/-- The end of an element: its end tag, if it has one, behind a gap. -/
def endPieces (endTag : Option EndTag) (gap : Gap) : List OutputPiece :=
  match endTag with
  | none => []
  | some tag => gap.pieces ++ tag.pieces

/-- The role of a fragment of running text. -/
def FragmentKind.role : FragmentKind → Role
  | .blank => .neutral
  | .characters => .text
  | .entity => .entity

/-- Fragments of running text as they are. -/
def fragmentPieces (fragments : List Fragment) : List OutputPiece :=
  fragments.flatMap fun fragment => emit (FragmentKind.role fragment.kind) fragment.raw

/-- The words of a text with gaps between them, if there is one gap between any two. -/
def wordPieces? : List Word → List Gap → Option (List OutputPiece)
  | [], [] => some []
  | [word], [] => some (fragmentPieces word)
  | word :: next :: words, gap :: gaps =>
      (wordPieces? (next :: words) gaps).map fun rest =>
        fragmentPieces word ++ (gap.pieces ++ rest)
  | _, _ => none

/-- The role of a leaf that is not running text. -/
def LeafKind.role : LeafKind → Role
  | .text => .text
  | .comment => .comment
  | .verbatim => .verbatim
  | .doctype => .doctype

/-- A leaf as it is in the source. -/
def Leaf.pieces (leaf : Leaf) : List OutputPiece :=
  match leaf.kind with
  | .text => fragmentPieces (fragments leaf.raw)
  | kind => emit (LeafKind.role kind) leaf.raw

/-- A leaf with its layout. -/
def Leaf.renderWith (leaf : Leaf) (layout : Layout) : Except RenderError (List OutputPiece) :=
  match leaf.kind, layout with
  | .text, .text gaps =>
      match wordPieces? (Run.ofText leaf.raw).wordList gaps with
      | some pieces => .ok pieces
      | none => .error ⟨leaf.span.start, .words⟩
  | .comment, .atom => .ok leaf.pieces
  | .verbatim, .atom => .ok leaf.pieces
  | .doctype, .atom => .ok leaf.pieces
  | _, _ => .error ⟨leaf.span.start, .kind⟩

namespace Plan

mutual

/-- Writes a node. -/
def render (plan : Plan) : Node → Except RenderError (List OutputPiece)
  | .leaf leaf =>
      match plan.get? leaf.id with
      | none => .ok leaf.pieces
      | some decision => do
          let inside ← leaf.renderWith decision.layout
          return decision.before.pieces ++ (inside ++ decision.after.pieces)
  | .element elem children =>
      match plan.get? elem.id with
      | none => do
          let inside ← renderAll plan children
          return emit .tag elem.tag.text ++ (inside ++ emit .tag elem.endText)
      | some decision =>
          match decision.layout with
          | .element attributes tagEnd content endGap =>
              if attributes.length ≠ elem.tag.attributes.length then
                .error ⟨elem.span.start, .attributes⟩
              else do
                let inside ←
                  match content with
                  | .empty => .ok []
                  | .verbatim => .ok (emit .verbatim (elem.preserved children).1)
                  | .formatted =>
                      (renderAll plan children).map fun inner =>
                        inner ++ endPieces elem.endTag endGap
                return decision.before.pieces ++ (elem.tag.pieces attributes tagEnd ++
                  (inside ++ decision.after.pieces))
          | _ => .error ⟨elem.span.start, .kind⟩

/-- Writes nodes that follow each other. -/
def renderAll (plan : Plan) : List Node → Except RenderError (List OutputPiece)
  | [] => .ok []
  | node :: rest => do
      let first ← render plan node
      let others ← renderAll plan rest
      return first ++ others

end

/-- Writes a document. -/
def renderDocument (plan : Plan) (document : Document) :
    Except RenderError (List OutputPiece) := do
  let pieces ← plan.renderAll document.children
  return pieces ++ plan.ending.pieces

end Plan

end Markup
