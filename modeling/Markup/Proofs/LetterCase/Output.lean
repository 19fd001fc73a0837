import Markup.Format
import Markup.Proofs.LetterCase.Plan

/-!
# Formatting in any case

Texts that are the same up to the case of letters are read as the same tree, laid out in the same
way and written with the same blanks in the same places. Main statement: `format_caseless`.
-/

namespace Markup

open Markup.Text

/-! ## Pieces of output -/

def OutputPiece.lower (piece : OutputPiece) : OutputPiece :=
  { piece with text := Text.lower piece.text }

def lowerPieces (pieces : List OutputPiece) : List OutputPiece :=
  pieces.map OutputPiece.lower

@[simp]
theorem lowerPieces_nil : lowerPieces [] = [] := rfl

@[simp]
theorem lowerPieces_append (first second : List OutputPiece) :
    lowerPieces (first ++ second) = lowerPieces first ++ lowerPieces second :=
  List.map_append

@[simp]
theorem lowerPieces_emit_lower (role : Role) (text : List Char) :
    lowerPieces (emit role (Text.lower text)) = lowerPieces (emit role text) := by
  cases text with
  | nil => rfl
  | cons c rest => simp [emit, lowerPieces, OutputPiece.lower, caseless_toLower c, lower_lower]

/-- Neither palette tells letters in upper case from those in lower case. -/
theorem Palette.lower_style (palette : Palette) (role : Role) (text : List Char) :
    Text.lower (palette.style role (Text.lower text)) = Text.lower (palette.style role text) := by
  cases palette with
  | plain => exact lower_lower text
  | terminal =>
      cases role <;> simp only [style, bold, italic, coloured, between, lower_append, lower_lower]

theorem Palette.lower_render {first second : List OutputPiece}
    (hsame : lowerPieces first = lowerPieces second) (palette : Palette) :
    Text.lower (palette.render first) = Text.lower (palette.render second) := by
  have hrender : ∀ pieces, Text.lower (palette.render pieces) =
      (lowerPieces pieces).flatMap fun piece =>
        Text.lower (palette.style piece.role piece.text) := by
    intro pieces
    induction pieces with
    | nil => rfl
    | cons piece rest ih =>
        rw [render, List.flatMap_cons, lower_append, ← lower_style]
        exact congrArg (_ ++ ·) ih
  rw [hrender, hrender, hsame]

/-! ## Nodes -/

theorem Attribute.pieces_lower (attr : Attribute) (quote : Option Quote) :
    lowerPieces (attr.lower.pieces quote) = lowerPieces (attr.pieces quote) := by
  obtain ⟨gap, name, value⟩ := attr
  cases value with
  | none => simp [pieces, lower]
  | some value => simp [pieces, lower, AttributeValue.lower]

theorem Attribute.zip_pieces_lower (attrs : List Attribute) (layouts : List AttributeLayout) :
    lowerPieces (((attrs.map lower).zip layouts).flatMap fun pair =>
        pair.2.gap.pieces ++ pair.1.pieces pair.2.quote) =
      lowerPieces ((attrs.zip layouts).flatMap fun pair =>
        pair.2.gap.pieces ++ pair.1.pieces pair.2.quote) := by
  induction attrs generalizing layouts with
  | nil => simp
  | cons attr rest ih =>
      cases layouts with
      | nil => rfl
      | cons layout others => simp [ih, pieces_lower]

theorem StartTag.pieces_lower (tag : StartTag) (layouts : List AttributeLayout) (tagEnd : Gap) :
    lowerPieces (tag.lower.pieces layouts tagEnd) = lowerPieces (tag.pieces layouts tagEnd) := by
  have hattributes := Attribute.zip_pieces_lower tag.attributes layouts
  simp only [pieces, lowerPieces_append, lower, lowerPieces_emit_lower]
  exact congrArg (fun attributes => _ ++ (_ ++ (attributes ++ _))) hattributes

theorem endPieces_lower (endTag : Option EndTag) (gap : Gap) :
    lowerPieces (endPieces (endTag.map EndTag.lower) gap) = lowerPieces (endPieces endTag gap) := by
  cases endTag with
  | none => rfl
  | some tag => simp [endPieces, EndTag.pieces, EndTag.lower]

theorem fragmentPieces_lower (pieces : List Fragment) :
    lowerPieces (fragmentPieces (pieces.map Fragment.lower)) =
      lowerPieces (fragmentPieces pieces) := by
  induction pieces with
  | nil => rfl
  | cons piece rest ih =>
      simp only [fragmentPieces, List.map_cons, List.flatMap_cons, lowerPieces_append] at ih ⊢
      rw [ih, Fragment.lower, lowerPieces_emit_lower]

theorem wordPieces?_lower (words : List Word) (gaps : List Gap) :
    (wordPieces? (words.map Word.lower) gaps).map lowerPieces =
      (wordPieces? words gaps).map lowerPieces := by
  induction words generalizing gaps with
  | nil => rfl
  | cons word rest ih =>
      cases rest with
      | nil =>
          cases gaps with
          | nil => exact congrArg some (fragmentPieces_lower word)
          | cons gap others => rfl
      | cons next words =>
          cases gaps with
          | nil => rfl
          | cons gap others =>
              -- a word and the gap behind it are put in front of what the further words give
              have hfront : ∀ (word : Word) (rest : Option (List OutputPiece)),
                  (rest.map fun pieces => fragmentPieces word ++ (gap.pieces ++ pieces)).map
                    lowerPieces =
                  (rest.map lowerPieces).map fun pieces =>
                    lowerPieces (fragmentPieces word) ++ (lowerPieces gap.pieces ++ pieces) := by
                intro word rest
                cases rest <;> simp
              have hword : lowerPieces (fragmentPieces (Word.lower word)) =
                  lowerPieces (fragmentPieces word) := fragmentPieces_lower word
              simp only [List.map_cons, wordPieces?] at ih ⊢
              rw [hfront, hfront, ih, hword]

theorem Leaf.pieces_lower (leaf : Leaf) :
    lowerPieces leaf.lower.pieces = lowerPieces leaf.pieces := by
  obtain ⟨kind, id, raw, span⟩ := leaf
  cases kind with
  | text => simp only [pieces, lower, fragments_lower, fragmentPieces_lower]
  | comment => exact lowerPieces_emit_lower _ raw
  | verbatim => exact lowerPieces_emit_lower _ raw
  | doctype => exact lowerPieces_emit_lower _ raw

theorem Leaf.renderWith_lower (leaf : Leaf) (layout : Layout) :
    (leaf.lower.renderWith layout).map lowerPieces = (leaf.renderWith layout).map lowerPieces := by
  have hpieces := leaf.pieces_lower
  obtain ⟨kind, id, raw, span⟩ := leaf
  cases kind with
  | text =>
      cases layout with
      | text gaps =>
          have hwords := wordPieces?_lower (Run.ofText raw).wordList gaps
          simp only [renderWith, lower, Run.ofText_lower, Run.wordList_lower]
          cases hfirst : wordPieces? ((Run.ofText raw).wordList.map Word.lower) gaps <;>
            cases hsecond : wordPieces? (Run.ofText raw).wordList gaps <;>
              rw [hfirst, hsecond] at hwords <;> simp_all [Except.map]
      | element attributes tagEnd content endTag => rfl
      | atom => rfl
  | comment => cases layout <;> first | rfl | exact congrArg Except.ok hpieces
  | verbatim => cases layout <;> first | rfl | exact congrArg Except.ok hpieces
  | doctype => cases layout <;> first | rfl | exact congrArg Except.ok hpieces

/-- A start tag and what stands around it are written alike in lower case, if what follows the tag
is. -/
theorem wrapped_lower {tag : StartTag} {attributes : List AttributeLayout} {tagEnd : Gap}
    {before after inside twin : List OutputPiece}
    (hinside : lowerPieces inside = lowerPieces twin) :
    lowerPieces (before ++ (tag.lower.pieces attributes tagEnd ++ (inside ++ after))) =
      lowerPieces (before ++ (tag.pieces attributes tagEnd ++ (twin ++ after))) := by
  simp only [lowerPieces_append, StartTag.pieces_lower, hinside]

theorem map_endPieces_lower {ε : Type} {first second : Except ε (List OutputPiece)}
    (hsame : first.map lowerPieces = second.map lowerPieces) (endTag : Option EndTag) (gap : Gap) :
    (first.map fun inner => inner ++ endPieces (endTag.map EndTag.lower) gap).map lowerPieces =
      (second.map fun inner => inner ++ endPieces endTag gap).map lowerPieces := by
  refine map_map_congr hsame fun inner twin hinner => ?_
  rw [lowerPieces_append, lowerPieces_append, hinner, endPieces_lower]

namespace Plan

mutual

theorem render_lower (plan : Plan) (node : Node) :
    (plan.render node.lower).map lowerPieces = (plan.render node).map lowerPieces := by
  cases node with
  | leaf leaf =>
      rw [Node.lower, render, render, Leaf.lower_id]
      cases plan.get? leaf.id with
      | none => exact congrArg Except.ok leaf.pieces_lower
      | some decision =>
          refine map_bind_congr (leaf.renderWith_lower decision.layout)
            fun inside twin hinside => ?_
          refine congrArg Except.ok ?_
          simp only [lowerPieces_append, hinside]
  | element elem children =>
      have hchildren := plan.renderAll_lower children
      rw [Node.lower, render, render, Element.lower_id]
      cases plan.get? elem.id with
      | none =>
          refine map_bind_congr hchildren fun inside twin hinside => ?_
          refine congrArg Except.ok ?_
          simp only [lowerPieces_append, hinside, Element.lower_tag, StartTag.text_lower,
            Element.endText_lower, lowerPieces_emit_lower]
      | some decision =>
          obtain ⟨before, after, indent, layout⟩ := decision
          cases layout with
          | text gaps => rfl
          | atom => rfl
          | element attributes tagEnd content endGap =>
              have hlength : elem.lower.tag.attributes.length = elem.tag.attributes.length :=
                List.length_map _
              simp only [hlength]
              split
              next => rfl
              next =>
                -- only what stands between the two tags depends on how the content comes about
                have hwhole := fun inside twin =>
                  @wrapped_lower elem.tag attributes tagEnd before.pieces after.pieces inside twin
                cases content with
                | empty => exact congrArg Except.ok (hwhole _ _ rfl)
                | verbatim =>
                    refine congrArg Except.ok (hwhole _ _ ?_)
                    rw [Element.preserved_lower, lowerPieces_emit_lower]
                | formatted =>
                    have hinside := map_endPieces_lower hchildren elem.endTag endGap
                    exact map_bind_congr hinside fun a b hab => congrArg Except.ok (hwhole a b hab)

theorem renderAll_lower (plan : Plan) (nodes : List Node) :
    (plan.renderAll (Node.lowerAll nodes)).map lowerPieces =
      (plan.renderAll nodes).map lowerPieces := by
  cases nodes with
  | nil => rfl
  | cons node rest =>
      rw [Node.lowerAll, renderAll, renderAll]
      refine map_bind_congr (plan.render_lower node) fun first twin hfirst => ?_
      refine map_bind_congr (plan.renderAll_lower rest) fun others twins hothers => ?_
      refine congrArg Except.ok ?_
      rw [lowerPieces_append, lowerPieces_append, hfirst, hothers]

end

theorem renderDocument_lower (plan : Plan) (document : Document) :
    (plan.renderDocument document.lower).map lowerPieces =
      (plan.renderDocument document).map lowerPieces := by
  refine map_bind_congr (plan.renderAll_lower document.children) fun pieces twin hpieces => ?_
  refine congrArg Except.ok ?_
  rw [lowerPieces_append, lowerPieces_append, hpieces]

end Plan

/-! ## Documents in any case -/

theorem parse_caseless {first second : List Char} (hsame : sameName first second = true)
    (hfirst : Token.marksSection first = false) (hsecond : Token.marksSection second = false) :
    (parse first).map Document.lower = (parse second).map Document.lower := by
  rw [← parse_lower hfirst, ← parse_lower hsecond, sameName_iff.mp hsame]

theorem formatPieces_caseless (settings : Settings) {first second : List Char}
    (hsame : sameName first second = true) (hfirst : Token.marksSection first = false)
    (hsecond : Token.marksSection second = false) (range : Option Span) :
    (formatPieces settings first range).map lowerPieces =
      (formatPieces settings second range).map lowerPieces := by
  have hread : ((parse first).mapError FormatError.tooDeep).map Document.lower =
      ((parse second).mapError FormatError.tooDeep).map Document.lower := by
    rw [map_mapError, parse_caseless hsame hfirst hsecond, map_mapError]
  rw [formatPieces, formatPieces]
  cases settings.check with
  | error problem => rfl
  | ok _ =>
      change (((parse first).mapError FormatError.tooDeep >>= fun document => _).map lowerPieces) =
        (((parse second).mapError FormatError.tooDeep >>= fun document => _).map lowerPieces)
      refine map_bind_congr hread fun document twin htwin => ?_
      -- both documents are laid out as the one in lower case is
      have hplan : settings.plan document range = settings.plan twin range := by
        rw [← settings.plan_lower document, htwin, settings.plan_lower twin]
      rw [hplan]
      cases settings.plan twin range with
      | error problem => rfl
      | ok plan =>
          have hrender : (plan.renderDocument document).map lowerPieces =
              (plan.renderDocument twin).map lowerPieces := by
            rw [← plan.renderDocument_lower document, htwin, plan.renderDocument_lower twin]
          exact (map_mapError _ _ _).trans (hrender ▸ (map_mapError _ _ _).symm)

/-- Outputs that differ in the case of letters at most, and so have the same length and lines. -/
structure SameLines (first second : String) : Prop where
  text : sameName first.toList second.toList = true
  length : first.length = second.length
  feeds : ∀ index : Nat, first.toList[index]? = some '\n' ↔ second.toList[index]? = some '\n'

theorem sameLines_of_lower_eq {first second : List Char}
    (hsame : Text.lower first = Text.lower second) :
    SameLines (String.ofList first) (String.ofList second) := by
  have hfeed : ∀ (text : List Char) (index : Nat),
      text[index]? = some '\n' ↔ (Text.lower text)[index]? = some '\n' := by
    intro text index
    rw [Text.lower, List.getElem?_map]
    cases text[index]? with
    | none => simp
    | some c => simp [toLower_eq_iff]
  constructor
  · simpa using sameName_iff.mpr hsame
  · simpa using congrArg List.length hsame
  · intro index
    rw [String.toList_ofList, String.toList_ofList, hfeed first, hfeed second, hsame]

/-- The case of letters changes neither what a text is read as nor how it is laid out, except in the
mark that begins a CDATA section. -/
theorem format_caseless (palette : Palette) (settings : Settings) {first second : String}
    (hsame : sameName first.toList second.toList = true)
    (hfirst : Token.marksSection first.toList = false)
    (hsecond : Token.marksSection second.toList = false) (range : Option Span) :
    Agree Document.Alike (parse first.toList) (parse second.toList) ∧
      Agree SameLines (format palette settings first range)
        (format palette settings second range) := by
  constructor
  · exact (agree_of_map_eq (parse_caseless hsame hfirst hsecond)).mono fun _ _ =>
      Document.alike_of_lower_eq
  · have hpieces := formatPieces_caseless settings hsame hfirst hsecond range
    rw [format_eq_map, format_eq_map]
    exact (agree_of_map_eq hpieces).map fun _ _ hsame =>
      sameLines_of_lower_eq (palette.lower_render hsame)

/-- Two lists with items ended by other items, a reference and raw text, in different cases. -/
theorem format_caseless_list :
    let first := "<UL><LI Class=x>Fish &AMP; chips<li>Tea<Script>a</b</SCRIPT></ul>"
    let second := "<ul><li cLASS=X>fISH &amp; CHIPS<LI>tea<sCRIPT>A</B</script></UL>"
    sameName first.toList second.toList = true ∧ Token.marksSection first.toList = false ∧
      Token.marksSection second.toList = false ∧
      ∃ document twin output other, parse first.toList = .ok document ∧
        parse second.toList = .ok twin ∧ document.Alike twin ∧
        format .plain {} first none = .ok output ∧ format .plain {} second none = .ok other ∧
        SameLines output other := by
  intro first second
  have hsame : sameName first.toList second.toList = true := by decide +kernel
  have hfirst : Token.marksSection first.toList = false := by decide +kernel
  have hsecond : Token.marksSection second.toList = false := by decide +kernel
  obtain ⟨hparse, hformat⟩ := format_caseless .plain {} hsame hfirst hsecond none
  obtain ⟨document, twin, hdocument, htwin, halike⟩ := hparse.exists_ok (by decide +kernel)
  obtain ⟨output, other, houtput, hother, hlines⟩ := hformat.exists_ok (by decide +kernel)
  exact ⟨hsame, hfirst, hsecond, document, twin, output, other, hdocument, htwin, halike, houtput,
    hother, hlines⟩

end Markup
