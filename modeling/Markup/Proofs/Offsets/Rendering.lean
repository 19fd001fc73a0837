import Markup.Proofs.Offsets.Reader
import Markup.Proofs.Offsets.Selection

/-!
# Formatting by byte offsets

A planned document is written with the gaps of a text reached by their indices, and with start tags
and preserved content cut out of the source. The whole of a formatting pass is then put together
from the scanner, the layout by offsets and this writer. Main statements: `Plan.render?_eq`, by
which no cut goes wrong whatever the plan says, and `format_fails_only`, by which a pass fails for
settings that are not accepted or for a text that is nested too deep, and for nothing else.
-/

namespace Markup

open Markup.Text

/-! ## Texts -/

/-- The words from the one with this index on, each behind the gap in front of it. -/
def wordPiecesFrom? (gaps : List Gap) : Nat → List Word → Option (List OutputPiece)
  | _, [] => some []
  | 0, word :: rest => do
      let others ← wordPiecesFrom? gaps 1 rest
      return fragmentPieces word ++ others
  | index + 1, word :: rest => do
      let before ← gaps[index]?
      let others ← wordPiecesFrom? gaps (index + 2) rest
      return before.pieces ++ (fragmentPieces word ++ others)

/-- A text with its layout. -/
def Leaf.renderText? (leaf : Leaf) (gaps : List Gap) :
    Option (Except RenderError (List OutputPiece)) := do
  let parts ← parts? (fragments leaf.raw)
  if gaps.length ≠ parts.words.length - 1 then return .error ⟨leaf.span.start, .words⟩
  else do
    let pieces ← wordPiecesFrom? gaps 0 parts.words
    return .ok pieces

/-- A leaf with its layout. -/
def Leaf.renderWith? (leaf : Leaf) (layout : Layout) :
    Option (Except RenderError (List OutputPiece)) :=
  match leaf.kind, layout with
  | .text, .text gaps => leaf.renderText? gaps
  | .comment, .atom => some (.ok leaf.pieces)
  | .verbatim, .atom => some (.ok leaf.pieces)
  | .doctype, .atom => some (.ok leaf.pieces)
  | _, _ => some (.error ⟨leaf.span.start, .kind⟩)

/-- Behind the first word, every word has a gap of its own, and no index is beyond the gaps. -/
theorem wordPiecesFrom?_append (before : List Gap) {gaps : List Gap} {words : List Word}
    (word : Word) (hlength : gaps.length = words.length) :
    (wordPiecesFrom? (before ++ gaps) (before.length + 1) words).map (fragmentPieces word ++ ·) =
      wordPieces? (word :: words) gaps := by
  induction words generalizing before gaps word with
  | nil =>
      obtain rfl := List.length_eq_zero_iff.mp hlength
      simp [wordPiecesFrom?, wordPieces?]
  | cons next rest ih =>
      obtain ⟨gap, others, rfl⟩ := List.exists_cons_of_length_eq_add_one hlength
      have hhere : (before ++ gap :: others)[before.length]? = some gap := by simp
      have hrest := ih (before ++ [gap]) next (Nat.succ.inj hlength)
      rw [List.append_assoc, List.singleton_append, List.length_append,
        List.length_singleton] at hrest
      rw [wordPiecesFrom?, wordPieces?, ← hrest, hhere]
      cases wordPiecesFrom? (before ++ gap :: others) (before.length + 2) rest with
      | none => rfl
      | some pieces => simp

/-- There is a gap for each word but the first, or the layout is refused. -/
theorem wordPieces?_eq_none {gaps : List Gap} {words : List Word}
    (hlength : gaps.length ≠ words.length - 1) : wordPieces? words gaps = none := by
  induction words generalizing gaps with
  | nil =>
      cases gaps with
      | nil => exact absurd rfl hlength
      | cons gap others => rfl
  | cons word rest ih =>
      cases rest with
      | nil =>
          cases gaps with
          | nil => exact absurd rfl hlength
          | cons gap others => rfl
      | cons next words =>
          cases gaps with
          | nil => rfl
          | cons gap others =>
              rw [wordPieces?, ih (by simpa using hlength)]
              rfl

/-- The words are reached by their indices, as many gaps as there are between them. -/
theorem exists_wordPieces {gaps : List Gap} {words : List Word}
    (hlength : gaps.length = words.length - 1) :
    ∃ pieces, wordPiecesFrom? gaps 0 words = some pieces ∧
      wordPieces? words gaps = some pieces := by
  cases words with
  | nil =>
      obtain rfl := List.length_eq_zero_iff.mp hlength
      exact ⟨[], rfl, rfl⟩
  | cons word rest =>
      have hindexed := wordPiecesFrom?_append [] word (show gaps.length = rest.length from hlength)
      obtain ⟨pieces, hpieces, -⟩ := @Settings.wordPieces?_of_gaps word
        (rest.map fun next => ([], next)) gaps (by simpa using hlength)
      rw [List.map_map, show rest.map (Prod.snd ∘ fun next => ([], next)) = rest from
        List.map_id rest] at hpieces
      obtain ⟨others, hothers, rfl⟩ := Option.map_eq_some_iff.mp (hindexed.trans hpieces)
      refine ⟨_, ?_, hpieces⟩
      rw [List.nil_append, List.length_nil] at hothers
      rw [wordPiecesFrom?, hothers]
      rfl

theorem Leaf.renderText?_eq {leaf : Leaf} (hkind : leaf.kind = .text) (gaps : List Gap) :
    leaf.renderText? gaps = some (leaf.renderWith (.text gaps)) := by
  unfold renderText? renderWith
  simp only [parts?_eq, Run.parts, hkind, Option.bind_eq_bind, Option.bind_some, Option.pure_def]
  split_ifs with hlength
  · rw [wordPieces?_eq_none hlength]
  · obtain ⟨pieces, hindexed, hpieces⟩ := exists_wordPieces (Decidable.not_not.mp hlength)
    rw [hindexed, hpieces]
    rfl

theorem Leaf.renderWith?_eq (leaf : Leaf) (layout : Layout) :
    leaf.renderWith? layout = some (leaf.renderWith layout) := by
  obtain ⟨kind, id, raw, span⟩ := leaf
  cases kind with
  | text =>
      cases layout with
      | text gaps => exact renderText?_eq rfl gaps
      | element attributes tagEnd content endTag => rfl
      | atom => rfl
  | comment => cases layout <;> rfl
  | verbatim => cases layout <;> rfl
  | doctype => cases layout <;> rfl

namespace Plan

mutual

/-- Writes a node. -/
def render? (plan : Plan) (source : List Char) :
    Node → Option (Except RenderError (List OutputPiece))
  | .leaf leaf =>
      match plan.get? leaf.id with
      | none => some (.ok leaf.pieces)
      | some decision => do
          let inside ← leaf.renderWith? decision.layout
          return inside.map fun inside =>
            decision.before.pieces ++ (inside ++ decision.after.pieces)
  | .element elem children =>
      match plan.get? elem.id with
      | none => do
          let opened ← slice? source elem.opened.start elem.opened.stop
          let inside ← renderAll? plan source children
          return inside.map fun inside => emit .tag opened ++ (inside ++ emit .tag elem.endText)
      | some decision =>
          match decision.layout with
          | .element attributes tagEnd content endGap =>
              if attributes.length ≠ elem.tag.attributes.length then
                some (.error ⟨elem.span.start, .attributes⟩)
              else do
                let inside : Except RenderError (List OutputPiece) ←
                  match content with
                  | .empty => some (.ok [])
                  | .verbatim =>
                      (elem.preservedStop? source).bind fun stop =>
                        (slice? source elem.opened.stop stop).map fun kept =>
                          .ok (emit .verbatim kept)
                  | .formatted =>
                      (renderAll? plan source children).map fun inner =>
                        inner.map fun inner => inner ++ endPieces elem.endTag endGap
                return inside.map fun inside => decision.before.pieces ++
                  (elem.tag.pieces attributes tagEnd ++ (inside ++ decision.after.pieces))
          | _ => some (.error ⟨elem.span.start, .kind⟩)

/-- Writes nodes that follow each other, up to the first that its decision does not fit. -/
def renderAll? (plan : Plan) (source : List Char) :
    List Node → Option (Except RenderError (List OutputPiece))
  | [] => some (.ok [])
  | node :: rest => do
      let first ← render? plan source node
      match first with
      | .error failure => return .error failure
      | .ok first => do
          let others ← renderAll? plan source rest
          return others.map (first ++ ·)

end

/-- Writes a document. -/
def renderDocument? (plan : Plan) (document : Document) :
    Option (Except RenderError (List OutputPiece)) := do
  let written ← plan.renderAll? document.source document.children
  return written.map (· ++ plan.ending.pieces)

mutual

/-- A node that stands in the source is written by offsets as it is, whatever the plan says. -/
theorem render?_eq (plan : Plan) {source front after : List Char} (node : Node)
    (hsource : source = front ++ (node.text ++ after)) (hlies : node.Lies (byteSize front)) :
    plan.render? source node = some (plan.render node) := by
  cases node with
  | leaf leaf =>
      rw [render?, render]
      cases plan.get? leaf.id with
      | none => rfl
      | some decision =>
          simp only [Leaf.renderWith?_eq, Option.bind_eq_bind, Option.bind_some]
          cases leaf.renderWith decision.layout <;> rfl
  | element elem children =>
      obtain ⟨hopened, hinner, -⟩ := id hlies
      obtain ⟨hstart, hend⟩ := Settings.stops_of_lies hlies
      rw [Node.text_element] at hsource
      have htagged : source =
          front ++ elem.tag.text ++ (Node.textOfAll children ++ elem.endText) ++ after := by
        rw [hsource]
        simp
      -- the children are written by offsets only if they are to be laid out or copied one by one
      have hchildren : plan.renderAll? source children = some (plan.renderAll children) := by
        have hinside : source = (front ++ elem.tag.text) ++
            (Node.textOfAll children ++ (elem.endText ++ after)) := by
          rw [htagged]
          simp
        refine renderAll?_eq plan children hinside ?_
        rwa [← hstart]
      rw [render?, render]
      cases plan.get? elem.id with
      | none =>
          have hcut : slice? source elem.opened.start elem.opened.stop = some elem.tag.text := by
            rw [hstart, hopened]
            exact slice?_of_eq (htagged.trans (List.append_assoc _ _ _))
          simp only [hcut, hchildren, Option.bind_eq_bind, Option.bind_some]
          cases plan.renderAll children <;> rfl
      | some decision =>
          dsimp only
          cases decision.layout with
          | text gaps => rfl
          | atom => rfl
          | element attributes tagEnd content endGap =>
              dsimp only
              split_ifs with hlength
              · rfl
              · cases content with
                | empty => rfl
                | verbatim =>
                    obtain ⟨stop, hfound, hkept, -, -⟩ :=
                      Settings.exists_preserved htagged hstart hend
                    simp only [hfound, hkept, Option.bind_eq_bind, Option.bind_some]
                    rfl
                | formatted =>
                    simp only [hchildren, Option.bind_eq_bind]
                    cases plan.renderAll children <;> rfl

/-- Nodes that stand in the source are written by offsets as they are. -/
theorem renderAll?_eq (plan : Plan) {source front after : List Char} (nodes : List Node)
    (hsource : source = front ++ (Node.textOfAll nodes ++ after))
    (hlie : Node.LieFrom nodes (byteSize front)) :
    plan.renderAll? source nodes = some (plan.renderAll nodes) := by
  cases nodes with
  | nil => rfl
  | cons node rest =>
      obtain ⟨hnode, hrest⟩ := hlie
      rw [Node.textOfAll_cons, List.append_assoc] at hsource
      rw [← byteSize_append] at hrest
      have hbehind : source = (front ++ node.text) ++ (Node.textOfAll rest ++ after) := by
        rw [hsource, List.append_assoc]
      rw [renderAll?, renderAll, render?_eq plan node hsource hnode,
        renderAll?_eq plan rest hbehind hrest]
      cases plan.render node with
      | error failure => rfl
      | ok first => cases plan.renderAll rest <;> rfl

end

theorem renderDocument?_eq (plan : Plan) {text : List Char} {document : Document}
    (hparse : parse text = .ok document) :
    plan.renderDocument? document = some (plan.renderDocument document) := by
  have hsource : document.source = [] ++ (Node.textOfAll document.children ++ []) := by
    rw [Document.source_of_parse hparse, List.nil_append, List.append_nil,
      Document.textOfAll_of_parse hparse]
  have hwritten := plan.renderAll?_eq document.children hsource (Document.lieFrom_of_parse hparse)
  unfold renderDocument? renderDocument
  simp only [hwritten, Option.bind_eq_bind, Option.bind_some]
  cases plan.renderAll document.children <;> rfl

end Plan

/-! ## Formatting -/

/-- Formats a text, or the part of it that a range selects, into pieces of output. -/
def Settings.formatPieces? (settings : Settings) (text : List Char) (range : Option Span) :
    Option (Except FormatError (List OutputPiece)) :=
  match settings.check with
  | .error problem => some (.error (.settings problem))
  | .ok () => do
      let read ← Scanner.document? text
      match read with
      | .error failure => return .error (.tooDeep failure)
      | .ok document => do
          let planned ← settings.plan? document range
          match planned with
          | .error problem => return .error (.settings problem)
          | .ok plan => do
              let written ← plan.renderDocument? document
              return written.mapError .misfit

/-- Every cut that is made on the way from a text to the pieces of output goes right. -/
theorem Settings.formatPieces?_eq {settings : Settings}
    (hlimit : settings.keepBlankLines < 2 ^ 64 - 1) (text : List Char) (range : Option Span) :
    settings.formatPieces? text range = some (formatPieces settings text range) := by
  unfold formatPieces? formatPieces
  cases settings.check with
  | error problem => rfl
  | ok =>
      simp only [Scanner.document?_eq, Option.bind_eq_bind, Option.bind_some]
      cases hparse : parse text with
      | error failure => rfl
      | ok document =>
          simp only [plan?_eq hlimit hparse, Option.bind_some]
          cases hplan : settings.plan document range with
          | error problem => simp [bind, Except.bind, hplan]
          | ok plan =>
              simp only [plan.renderDocument?_eq hparse, Option.bind_some]
              simp [bind, Except.bind, hplan]

/-- For settings that are accepted and a text that is not nested too deep there are pieces of
output, whatever the range. -/
theorem exists_formatPieces {settings : Settings} {text : List Char} {document : Document}
    (hcheck : settings.check = .ok ()) (hparse : parse text = .ok document) (range : Option Span) :
    ∃ pieces, formatPieces settings text range = .ok pieces := by
  obtain ⟨plan, hplan, hsuits, -⟩ := Settings.exists_plan hcheck hparse range
  obtain ⟨pieces, hpieces, -⟩ :=
    plan.renderAll_writes document.children (Document.sound_of_parse hparse) hsuits
  refine ⟨pieces ++ plan.ending.pieces, ?_⟩
  simp only [formatPieces, hcheck, hparse, hplan, Plan.renderDocument, hpieces, mapError_ok, bind,
    Except.bind]
  rfl

/-- A formatting pass fails for settings that are not accepted, else for a text that is nested too
deep, and else never, for any range and with any palette. No cut out of a text leaves it or parts a
character, no index is beyond its list, and no difference is negative, all the way from the text to
the pieces of output. -/
theorem format_fails_only {settings : Settings} (hlimit : settings.keepBlankLines < 2 ^ 64 - 1)
    (text : String) (range : Option Span) :
    settings.formatPieces? text.toList range = some (formatPieces settings text.toList range) ∧
    (∀ problem, settings.check = .error problem →
      ∀ palette, format palette settings text range = .error (.settings problem)) ∧
    (settings.check = .ok () → ∀ failure, parse text.toList = .error failure →
      ∀ palette, format palette settings text range = .error (.tooDeep failure)) ∧
    (settings.check = .ok () → ∀ document, parse text.toList = .ok document →
      ∃ pieces, formatPieces settings text.toList range = .ok pieces ∧
        ∀ palette, format palette settings text range =
          .ok (String.ofList (palette.render pieces))) ∧
    ∀ palette failure, format palette settings text range ≠ .error (.misfit failure) := by
  have hrefused : ∀ problem, settings.check = .error problem →
      formatPieces settings text.toList range = .error (.settings problem) := by
    intro problem hcheck
    simp only [formatPieces, hcheck]
    rfl
  have hdeep : settings.check = .ok () → ∀ failure, parse text.toList = .error failure →
      formatPieces settings text.toList range = .error (.tooDeep failure) := by
    intro hcheck failure hparse
    simp only [formatPieces, hcheck, hparse]
    rfl
  refine ⟨Settings.formatPieces?_eq hlimit _ range, fun problem hcheck palette => ?_,
    fun hcheck failure hparse palette => ?_, fun hcheck document hparse => ?_,
      fun palette failure => ?_⟩
  · rw [format_eq_map, hrefused problem hcheck]
    rfl
  · rw [format_eq_map, hdeep hcheck failure hparse]
    rfl
  · obtain ⟨pieces, hpieces⟩ := exists_formatPieces hcheck hparse range
    refine ⟨pieces, hpieces, fun palette => ?_⟩
    rw [format_eq_map, hpieces]
    rfl
  · -- the settings and the text are all that the outcome hangs on
    rw [format_eq_map]
    cases hcheck : settings.check with
    | error problem =>
        rw [hrefused problem hcheck]
        simp [Except.map]
    | ok =>
        cases hparse : parse text.toList with
        | error problem =>
            rw [hdeep hcheck problem hparse]
            simp [Except.map]
        | ok document =>
            obtain ⟨pieces, hpieces⟩ := exists_formatPieces hcheck hparse range
            rw [hpieces]
            simp [Except.map]

/-- A range with its ends swapped, one of them inside a character and the other far beyond the end
of a text that breaks off in a start tag. -/
theorem format_fails_only_swapped :
    let settings : Settings := { heightLimit := 2 }
    let text := "<p>\n é <b>x</b> <i y"
    let range : Option Span := some ⟨90, 6⟩
    settings.keepBlankLines < 2 ^ 64 - 1 ∧ settings.check = .ok () ∧
      settings.formatPieces? text.toList range = some (formatPieces settings text.toList range) ∧
        ∃ document pieces, parse text.toList = .ok document ∧
          formatPieces settings text.toList range = .ok pieces ∧
            format .plain settings text range = .ok (String.ofList (joinPieces pieces)) ∧
              joinPieces pieces = "<p>\n é <b>x</b> <i y".toList := by
  intro settings text range
  have hlimit : settings.keepBlankLines < 2 ^ 64 - 1 := by decide
  have hcheck : settings.check = .ok () := by with_unfolding_all rfl
  obtain ⟨hcuts, -, -, hformats, -⟩ := format_fails_only hlimit text range
  have hread : (parse text.toList).toOption.isSome = true := by decide +kernel
  obtain ⟨document, hdocument⟩ := Option.isSome_iff_exists.mp hread
  have hparse := toOption_eq_some_iff.mp hdocument
  obtain ⟨pieces, hpieces, hformat⟩ := hformats hcheck document hparse
  have hwritten : (formatPieces settings text.toList range).toOption.map joinPieces =
      some "<p>\n é <b>x</b> <i y".toList := by decide +kernel
  rw [hpieces] at hwritten
  exact ⟨hlimit, hcheck, hcuts, document, pieces, hparse, hpieces, hformat .plain,
    Option.some.inj hwritten⟩

end Markup
