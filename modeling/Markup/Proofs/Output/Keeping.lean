import Markup.Proofs.Output.Proceeding
import Markup.Proofs.Reading.Uniqueness

/-!
# Keeping blanks

Where blanks are kept, they are still taken from their places and handed on to the gap in front of
the next item, be it levels further up. In the end each of them is where it was: only tags are
replaced. The result of formatting is the text of a tree that is the one of the source with its tags
laid out, less the blanks in front of the first item. Main statement: `format_of_keepWhitespaces`.
-/

namespace Markup

open Markup.Text

/-! ## A tree with its tags replaced -/

/-- The start tag of an element is laid out at the indent that is decided, from the column on where
this text ends. The blanks in front of the text do not count. -/
def Settings.LaysAt (settings : Settings) (plan : Plan) (before : List Char) (elem : Element)
    (laid : StartTag) : Prop :=
  ∃ decision cursor, plan.get? elem.id = some decision ∧
    cursor.column = columnAfter 0 (before.dropWhile isBlank) ∧
      laid = settings.layTag elem.tag decision.indent cursor

mutual

/-- Behind this text, a node with its tags replaced: the start tag of every element that is not
inside a preserved one is laid out, and the end tag of every one of them that is not preserved is
plain. All the rest is as it is. -/
def Node.Retagged (settings : Settings) (plan : Plan) (before : List Char) : Node → Node → Prop
  | .leaf piece, .leaf other => piece = other
  | .element elem children, .element other others =>
      settings.LaysAt plan before elem other.tag ∧
        if settings.contentOf elem.tag = .formatted then
          other.endTag = elem.endTag.map EndTag.plain ∧
            RetaggedAll settings plan (before ++ other.tag.text) children others
        else other.endTag = elem.endTag ∧ others = children
  | _, _ => False

/-- Behind this text, nodes with their tags replaced. -/
def Node.RetaggedAll (settings : Settings) (plan : Plan) (before : List Char) :
    List Node → List Node → Prop
  | [], [] => True
  | node :: rest, other :: others =>
      Node.Retagged settings plan before node other ∧
        RetaggedAll settings plan (before ++ other.text) rest others
  | _, _ => False

end

/-- Where there is nothing but blanks, there is no tag to be replaced. -/
theorem Node.text_eq_of_retaggedAll {settings : Settings} {plan : Plan} {nodes others : List Node}
    {before : List Char} (hretagged : Node.RetaggedAll settings plan before nodes others)
    (hblank : allBlank (Node.textOfAll nodes) = true ∨ allBlank (Node.textOfAll others) = true) :
    Node.textOfAll others = Node.textOfAll nodes := by
  have hsolid : ∀ (tag : StartTag) (rest : List Char), allBlank (tag.text ++ rest) = false := by
    intro tag rest
    rw [StartTag.text, List.cons_append, allBlank_cons]
    rfl
  induction nodes generalizing others before with
  | nil =>
      cases others with
      | nil => rfl
      | cons other more => exact hretagged.elim
  | cons node rest ih =>
      cases others with
      | nil => exact hretagged.elim
      | cons other more =>
          obtain ⟨hnode, hrest⟩ := hretagged
          simp only [Node.textOfAll_cons, allBlank_append, Bool.and_eq_true] at hblank
          cases node with
          | leaf leaf =>
              cases other with
              | leaf other =>
                  obtain rfl : leaf = other := hnode
                  rw [Node.textOfAll_cons, Node.textOfAll_cons,
                    ih hrest (hblank.imp And.right And.right)]
              | element elem children => exact hnode.elim
          | element elem children =>
              cases other with
              | leaf other => exact hnode.elim
              | element twin inner => simp [Node.text_element, hsolid] at hblank

/-! ## Gaps -/

theorem Text.dropWhile_isBlank_append_of_stopsAt {text : List Char} (hstops : StopsAt isBlank text)
    (before : List Char) :
    (before ++ text).dropWhile isBlank = before.dropWhile isBlank ++ text := by
  rw [List.dropWhile_append]
  split
  next hempty =>
    rw [List.isEmpty_iff.mp hempty, List.nil_append]
    exact Attribute.dropWhile_isBlank_append allBlank_nil hstops
  next => rfl

/-- Of a text, all has been written but the blanks that wait for the next item, and the blanks in
front of the first item. -/
inductive Keeps (fresh : Bool) (blanks before written : List Char) : Prop
  | fresh : fresh = true → written = [] → before = blanks → allBlank blanks = true →
      Keeps fresh blanks before written
  | begun : written ≠ [] → before.dropWhile isBlank = written ++ blanks →
      Keeps fresh blanks before written

namespace Keeps

variable {fresh : Bool} {blanks before written more : List Char}

/-- Further blanks wait. -/
theorem wait (hkeeps : Keeps fresh blanks before written) (hmore : allBlank more = true) :
    Keeps fresh (blanks ++ more) (before ++ more) written := by
  cases hkeeps with
  | fresh hfresh hwritten hbefore hblank =>
      exact .fresh hfresh hwritten (by rw [hbefore]) (by rw [allBlank_append, hblank, hmore]; rfl)
  | begun hwritten hbefore =>
      refine .begun hwritten ?_
      rw [List.dropWhile_append, if_neg (by simp [hbefore, hwritten]), hbefore, List.append_assoc]

/-- Behind the first item, whatever goes on as it was keeps its place, with blanks in front of it
that wait no longer and blanks behind it that do. -/
theorem pass (hkeeps : Keeps fresh blanks before written) (hwritten : written ≠ [])
    {text left : List Char} (hsame : text ++ left = blanks ++ more) (behind : Bool) :
    Keeps behind left (before ++ more) (written ++ text) := by
  cases hkeeps with
  | fresh _ hnil => exact absurd hnil hwritten
  | begun _ hbefore =>
      refine .begun (by simp [hwritten]) ?_
      rw [List.dropWhile_append, if_neg (by simp [hbefore, hwritten]), hbefore, List.append_assoc,
        List.append_assoc, hsame]

end Keeps

namespace Settings

variable {settings : Settings}

/-- The gap in front of an item puts the blanks that wait where they were. -/
theorem append_separate_of_keeps (hkeep : settings.keepWhitespaces = true) {cursor : Cursor}
    {blanks before written : List Char} (hkeeps : Keeps cursor.fresh blanks before written)
    (hends : cursor.Ends written) (flow : Flow) (next : Following) (width : Nat) :
    written ++ (settings.separate cursor flow blanks next width).1.text =
      before.dropWhile isBlank := by
  cases hkeeps with
  | fresh hfresh hwritten hbefore hblank =>
      rw [separate, if_pos hfresh, hwritten, hbefore, List.dropWhile_eq_nil_iff.mpr]
      · rfl
      · exact fun c hmem => isBlank_of_mem hblank hmem
  | begun hwritten hbefore =>
      have hbegun : cursor.fresh = false := by
        rcases hends.begun with ⟨hnil, -⟩ | ⟨-, -, hbegun, -⟩
        · exact absurd hnil hwritten
        · exact hbegun
      rw [separate, if_neg (by simp [hbegun]), if_pos (by simp [hkeep]), hbefore]
      exact congrArg (written ++ ·) (Gap.text_keep blanks)

/-- Behind an item that does not begin with a blank, no blanks wait. -/
theorem keeps_append (hkeep : settings.keepWhitespaces = true) {cursor : Cursor}
    {blanks before written text : List Char} (hkeeps : Keeps cursor.fresh blanks before written)
    (hends : cursor.Ends written) (flow : Flow) (next : Following) (width : Nat) (hne : text ≠ [])
    (hstops : StopsAt isBlank text) (fresh : Bool) :
    Keeps fresh [] (before ++ text)
      (written ++ ((settings.separate cursor flow blanks next width).1.text ++ text)) := by
  refine .begun (by simp [hne]) ?_
  rw [dropWhile_isBlank_append_of_stopsAt hstops, ← List.append_assoc,
    append_separate_of_keeps hkeep hkeeps hends, List.append_nil]

/-! ## Texts and end tags -/

theorem fill_kept (hkeep : settings.keepWhitespaces = true) (continuation : Nat) (cursor : Cursor)
    (rest : List (List Char × Nat)) :
    (settings.fill continuation cursor rest).1 = rest.map fun parted => .kept parted.1 := by
  induction rest generalizing cursor with
  | nil => rfl
  | cons head others ih =>
      obtain ⟨blanks, width⟩ := head
      simp [fill, wordGap, isSoft, hardGap, hkeep, ih]

/-- Words that are laid out keep the blanks between them. -/
theorem joinPieces_of_kept (hkeep : settings.keepWhitespaces = true) {leading : List Char}
    {first : Word} {words : List (List Char × Word)} {progress : Progress}
    {inside : List OutputPiece}
    (hinside : wordPieces? (first :: words.map (·.2))
      (settings.layoutPassage leading first words progress).gaps = some inside) :
    joinPieces inside =
      wordsText (Word.raw first) (words.map fun (blanks, word) => (blanks, Word.raw word)) := by
  have hgaps : (settings.layoutPassage leading first words progress).gaps =
      words.map fun parted => .kept parted.1 := by
    simp only [layoutPassage, layoutWords_eq_fill, fill_kept hkeep, List.map_map]
    rfl
  obtain ⟨pieces, hpieces, htext⟩ := @wordPieces?_of_gaps first words
    (words.map fun parted => .kept parted.1) (List.length_map _)
  rw [hgaps, hpieces] at hinside
  obtain rfl := Option.some.inj hinside
  rw [htext]
  simp [List.zipWith_map, Gap.text]

/-- The end of an element that is laid out is its plain end tag, behind the blanks that wait there
or in front of them. -/
theorem joinPieces_layoutEnding (hkeep : settings.keepWhitespaces = true) (heading : Heading)
    {endTag : Option EndTag} (inner : Progress) {twin : Element}
    (htwin : twin.endTag = endTag.map EndTag.plain) :
    joinPieces (endPieces endTag (settings.layoutEnding heading endTag inner).endTag) ++
        (settings.layoutEnding heading endTag inner).blanks = inner.blanks ++ twin.endText := by
  rw [joinPieces_endPieces, Element.endText, htwin]
  cases endTag with
  | none => simp [layoutEnding, Item.closeText]
  | some close => simp [layoutEnding, closingGap, hkeep, Item.closeText, Gap.text_keep]

/-! ## Start tags -/

/-- A start tag is laid out behind the blanks that wait, where they are kept. -/
theorem laysAt_layoutHeading (hkeep : settings.keepWhitespaces = true) {plan : Plan}
    {elem : Element} {children : List Node} {progress : Progress} {before written : List Char}
    {heading : Heading} (hheading : heading = settings.layoutHeading elem.tag children progress)
    {after : Gap} {layout : Layout}
    (hdecision : plan.get? elem.id = some ⟨heading.before, after, heading.indent, layout⟩)
    (hkeeps : Keeps progress.draft.cursor.fresh progress.blanks before written)
    (hends : progress.draft.cursor.Ends written) :
    settings.LaysAt plan before elem (elem.tag.laid heading.attributes heading.tagEnd) := by
  subst hheading
  refine ⟨_, (settings.separate progress.draft.cursor progress.flow progress.blanks _ _).2.1,
    hdecision, ?_, rfl⟩
  rw [settings.column_separate hends, append_separate_of_keeps hkeep hkeeps hends]

/-- Behind a start tag that is laid out, no blanks wait. -/
theorem keeps_startTag (hkeep : settings.keepWhitespaces = true) (tag : StartTag)
    (children : List Node) {progress : Progress} {before written : List Char}
    (hkeeps : Keeps progress.draft.cursor.fresh progress.blanks before written)
    (hends : progress.draft.cursor.Ends written) (fresh : Bool) :
    let heading := settings.layoutHeading tag children progress
    Keeps fresh [] (before ++ (tag.laid heading.attributes heading.tagEnd).text)
      (written ++ joinPieces (heading.before.pieces ++
        tag.pieces heading.attributes heading.tagEnd)) := by
  intro heading
  rw [joinPieces_append, Gap.joinPieces_pieces, StartTag.joinPieces_pieces]
  have hstops := Item.stopsAt_tag (tag.laid heading.attributes heading.tagEnd) []
  rw [List.append_nil] at hstops
  exact keeps_append hkeep hkeeps hends _ _ _ (by simp [StartTag.text]) hstops fresh

/-! ## Nodes -/

/-- A node with its tags replaced, and what is behind it. -/
theorem exists_retagged_cons {plan : Plan} {node twin : Node} {rest : List Node}
    {progress : Progress} {before written between : List Char} {first others : List OutputPiece}
    (hnode : Node.Retagged settings plan before node twin)
    (hbetween : between = written ++ joinPieces first)
    (hrest : ∃ twins, Node.RetaggedAll settings plan (before ++ twin.text) rest twins ∧
      Keeps (settings.layoutNodes rest (settings.layoutNode node progress)).draft.cursor.fresh
        (settings.layoutNodes rest (settings.layoutNode node progress)).blanks
        (before ++ twin.text ++ Node.textOfAll twins) (between ++ joinPieces others)) :
    ∃ twins, Node.RetaggedAll settings plan before (node :: rest) twins ∧
      Keeps (settings.layoutNodes (node :: rest) progress).draft.cursor.fresh
        (settings.layoutNodes (node :: rest) progress).blanks (before ++ Node.textOfAll twins)
        (written ++ joinPieces (first ++ others)) := by
  obtain ⟨twins, htwins, hkeeps⟩ := hrest
  refine ⟨twin :: twins, ⟨hnode, htwins⟩, ?_⟩
  rw [layoutNodes, Node.textOfAll_cons, joinPieces_append, ← List.append_assoc, ← List.append_assoc,
    ← hbetween]
  exact hkeeps

/-- A text with words keeps its place. -/
theorem keeps_words (hkeep : settings.keepWhitespaces = true) {leaf : Leaf} {progress : Progress}
    {before written leading trailing : List Char} {first : Word} {words : List (List Char × Word)}
    {inside : List OutputPiece} (hkind : leaf.kind = .text)
    (hrun : Run.ofText leaf.raw = .words leading first words trailing)
    (hkeeps : Keeps progress.draft.cursor.fresh progress.blanks before written)
    (hends : progress.draft.cursor.Ends written) :
    let passage := settings.layoutPassage leading first words progress
    let behind := settings.layoutNode (.leaf leaf) progress
    wordPieces? (first :: words.map (·.2)) passage.gaps = some inside →
      Keeps behind.draft.cursor.fresh behind.blanks (before ++ leaf.raw)
        (written ++ joinPieces (passage.before.pieces ++ inside)) := by
  intro passage behind hinside
  have hproper := Run.proper_ofText leaf.raw
  rw [hrun] at hproper
  obtain ⟨hleading, hfirst, -, htrailing⟩ := id hproper
  obtain ⟨hne, -⟩ := trimmed_wordsText hfirst hproper.parted
  have hitem := fun fresh => (keeps_append hkeep (hkeeps.wait hleading) hends progress.flow .inline
    first.width hne (hfirst.stopsAt _) fresh).wait htrailing
  have hbehind : behind = _ := layoutNode_words hkind hrun
  rw [hbehind, Run.eq_of_words hrun, joinPieces_append, Gap.joinPieces_pieces,
    joinPieces_of_kept hkeep hinside]
  simp only [List.append_assoc, List.nil_append] at hitem ⊢
  exact hitem _

/-- An element that is left out or copied behind its start tag keeps its place, with that tag laid
out. -/
theorem keeps_closed (hkeep : settings.keepWhitespaces = true) {plan : Plan} {elem : Element}
    {children : List Node} {progress : Progress} {before written : List Char} {heading : Heading}
    {endTag : Gap} {kept : List OutputPiece}
    (hheading : heading = settings.layoutHeading elem.tag children progress)
    (hkept : settings.contentOf elem.tag = .empty ∧ children = [] ∧ elem.endTag = none ∧ kept = [] ∨
      settings.contentOf elem.tag = .verbatim ∧ kept = emit .verbatim (elem.preserved children).1)
    (hdecision : plan.get? elem.id = some ⟨heading.before, .nothing, heading.indent,
      .element heading.attributes heading.tagEnd (settings.contentOf elem.tag) endTag⟩)
    (hkeeps : Keeps progress.draft.cursor.fresh progress.blanks before written)
    (hends : progress.draft.cursor.Ends written) :
    let twin : Element := { elem with tag := elem.tag.laid heading.attributes heading.tagEnd }
    let behind := settings.layoutNode (.element elem children) progress
    Node.Retagged settings plan before (.element elem children) (.element twin children) ∧
      Keeps behind.draft.cursor.fresh behind.blanks (before ++ (Node.element twin children).text)
        (written ++ joinPieces (heading.before.pieces ++
          elem.tag.pieces heading.attributes heading.tagEnd ++ kept)) := by
  intro twin behind
  have htag := keeps_startTag hkeep elem.tag children hkeeps hends
  rw [← hheading] at htag
  have hsame : joinPieces kept ++ behind.blanks = [] ++ (Node.textOfAll children ++ elem.endText) :=
    (joinPieces_closed hkept progress).1
  have hwritten : written ++ joinPieces (heading.before.pieces ++
      elem.tag.pieces heading.attributes heading.tagEnd) ≠ [] := by
    simp [joinPieces_append, StartTag.joinPieces_pieces_ne_nil]
  have hhere := (htag true).pass hwritten hsame behind.draft.cursor.fresh
  refine ⟨⟨laysAt_layoutHeading hkeep hheading hdecision hkeeps hends, ?_⟩, ?_⟩
  · rw [if_neg (contentOf_ne_formatted hkept)]
    exact ⟨rfl, rfl⟩
  · rw [Node.text_element, joinPieces_append]
    simp only [List.append_assoc] at hhere ⊢
    exact hhere

/-- An element whose content is laid out keeps its place, with its tags laid out and what becomes of
its children between them. -/
theorem keeps_formatted (hkeep : settings.keepWhitespaces = true) {plan : Plan} {elem : Element}
    {children twins : List Node} {progress : Progress} {before written : List Char}
    {heading : Heading} {body : Body} {inner : List OutputPiece}
    (hheading : heading = settings.layoutHeading elem.tag children progress)
    (hcontent : settings.contentOf elem.tag = .formatted)
    (hbody : body = settings.layoutEnding heading elem.endTag
      (settings.layoutNodes children (settings.keptContent elem children progress)))
    (hdecision : plan.get? elem.id = some ⟨heading.before, .nothing, heading.indent,
      .element heading.attributes heading.tagEnd .formatted body.endTag⟩)
    (hkeeps : Keeps progress.draft.cursor.fresh progress.blanks before written)
    (hends : progress.draft.cursor.Ends written) :
    let twin : Element :=
      { elem with
        tag := elem.tag.laid heading.attributes heading.tagEnd
        endTag := elem.endTag.map EndTag.plain }
    let content := settings.layoutNodes children (settings.keptContent elem children progress)
    let behind := settings.layoutNode (.element elem children) progress
    Node.RetaggedAll settings plan (before ++ twin.tag.text) children twins →
      Keeps content.draft.cursor.fresh content.blanks
        (before ++ twin.tag.text ++ Node.textOfAll twins)
        (written ++ joinPieces (heading.before.pieces ++
          elem.tag.pieces heading.attributes heading.tagEnd) ++ joinPieces inner) →
      Node.Retagged settings plan before (.element elem children) (.element twin twins) ∧
        Keeps behind.draft.cursor.fresh behind.blanks (before ++ (Node.element twin twins).text)
          (written ++ joinPieces (heading.before.pieces ++
            elem.tag.pieces heading.attributes heading.tagEnd ++
              (inner ++ endPieces elem.endTag body.endTag))) := by
  intro twin content behind htwins hinner
  have hsame : joinPieces (endPieces elem.endTag body.endTag) ++ body.blanks =
      content.blanks ++ twin.endText := by
    rw [hbody]
    exact joinPieces_layoutEnding hkeep heading _ rfl
  have hblanks : behind.blanks = body.blanks := by
    rw [blanks_layoutNode_formatted hcontent, ← hheading, ← hbody]
  have hwritten : written ++ joinPieces (heading.before.pieces ++
      elem.tag.pieces heading.attributes heading.tagEnd) ++ joinPieces inner ≠ [] := by
    simp [joinPieces_append, StartTag.joinPieces_pieces_ne_nil]
  have hhere := hinner.pass hwritten hsame behind.draft.cursor.fresh
  refine ⟨⟨laysAt_layoutHeading hkeep hheading hdecision hkeeps hends, ?_⟩, ?_⟩
  · rw [if_pos hcontent]
    exact ⟨rfl, htwins⟩
  · rw [Node.text_element, hblanks]
    simp only [joinPieces_append, List.append_assoc] at hhere ⊢
    exact hhere

/-- Where blanks are kept, what is written of nodes is the text of the nodes with their tags
replaced, but for the blanks that wait behind them and those in front of the first item. -/
theorem Proceeds.exists_retagged {plan : Plan} {nodes : List Node} {progress : Progress}
    {written : List Char} {pieces : List OutputPiece} (hkeep : settings.keepWhitespaces = true)
    (hproceeds : settings.Proceeds plan nodes progress written pieces) {before : List Char}
    (hkeeps : Keeps progress.draft.cursor.fresh progress.blanks before written) :
    ∃ twins, Node.RetaggedAll settings plan before nodes twins ∧
      Keeps (settings.layoutNodes nodes progress).draft.cursor.fresh
        (settings.layoutNodes nodes progress).blanks (before ++ Node.textOfAll twins)
          (written ++ joinPieces pieces) := by
  induction hproceeds generalizing before with
  | nil hends =>
      refine ⟨[], trivial, ?_⟩
      simpa [layoutNodes, joinPieces] using hkeeps
  | @blank leaf rest progress written leading others hkind hrun hdecision hends hrest ih =>
      have hleading : allBlank leading = true := by
        have hproper := Run.proper_ofText leaf.raw
        rwa [hrun] at hproper
      have hraw : leaf.raw = leading := by
        rw [← Run.source_ofText leaf.raw, hrun, Run.source]
      refine @exists_retagged_cons _ plan _ (.leaf leaf) _ _ _ _ _ [] _ rfl
        (List.append_nil _).symm (ih ?_)
      rw [layoutNode_blank hkind hrun, Node.text_leaf, hraw]
      exact hkeeps.wait hleading
  | @words leaf rest progress written leading trailing first words passage inside others hkind hrun
      hpassage hdecision hinside hends hrest ih =>
      subst hpassage
      refine @exists_retagged_cons _ plan _ (.leaf leaf) _ _ _ _ _ _ _ rfl rfl (ih ?_)
      rw [Node.text_leaf]
      exact keeps_words hkeep hkind hrun hkeeps hends hinside
  | @atom leaf rest progress written kind separated others hkind hlegible hseparated hlaid hdecision
      hends hrest ih =>
      obtain ⟨hne, hstops⟩ := Item.solid_of_fits hkind hlegible.2
      refine @exists_retagged_cons _ plan _ (.leaf leaf) _ _ _ _ _ _ _ rfl rfl (ih ?_)
      rw [hlaid, Node.text_leaf, joinPieces_append, Gap.joinPieces_pieces, leaf.joinPieces_pieces,
        hseparated]
      exact keeps_append hkeep hkeeps hends _ _ _ hne hstops _
  | closed hheading hfits hkept hdecision hends hrest ih =>
      obtain ⟨hretagged, hhere⟩ := keeps_closed hkeep hheading hkept hdecision hkeeps hends
      exact exists_retagged_cons hretagged rfl (ih hhere)
  | @formatted elem children rest progress written heading body inner others hheading hfits hcontent
      hclose hbody hdecision hends hchildren hrest ihinner ih =>
      have htag := keeps_startTag hkeep elem.tag children hkeeps hends
      rw [← hheading] at htag
      obtain ⟨twins, htwins, hinner⟩ := ihinner (htag _)
      obtain ⟨hretagged, hhere⟩ :=
        keeps_formatted hkeep hheading hcontent hbody hdecision hkeeps hends htwins hinner
      exact exists_retagged_cons hretagged rfl (ih hhere)

end Settings

/-- Where blanks are kept, a document is formatted to the text of its tree with the tags replaced,
less the blanks in front of it if there is anything behind them. -/
theorem format_of_keepWhitespaces {settings : Settings} {text : String} {document : Document}
    (hcheck : settings.check = .ok ()) (hkeep : settings.keepWhitespaces = true)
    (hparse : parse text.toList = .ok document) :
    text.toList = Node.textOfAll document.children ∧ ∃ laid,
      Node.RetaggedAll settings (settings.layoutDocument document) [] document.children laid ∧
        format .plain settings text none = .ok (String.ofList
          (if allBlank text.toList then text.toList
            else (Node.textOfAll laid).dropWhile isBlank)) := by
  have hsource := Document.textOfAll_of_parse hparse
  obtain ⟨pieces, hpieces, hproceeds, hending⟩ := formatPieces_proceeds hcheck hparse
  have hnothing : Keeps (Settings.planningStart document).draft.cursor.fresh
      (Settings.planningStart document).blanks [] [] := .fresh rfl rfl rfl allBlank_nil
  obtain ⟨laid, hlaid, hkeeps⟩ := hproceeds.exists_retagged hkeep hnothing
  refine ⟨hsource.symm, laid, hlaid, ?_⟩
  have hformat : format .plain settings text none = .ok (String.ofList (joinPieces pieces ++
      (settings.layoutNodes document.children (Settings.planningStart document)).blanks)) := by
    simp only [format, hpieces, bind, Except.bind]
    rw [Palette.render_plain, joinPieces_append, Gap.joinPieces_pieces, hending, Settings.finalGap,
      if_pos hkeep, Gap.text_keep]
    rfl
  have hsame := Node.text_eq_of_retaggedAll hlaid
  rw [hsource] at hsame
  rw [hformat]
  simp only [List.nil_append] at hkeeps
  cases hkeeps with
  | fresh _ hwritten hall hblank =>
      have htext := hsame (.inr (hall ▸ hblank))
      rw [hwritten, ← hall, htext, if_pos (htext ▸ hall ▸ hblank), List.nil_append]
  | begun hwritten hall =>
      have hsolid : allBlank text.toList = false := by
        by_contra hblank
        rw [Bool.not_eq_false] at hblank
        rw [hsame (.inl hblank), List.dropWhile_eq_nil_iff.mpr fun c =>
          isBlank_of_mem hblank] at hall
        exact hwritten (List.append_eq_nil_iff.mp hall.symm).1
      rw [if_neg (by simp [hsolid]), hall]

/-- A list whose items are not ended, with blanks in its tags and in front of it. -/
theorem format_of_keepWhitespaces_list :
    let settings : Settings := { keepWhitespaces := true }
    let text := " <ul  id = a>\n <li>one  <li >two \n</ul >\n"
    settings.check = .ok () ∧ settings.keepWhitespaces = true ∧ ∃ document,
      parse text.toList = .ok document ∧ text.toList = Node.textOfAll document.children ∧ ∃ laid,
        Node.RetaggedAll settings (settings.layoutDocument document) [] document.children laid ∧
          format .plain settings text none =
            .ok (String.ofList ((Node.textOfAll laid).dropWhile isBlank)) := by
  intro settings text
  have hcheck : settings.check = .ok () := by with_unfolding_all rfl
  have hread : (parse text.toList).toOption.isSome = true := by decide +kernel
  obtain ⟨document, hdocument⟩ := Option.isSome_iff_exists.mp hread
  have hparse := toOption_eq_some_iff.mp hdocument
  obtain ⟨hsource, laid, hlaid, hformat⟩ := format_of_keepWhitespaces hcheck rfl hparse
  rw [if_neg (by simp [text, isBlank])] at hformat
  exact ⟨hcheck, rfl, document, hparse, hsource, laid, hlaid, hformat⟩

end Markup
