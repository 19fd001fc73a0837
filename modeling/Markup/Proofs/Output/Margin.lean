import Markup.Proofs.Output.Indentation

/-!
# The right margin

Where words may be filled, a space is left in front of an item only if the item still fits. Whether
it does is decided before anything of it is written, from widths that are predicted: of a word, or
of a start tag with what is glued to it. The predictions are never too small, so that whatever
stands behind a space ends within the margin: every word, and every start tag of an inline element
that is not broken itself, together with the word that follows the tag without a blank. Main
statement: `format_within_margin`.
-/

namespace Markup

open Markup.Text

/-! ## What ends within a margin -/

/-- The output begins with this text, the last line of which ends within the margin. -/
def EndsWithin (margin : Nat) (output text : List Char) : Prop :=
  text <+: output ∧ (lastLine text).length ≤ margin

/-- Behind this text, every word has a gap in front of it, and ends within the margin if the gap is
a space. -/
def WordsWithin (margin : Nat) (output before : List Char) : List Gap → List Word → Prop
  | _, [] => True
  | [], _ :: _ => False
  | gap :: gaps, word :: words =>
      let ending := before ++ gap.text ++ Word.raw word
      (gap = .space → EndsWithin margin output ending) ∧ WordsWithin margin output ending gaps words

/-- The word that nodes begin with, if they begin with a text that begins with a word. -/
def leadingWord? : List Node → Option Word
  | .leaf leaf :: _ =>
      if leaf.kind = .text then
        match Run.ofText leaf.raw with
        | .words [] first _ _ => some first
        | _ => none
      else none
  | _ => none

mutual

/-- Behind this text, the output respects the margin wherever the plan leaves a space in a node: at
the end of a word behind a space, and of the start tag of an inline element behind a space that is
not broken itself, with the first word of the element if that follows at once. -/
def Node.Within (settings : Settings) (plan : Plan) (output before : List Char) : Node → Prop
  | .leaf piece => ∃ gap indent layout, plan.get? piece.id = some ⟨gap, .nothing, indent, layout⟩ ∧
      (piece.kind = .text → ∃ gaps, layout = .text gaps ∧
        WordsWithin settings.rightMargin output before (gap :: gaps)
          (Run.ofText piece.raw).wordList)
  | .element elem children => ∃ gap indent attributes tagEnd endTag,
      plan.get? elem.id = some ⟨gap, .nothing, indent,
        .element attributes tagEnd (settings.contentOf elem.tag) endTag⟩ ∧
      let opened := before ++ gap.text ++ joinPieces (elem.tag.pieces attributes tagEnd)
      (settings.isInline elem.name = true → gap = .space →
        (∀ layout ∈ attributes, layout.gap.breaksLine = false) → tagEnd.breaksLine = false →
          EndsWithin settings.rightMargin output opened ∧
          (settings.contentOf elem.tag = .formatted → ∀ word ∈ leadingWord? children,
            EndsWithin settings.rightMargin output (opened ++ Word.raw word))) ∧
      (settings.contentOf elem.tag = .formatted → WithinAll settings plan output opened children)

/-- Nodes one behind the other. -/
def Node.WithinAll (settings : Settings) (plan : Plan) (output before : List Char) :
    List Node → Prop
  | [] => True
  | node :: rest => Node.Within settings plan output before node ∧
      ∃ written, plan.render node = .ok written ∧
        WithinAll settings plan output (before ++ joinPieces written) rest

end

/-! ## Columns -/

/-- A text that is reached at a column and is no longer than what is left of the line ends within
the margin. -/
theorem EndsWithin.of_column {margin : Nat} {output before text : List Char}
    (houtput : before ++ text <+: output)
    (hfits : columnAfter 0 before + text.length ≤ margin) :
    EndsWithin margin output (before ++ text) := by
  refine ⟨houtput, ?_⟩
  rw [← columnAfter_zero, columnAfter_append]
  exact Nat.le_trans (columnAfter_le _ _) hfits

namespace Settings

variable {settings : Settings} {plan : Plan} {progress : Progress} {written output : List Char}

theorem Regular.feeds {indent : Nat} {gap : Gap} (hregular : settings.Regular indent gap) :
    gap.Feeds := by
  cases gap with
  | lineBreak newlines column => exact hregular.1
  | _ => trivial

/-! ## Where a space is left -/

theorem fits_of_gapBetween (hwraps : settings.wrapsText = true) {cursor : Cursor}
    (hbegun : cursor.blank = false) {flow : Flow} {blanks : List Char} {next : Following}
    {width : Nat} (hspace : (settings.gapBetween cursor flow blanks next width).1 = .space) :
    cursor.column + 1 + width ≤ settings.rightMargin := by
  unfold gapBetween breakGap at hspace
  cases hspaced : !blanks.isEmpty with
  | false =>
      simp only [hspaced, apply_ite Prod.fst, Bool.false_eq_true, if_false, ite_eq_iff,
        reduceCtorEq, and_false, or_false] at hspace
  | true =>
      simp only [hspaced, hwraps, hbegun, apply_ite Prod.fst, if_true, ite_eq_iff, reduceCtorEq,
        and_false, false_or] at hspace
      simpa using hspace.2.2.1

/-- A space is left in front of an item only where the item fits behind it. -/
theorem fits_of_separate (hkeep : settings.keepWhitespaces = false)
    (hwraps : settings.wrapsText = true) (hanchored : progress.draft.cursor.anchored = false)
    (hends : progress.draft.cursor.Ends written)
    (hstart : written = [] → progress.draft.cursor.fresh = true) {flow : Flow} {blanks : List Char}
    {next : Following} {width : Nat}
    (hspace : (settings.separate progress.draft.cursor flow blanks next width).1 = .space) :
    columnAfter 0 (written ++ Gap.text .space) + width ≤ settings.rightMargin := by
  rw [columnAfter_append, ← hends.column]
  unfold separate at hspace
  rw [hanchored, hkeep] at hspace
  split at hspace
  next => cases hspace
  next hfresh =>
    have hbegun : progress.draft.cursor.blank = false := by
      rcases hends.begun with ⟨hnil, -⟩ | ⟨-, -, hbegun⟩
      · exact absurd (hstart hnil) hfresh
      · exact hbegun.2
    exact fits_of_gapBetween hwraps hbegun hspace

/-- A space is left in front of a further word only where the word fits behind it. -/
theorem fits_of_wordGap (hkeep : settings.keepWhitespaces = false)
    (hwraps : settings.wrapsText = true) {continuation : Nat} {cursor : Cursor} {blanks : List Char}
    {width : Nat} (hspace : (settings.wordGap continuation cursor blanks width).1 = .space) :
    cursor.column + 1 + width ≤ settings.rightMargin := by
  unfold wordGap hardGap breakGap at hspace
  rw [hkeep, hwraps] at hspace
  split at hspace
  next =>
    split at hspace
    next => cases hspace
    next hfits => simpa using hfits
  next => cases hspace

/-! ## Words -/

/-- Further words that are filled respect the margin. -/
theorem wordsWithin_fill (hkeep : settings.keepWhitespaces = false)
    (hwraps : settings.wrapsText = true) {continuation : Nat} {cursor : Cursor} {before : List Char}
    {first : Word} {words : List (List Char × Word)} {inside : List OutputPiece}
    (hsolid : ∀ parted ∈ words, Solid (Word.raw parted.2))
    (hcolumn : cursor.column = columnAfter 0 (before ++ Word.raw first))
    (hinside : wordPieces? (first :: words.map (·.2)) (settings.fill continuation cursor
      (words.map fun (blanks, word) => (blanks, word.width))).1 = some inside)
    (houtput : before ++ joinPieces inside <+: output) :
    WordsWithin settings.rightMargin output (before ++ Word.raw first) (settings.fill continuation
      cursor (words.map fun (blanks, word) => (blanks, word.width))).1 (words.map (·.2)) := by
  induction words generalizing cursor before first inside with
  | nil => trivial
  | cons head others ih =>
      obtain ⟨blanks, word⟩ := head
      obtain ⟨hword, hothers⟩ := List.forall_mem_cons.mp hsolid
      obtain ⟨more, hmore, rfl⟩ := Option.map_eq_some_iff.mp hinside
      have hgap := settings.regular_wordGap hkeep continuation cursor blanks word.width
      have hspace := @fits_of_wordGap settings hkeep hwraps continuation cursor blanks word.width
      simp only [List.map_cons, fill]
      generalize (settings.wordGap continuation cursor blanks word.width).1 = gap at *
      -- the words behind the gap are words behind a longer text
      have hwhole : before ++ joinPieces (fragmentPieces first ++ (gap.pieces ++ more)) =
          before ++ Word.raw first ++ gap.text ++ joinPieces more := by
        simp only [joinPieces_append, joinPieces_fragmentPieces, Gap.joinPieces_pieces, Word.raw,
          List.append_assoc]
      rw [hwhole] at houtput
      have hskip := cursor.passes_skip hgap.feeds
      have hplace := (cursor.skip gap).passes_place hword.newline_not_mem rfl
      refine ⟨fun hfits => ?_, ih hothers ?_ hmore houtput⟩
      · obtain ⟨behind, rfl⟩ := exists_behind_word hmore
        rw [joinPieces_append, joinPieces_fragmentPieces, ← List.append_assoc] at houtput
        refine EndsWithin.of_column ((List.prefix_append _ _).trans houtput) ?_
        rw [columnAfter_append, ← hcolumn, ← hskip.column, hfits]
        exact hspace hfits
      · rw [columnAfter_append, columnAfter_append, ← hcolumn, ← hskip.column]
        exact hplace.column

/-- The words of a text that is laid out respect the margin. -/
theorem wordsWithin_layoutPassage (hkeep : settings.keepWhitespaces = false)
    (hwraps : settings.wrapsText = true) (hanchored : progress.draft.cursor.anchored = false)
    (hends : progress.draft.cursor.Ends written)
    (hstart : written = [] → progress.draft.cursor.fresh = true) {text leading trailing : List Char}
    {first : Word} {words : List (List Char × Word)}
    (hrun : Run.ofText text = .words leading first words trailing) {inside : List OutputPiece} :
    let passage := settings.layoutPassage leading first words progress
    wordPieces? (first :: words.map (·.2)) passage.gaps = some inside →
    written ++ joinPieces (passage.before.pieces ++ inside) <+: output →
      WordsWithin settings.rightMargin output written (passage.before :: passage.gaps)
        (Run.ofText text).wordList := by
  intro passage hinside houtput
  have hproper := Run.proper_ofText text
  rw [hrun] at hproper ⊢
  obtain ⟨-, hfirst, hwords, -⟩ := hproper
  have hcolumn : (settings.separate progress.draft.cursor progress.flow (progress.blanks ++ leading)
      .inline first.width).2.1.column = columnAfter 0 (written ++ passage.before.text) :=
    settings.column_separate hends _ _ _ _
  have hgaps : passage.gaps = (settings.fill passage.continuation (passage.start.place first.width)
      (words.map fun (blanks, word) => (blanks, word.width))).1 :=
    congrArg Prod.fst (settings.layoutWords_eq_fill _ _ _ _)
  have hplace := passage.start.passes_place hfirst.newline_not_mem rfl
  rw [joinPieces_append, Gap.joinPieces_pieces, ← List.append_assoc] at houtput
  rw [hgaps] at hinside ⊢
  refine ⟨fun hspace => ?_, wordsWithin_fill hkeep hwraps
    (fun parted hmem => (hwords parted hmem).2.2) ?_ hinside houtput⟩
  · obtain ⟨behind, rfl⟩ := exists_behind_word hinside
    rw [joinPieces_append, joinPieces_fragmentPieces, ← List.append_assoc] at houtput
    refine EndsWithin.of_column ((List.prefix_append _ _).trans houtput) ?_
    have hfits := fits_of_separate hkeep hwraps hanchored hends hstart hspace
    rwa [hspace]
  · rw [Word.width, hplace.column, columnAfter_append, ← hcolumn]
    rfl

/-! ## Start tags -/

/-- A gap in front of an attribute that does not break the line is a space. -/
theorem Lays.gap_eq_space {attr : Attribute} {layout : AttributeLayout} {aligned : Nat}
    (hlays : settings.Lays attr layout) (hregular : settings.Regular aligned layout.gap)
    (hunbroken : layout.gap.breaksLine = false) : layout.gap = .space := by
  have hparts := hlays.parts
  cases hgap : layout.gap with
  | nothing => exact absurd (congrArg Gap.text hgap) hparts
  | space => rfl
  | lineBreak newlines column =>
      rw [hgap] at hunbroken
      cases hunbroken
  | kept text =>
      rw [hgap] at hregular
      exact hregular.elim

/-- An attribute behind a space is as long as it is predicted to be. -/
theorem Lays.length_laid {attr : Attribute} {layout : AttributeLayout}
    (hlays : settings.Lays attr layout) (hspace : layout.gap = .space) :
    (attr.laid layout).text.length = 1 + settings.attributeWidth attr := by
  have hquote : ∀ quote : Option Quote, (quoteText quote).length = if quote.isSome then 1 else 0 :=
    fun quote => by cases quote <;> rfl
  unfold Attribute.laid Attribute.text Attribute.body attributeWidth
  rw [hspace, hlays.quote]
  cases attr.value with
  | none => simp [Gap.text, valueText, Nat.add_comm]
  | some value =>
      simp only [Option.map_some, valueText, AttributeValue.text, List.length_append, hquote,
        Gap.text, List.length_singleton]
      split <;> omega

theorem length_attributes {attributes : List Attribute} {layouts : List AttributeLayout}
    (hlays : List.Forall₂ settings.Lays attributes layouts)
    (hregular : ∀ layout ∈ layouts, ∃ aligned, settings.Regular aligned layout.gap)
    (hunbroken : ∀ layout ∈ layouts, layout.gap.breaksLine = false) (ending : Nat) :
    ((attributes.zipWith Attribute.laid layouts).flatMap Attribute.text).length + ending =
      attributes.foldr (fun attr width => 1 + settings.attributeWidth attr + width) ending := by
  induction hlays with
  | nil => simp
  | @cons attr layout attributes layouts hfirst hrest ih =>
      obtain ⟨⟨aligned, hgap⟩, hgaps⟩ := List.forall_mem_cons.mp hregular
      obtain ⟨hone, hmore⟩ := List.forall_mem_cons.mp hunbroken
      rw [List.zipWith_cons_cons, List.flatMap_cons, List.length_append,
        hfirst.length_laid (hfirst.gap_eq_space hgap hone), List.foldr_cons, ← ih hgaps hmore,
        Nat.add_assoc]

theorem length_tagEnd {tag : StartTag} {indent : Nat}
    (hunbroken : (settings.tagEndGap tag indent).breaksLine = false) :
    (settings.tagEndGap tag indent).text.length + tag.ending.text.length =
      settings.endingWidth tag.ending := by
  unfold tagEndGap at hunbroken ⊢
  split
  next hbreak =>
    rw [if_pos hbreak] at hunbroken
    cases hunbroken
  next => cases tag.ending <;> cases hinside : settings.spaceInsideEmptyTag <;>
      simp [endingWidth, Ending.text, Gap.text, hinside]

/-- A start tag that is not broken is as long as it is predicted to be. -/
theorem length_startTag {tag : StartTag} {indent : Nat} {cursor : Cursor}
    (hattributes : ∀ layout ∈ (settings.layoutStartTag tag indent cursor).1,
      layout.gap.breaksLine = false)
    (htagEnd : (settings.layoutStartTag tag indent cursor).2.1.breaksLine = false) :
    (joinPieces (tag.pieces (settings.layoutStartTag tag indent cursor).1
      (settings.layoutStartTag tag indent cursor).2.1)).length = settings.tagWidth tag := by
  have hgap : (settings.layoutStartTag tag indent cursor).2.1 = settings.tagEndGap tag indent := rfl
  have hending := @length_tagEnd settings tag indent htagEnd
  have hlength := length_attributes (settings.lays_layoutStartTag tag indent cursor)
    (settings.regular_layoutStartTag tag indent cursor) hattributes
      (settings.endingWidth tag.ending)
  rw [StartTag.joinPieces_pieces, hgap, tagWidth, restOfTagWidth, ← hlength]
  simp only [StartTag.text, StartTag.body, StartTag.laid, List.length_cons, List.length_append]
  omega

/-! ## Elements -/

/-- A word that nodes begin with is the first one of the text that is their first node. -/
theorem exists_of_mem_leadingWord? {nodes : List Node} {word : Word}
    (hword : word ∈ leadingWord? nodes) :
    ∃ leaf rest words trailing, nodes = .leaf leaf :: rest ∧ leaf.kind = .text ∧
      Run.ofText leaf.raw = .words [] word words trailing := by
  unfold leadingWord? at hword
  split at hword
  next leaf rest =>
    split at hword
    next hkind =>
      split at hword
      next first words trailing hrun =>
        obtain rfl := Option.some.inj hword
        exact ⟨leaf, rest, words, trailing, rfl, hkind, hrun⟩
      next => cases hword
    next => cases hword
  next => cases hword

/-- A start tag takes no more columns than are looked for in front of it, and neither does the tag
with the word that follows it. -/
theorem le_leadingWidth (tag : StartTag) (children : List Node) :
    settings.tagWidth tag ≤ settings.leadingWidth lookahead tag children ∧
      (settings.contentOf tag = .formatted → ∀ word ∈ leadingWord? children,
        settings.tagWidth tag + word.width ≤ settings.leadingWidth lookahead tag children) := by
  unfold lookahead leadingWidth
  refine ⟨Nat.le_add_right _ _, fun hformatted word hword => Nat.add_le_add_left ?_ _⟩
  have hplain : settings.preserves tag.name = false := by
    unfold contentOf at hformatted
    split at hformatted
    next => cases hformatted
    next =>
      split at hformatted
      next => cases hformatted
      next hplain => simpa using hplain
  obtain ⟨leaf, rest, words, trailing, rfl, hkind, hrun⟩ := exists_of_mem_leadingWord? hword
  simp only [hplain, hkind, hrun, Bool.false_eq_true, if_false, if_true, Nat.le_refl]

/-- Behind a space, the leading part of an inline element fits. -/
theorem fits_of_layoutHeading (hkeep : settings.keepWhitespaces = false)
    (hwraps : settings.wrapsText = true) (hanchored : progress.draft.cursor.anchored = false)
    (hends : progress.draft.cursor.Ends written)
    (hstart : written = [] → progress.draft.cursor.fresh = true) {tag : StartTag}
    {children : List Node} (hinline : settings.isInline tag.name = true)
    (hspace : (settings.layoutHeading tag children progress).before = .space) :
    columnAfter 0 (written ++ Gap.text .space) + settings.leadingWidth lookahead tag children ≤
      settings.rightMargin := by
  unfold layoutHeading at hspace
  rw [hinline] at hspace
  exact fits_of_separate hkeep hwraps hanchored hends hstart hspace

/-- Nothing is put between the start tag of an inline element and a word that follows it at once. -/
theorem Proceeds.leadingWord_prefix {nodes : List Node} {pieces : List OutputPiece}
    (hkeep : settings.keepWhitespaces = false)
    (hproceeds : settings.Proceeds plan nodes progress written pieces)
    (hanchored : progress.draft.cursor.anchored = false) (hblanks : progress.blanks = [])
    (hpreceding : progress.flow.preceding = .start false) {word : Word}
    (hword : word ∈ leadingWord? nodes) : Word.raw word <+: joinPieces pieces := by
  obtain ⟨leaf, rest, words, trailing, rfl, hkind, hrun⟩ := exists_of_mem_leadingWord? hword
  cases hproceeds with
  | blank _ hblank => rw [hrun] at hblank; cases hblank
  | atom hother => exact absurd hkind hother
  | words _ hsame hpassage _ hinside _ _ =>
      rw [hrun] at hsame
      obtain ⟨rfl, rfl, rfl, rfl⟩ := Run.words.inj hsame
      have hnothing : (settings.separate progress.draft.cursor progress.flow [] .inline
          word.width).1 = .nothing := by
        unfold separate gapBetween
        rw [hanchored, hkeep, hpreceding]
        split <;> rfl
      have hbefore : (settings.layoutPassage [] word words progress).before = .nothing := by
        rw [← hnothing, layoutPassage, hblanks]
        rfl
      obtain ⟨more, rfl⟩ := exists_behind_word hinside
      rw [hpassage, hbefore, List.append_assoc, joinPieces_append, joinPieces_append,
        joinPieces_append, joinPieces_fragmentPieces]
      exact ⟨_, (List.append_assoc _ _ _).symm⟩

/-- A node and what is behind it. -/
theorem withinAll_cons {node : Node} {rest : List Node} {first others : List OutputPiece}
    (hnode : Node.Within settings plan output written node)
    (hall : plan.renderAll (node :: rest) = .ok (first ++ others))
    (hrest : plan.renderAll rest = .ok others)
    (hbehind : Node.WithinAll settings plan output (written ++ joinPieces first) rest) :
    Node.WithinAll settings plan output written (node :: rest) :=
  ⟨hnode, first, Plan.render_of_renderAll hall hrest, hbehind⟩

/-- The start of an inline element behind a space respects the margin. -/
theorem within_layoutHeading (hkeep : settings.keepWhitespaces = false)
    (hwraps : settings.wrapsText = true) (hanchored : progress.draft.cursor.anchored = false)
    (hends : progress.draft.cursor.Ends written)
    (hstart : written = [] → progress.draft.cursor.fresh = true) {tag : StartTag}
    {children : List Node} :
    let heading := settings.layoutHeading tag children progress
    let opened := written ++ heading.before.text ++
      joinPieces (tag.pieces heading.attributes heading.tagEnd)
    opened <+: output →
    (settings.contentOf tag = .formatted → ∀ word ∈ leadingWord? children,
      opened ++ Word.raw word <+: output) →
    settings.isInline tag.name = true → heading.before = .space →
    (∀ layout ∈ heading.attributes, layout.gap.breaksLine = false) →
    heading.tagEnd.breaksLine = false →
      EndsWithin settings.rightMargin output opened ∧
      (settings.contentOf tag = .formatted → ∀ word ∈ leadingWord? children,
        EndsWithin settings.rightMargin output (opened ++ Word.raw word)) := by
  intro heading opened houtput hwords hinline hspace hattributes htagEnd
  have hfits := fits_of_layoutHeading hkeep hwraps hanchored hends hstart hinline hspace
  have hlength : (joinPieces (tag.pieces heading.attributes heading.tagEnd)).length =
    settings.tagWidth tag := length_startTag hattributes htagEnd
  obtain ⟨htag, hword⟩ := @le_leadingWidth settings tag children
  rw [← hspace] at hfits
  refine ⟨EndsWithin.of_column houtput ?_, fun hformatted word hmem => ?_⟩
  · rw [hlength]
    exact Nat.le_trans (Nat.add_le_add_left htag _) hfits
  · have hfollows := hwords hformatted word hmem
    simp only [opened, List.append_assoc (written ++ _)] at hfollows ⊢
    refine EndsWithin.of_column hfollows ?_
    rw [List.length_append, hlength]
    exact Nat.le_trans (Nat.add_le_add_left (hword hformatted word hmem) _) hfits

/-- An element whose content is laid out for good respects the margin, if its children do. -/
theorem within_formatted {elem : Element} {children : List Node} {heading : Heading} {endTag : Gap}
    {inner : List OutputPiece} (hkeep : settings.keepWhitespaces = false)
    (hwraps : settings.wrapsText = true) (hanchored : progress.draft.cursor.anchored = false)
    (hends : progress.draft.cursor.Ends written)
    (hstart : written = [] → progress.draft.cursor.fresh = true)
    (hheading : heading = settings.layoutHeading elem.tag children progress)
    (hcontent : settings.contentOf elem.tag = .formatted)
    (hdecision : plan.get? elem.id = some ⟨heading.before, .nothing, heading.indent,
      .element heading.attributes heading.tagEnd .formatted endTag⟩)
    (hchildren : settings.Proceeds plan children (settings.keptContent elem children progress)
      (written ++ joinPieces (heading.before.pieces ++
        elem.tag.pieces heading.attributes heading.tagEnd)) inner)
    (houtput : written ++ joinPieces (heading.before.pieces ++
      elem.tag.pieces heading.attributes heading.tagEnd) ++ joinPieces inner <+: output)
    (hnested : Node.WithinAll settings plan output (written ++ joinPieces (heading.before.pieces ++
      elem.tag.pieces heading.attributes heading.tagEnd)) children) :
    Node.Within settings plan output written (.element elem children) := by
  rw [joinPieces_append, Gap.joinPieces_pieces, ← List.append_assoc] at hnested houtput
  -- an inline element starts a flow in which nothing comes in front of a word
  have hwords : settings.isInline elem.name = true → ∀ word ∈ leadingWord? children,
      Word.raw word <+: joinPieces inner := by
    intro hinline word hmem
    refine hchildren.leadingWord_prefix hkeep (anchored_keptContent hanchored) rfl ?_ hmem
    have hstarted : (settings.keptContent elem children progress).flow.preceding =
      .start (!settings.isInline elem.name) := rfl
    rw [hstarted, hinline, Bool.not_true]
  subst hheading
  rw [← hcontent] at hdecision
  refine ⟨_, _, _, _, _, hdecision, fun hinline => ?_, fun _ => hnested⟩
  exact within_layoutHeading hkeep hwraps hanchored hends hstart
    ((List.prefix_append _ _).trans houtput) (fun _ word hmem =>
      (List.prefix_append_right_inj _).mpr (hwords hinline word hmem) |>.trans houtput) hinline

/-- Nodes that are laid out for good respect the margin, where what is written of them is in the
output. -/
theorem Proceeds.within {nodes : List Node} {pieces : List OutputPiece}
    (hkeep : settings.keepWhitespaces = false) (hwraps : settings.wrapsText = true)
    (hproceeds : settings.Proceeds plan nodes progress written pieces)
    (hanchored : progress.draft.cursor.anchored = false)
    (hstart : written = [] → progress.draft.cursor.fresh = true)
    (houtput : written ++ joinPieces pieces <+: output) :
    Node.WithinAll settings plan output written nodes := by
  induction hproceeds with
  | nil => trivial
  | @blank leaf rest progress written leading others hkind hrun hdecision hends hrest ih =>
      have hsame := @layoutNode_blank settings leaf progress leading hkind hrun
      have hfound := ih (anchored_layoutNode hanchored) (by rw [hsame]; exact hstart) houtput
      rw [← List.append_nil written] at hfound
      refine @withinAll_cons _ _ _ _ (.leaf leaf) _ [] _ ⟨_, _, _, hdecision, fun _ => ⟨_, rfl, ?_⟩⟩
        (Proceeds.blank hkind hrun hdecision hends hrest).renderAll hrest.renderAll hfound
      rw [hrun]
      trivial
  | @words leaf rest progress written leading trailing first words passage inside others hkind hrun
      hpassage hdecision hinside hends hrest ih =>
      have hall := (Proceeds.words hkind hrun hpassage hdecision hinside hends hrest).renderAll
      rw [joinPieces_append, ← List.append_assoc] at houtput
      have hfound :=
        ih (anchored_layoutNode hanchored) (append_words_ne_nil hrun hinside).elim houtput
      subst hpassage
      exact withinAll_cons ⟨_, _, _, hdecision, fun _ => ⟨_, rfl, wordsWithin_layoutPassage hkeep
        hwraps hanchored hends hstart hrun hinside ((List.prefix_append _ _).trans houtput)⟩⟩ hall
        hrest.renderAll hfound
  | @atom leaf rest progress written kind separated others hkind hlegible hseparated hlaid hdecision
      hends hrest ih =>
      have hall := (Proceeds.atom hkind hlegible hseparated hlaid hdecision hends hrest).renderAll
      rw [joinPieces_append, ← List.append_assoc] at houtput
      have hfound := ih (anchored_layoutNode hanchored) (append_leaf_ne_nil hlegible).elim houtput
      exact withinAll_cons ⟨_, _, _, hdecision, fun htext => absurd htext hkind⟩ hall
        hrest.renderAll hfound
  | @closed elem children rest progress written heading endTag kept others hheading hfits hkept
      hdecision hends hrest ih =>
      have hall := (Proceeds.closed hheading hfits hkept hdecision hends hrest).renderAll
      rw [joinPieces_append, ← List.append_assoc] at houtput
      have hfound := ih (anchored_layoutNode hanchored) append_element_ne_nil.elim houtput
      have hclosed : settings.contentOf elem.tag ≠ .formatted := contentOf_ne_formatted hkept
      rw [joinPieces_append, joinPieces_append, Gap.joinPieces_pieces, ← List.append_assoc,
        ← List.append_assoc, List.append_assoc] at houtput
      subst hheading
      exact withinAll_cons ⟨_, _, _, _, _, hdecision, within_layoutHeading hkeep hwraps hanchored
        hends hstart ((List.prefix_append _ _).trans houtput) fun hcontent =>
          absurd hcontent hclosed,
        fun hcontent => absurd hcontent hclosed⟩ hall hrest.renderAll hfound
  | @formatted elem children rest progress written heading body inner others hheading hfits hcontent
      hclose hbody hdecision hends hchildren hrest ihinner ih =>
      have hall :=
        (Proceeds.formatted hheading hfits hcontent hclose hbody hdecision hends hchildren
          hrest).renderAll
      rw [joinPieces_append, ← List.append_assoc] at houtput
      have hfound := ih (anchored_layoutNode hanchored) append_element_ne_nil.elim houtput
      have hinner := isPrefix_inner ((List.prefix_append _ _).trans houtput)
      have hnested := ihinner (anchored_keptContent hanchored) append_startTag_ne_nil.elim hinner
      exact withinAll_cons (within_formatted hkeep hwraps hanchored hends hstart hheading hcontent
        hdecision hchildren hinner hnested) hall hrest.renderAll hfound

end Settings

/-- Where words may be filled and blanks are not kept, the output respects the margin wherever the
plan leaves a space. -/
theorem format_within_margin {settings : Settings} {text : String} {document : Document}
    (hcheck : settings.check = .ok ()) (hkeep : settings.keepWhitespaces = false)
    (hwraps : settings.wrapsText = true) (hparse : parse text.toList = .ok document) :
    ∃ plan output, settings.plan document none = .ok plan ∧
      format .plain settings text none = .ok output ∧
        Node.WithinAll settings plan output.toList [] document.children := by
  obtain ⟨pieces, hpieces, hproceeds, -⟩ := formatPieces_proceeds hcheck hparse
  refine ⟨settings.layoutDocument document, String.ofList (joinPieces (pieces ++
    (settings.layoutDocument document).ending.pieces)), settings.plan_none hcheck document, ?_, ?_⟩
  · rw [format_eq_map, hpieces]
    rfl
  · refine hproceeds.within hkeep hwraps rfl (fun _ => rfl) ?_
    rw [String.toList_ofList, joinPieces_append, List.nil_append]
    exact List.prefix_append _ _

/-- A narrow text, with two inline elements that stay on their lines, one that begins a line of its
own, and words below each other behind it. -/
theorem format_within_margin_narrow :
    let settings : Settings := { rightMargin := 24, alignText := true }
    let text :=
      "<p>one two <b id=x>three</b> and <i>four</i>five <a href=y title=z>six seven eight nine"
    settings.check = .ok () ∧ settings.keepWhitespaces = false ∧ settings.wrapsText = true ∧
      ∃ document plan output, parse text.toList = .ok document ∧
        settings.plan document none = .ok plan ∧ format .plain settings text none = .ok output ∧
          Node.WithinAll settings plan output.toList [] document.children := by
  intro settings text
  have hcheck : settings.check = .ok () := by with_unfolding_all rfl
  have hread : (parse text.toList).toOption.isSome = true := by decide +kernel
  obtain ⟨document, hdocument⟩ := Option.isSome_iff_exists.mp hread
  have hparse := toOption_eq_some_iff.mp hdocument
  obtain ⟨plan, output, hplan, hformat, hwithin⟩ := format_within_margin hcheck rfl rfl hparse
  exact ⟨hcheck, rfl, rfl, document, plan, output, hparse, hplan, hformat, hwithin⟩

end Markup
