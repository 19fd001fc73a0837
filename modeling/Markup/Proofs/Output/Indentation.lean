import Markup.Proofs.Output.Proceeding

/-!
# Indents follow the tree

The indent of the lines that items begin is passed down through the tree: from an element to its
children as it is or one step deeper, which is found out as the output goes along. Where blanks are
not kept, every line that layout breaks off goes on at the indent that the tree has there: between
the children of an element at theirs, and in front of the ends of its tags at its own. Main
statement: `layoutDocument_indented`.
-/

namespace Markup

open Markup.Text

/-! ## Indents in a tree -/

/-- If a gap breaks the line, the next line begins at this column. -/
def Gap.BreaksTo (gap : Gap) (column : Nat) : Prop :=
  ∀ newlines indent, gap = .lineBreak newlines indent → indent = column

/-- An indent for the children of an element with this name and this indent, where this text is in
front of its start tag: that of the element if it is listed, or is inline and does not begin its
line. Otherwise it is one step deeper, or is that of the element if heights are limited. -/
def Settings.ChildIndent (settings : Settings) (name before : List Char) (indent inner : Nat) :
    Prop :=
  if settings.doesNotIndentChildrenOf name = true ∨
      settings.isInline name = true ∧ allBlank (lastLine before) = false then inner = indent
  else inner = indent + settings.indentSize ∨ inner = indent ∧ settings.heightLimit ≠ 0

mutual

/-- Behind this text, a node is planned with its lines where the tree has them, given the indent of
what is in the same element. The lines of a text begin at that indent or, if they are aligned, where
the text does. -/
def Node.Indented (settings : Settings) (plan : Plan) (before : List Char) (indent : Nat) :
    Node → Prop
  | .leaf piece => ∃ gap column layout, plan.get? piece.id = some ⟨gap, .nothing, column, layout⟩ ∧
      gap.BreaksTo indent ∧ ∀ gaps, layout = .text gaps → ∀ inner ∈ gaps,
        inner.BreaksTo (if settings.alignText then columnAfter 0 (before ++ gap.text) else indent)
  | .element elem children => ∃ gap attributes tagEnd endTag,
      plan.get? elem.id = some ⟨gap, .nothing, indent,
        .element attributes tagEnd (settings.contentOf elem.tag) endTag⟩ ∧
      gap.BreaksTo indent ∧ tagEnd.BreaksTo indent ∧
      (settings.contentOf elem.tag = .formatted →
        let start := before ++ gap.text
        let opened := start ++ joinPieces (elem.tag.pieces attributes tagEnd)
        endTag.BreaksTo indent ∧
        (∃ inner, settings.ChildIndent elem.name start indent inner ∧
          IndentedAll settings plan opened inner children) ∧
        -- where both tags begin their lines, they do so in the same column
        ∃ written, plan.renderAll children = .ok written ∧
          let ending := opened ++ joinPieces written ++ endTag.text
          allBlank (lastLine start) = true → allBlank (lastLine ending) = true →
            columnAfter 0 start = indent ∧ columnAfter 0 ending = indent)

/-- Nodes one behind the other, all with the same indent. -/
def Node.IndentedAll (settings : Settings) (plan : Plan) (before : List Char) (indent : Nat) :
    List Node → Prop
  | [] => True
  | node :: rest => Node.Indented settings plan before indent node ∧
      ∃ written, plan.render node = .ok written ∧
        IndentedAll settings plan (before ++ joinPieces written) indent rest

end

/-! ## Where lines go on -/

namespace Settings

variable {settings : Settings} {plan : Plan} {progress : Progress} {written : List Char}
  {indent : Nat}

theorem Regular.breaksTo {gap : Gap} (hregular : settings.Regular indent gap) :
    gap.BreaksTo indent :=
  fun _ _ hgap => hregular.indent_eq hgap

/-- Where a gap behind a text leads to the start of a line, it leads to its indent. -/
theorem Regular.column_eq {gap : Gap} (hregular : settings.Regular indent gap) (hne : written ≠ [])
    (htrimmed : Trimmed written) (hblank : allBlank (lastLine (written ++ gap.text)) = true) :
    columnAfter 0 (written ++ gap.text) = indent := by
  have hinside : '\n' ∉ gap.text → False := fun hnot => by
    rw [htrimmed.not_blank_lastLine hne _ hnot] at hblank
    cases hblank
  cases gap with
  | nothing => exact (hinside (by simp [Gap.text])).elim
  | space => exact (hinside (by simp [Gap.text])).elim
  | kept text => exact hregular.elim
  | lineBreak newlines column =>
      obtain ⟨hone, -, rfl⟩ := hregular
      obtain ⟨more, rfl⟩ := Nat.exists_eq_add_of_le' hone
      rw [columnAfter_zero, Gap.text, (lastLine_append (by simp) written).1, lastLine_replicate,
        List.length_replicate]

/-- Whether an item begins its line can be told from the text in front of it. -/
theorem blank_separate_eq (hkeep : settings.keepWhitespaces = false)
    (hanchored : progress.draft.cursor.anchored = false)
    (hends : progress.draft.cursor.Ends written) (flow : Flow) (blanks : List Char)
    (next : Following) (width : Nat) :
    (settings.separate progress.draft.cursor flow blanks next width).2.1.blank =
      allBlank (lastLine
        (written ++ (settings.separate progress.draft.cursor flow blanks next width).1.text)) := by
  rw [(settings.separate_skip progress.draft.cursor flow blanks next width).2.1]
  exact (hends.stands.skip (settings.regular_separate hkeep hanchored flow blanks next width).blank
    (settings.feeds_separate progress.draft.cursor flow blanks next width)).blank

theorem ownLine_layoutHeading (hkeep : settings.keepWhitespaces = false)
    (hanchored : progress.draft.cursor.anchored = false)
    (hends : progress.draft.cursor.Ends written) (tag : StartTag) (children : List Node) :
    (settings.layoutHeading tag children progress).ownLine =
      allBlank (lastLine (written ++ (settings.layoutHeading tag children progress).before.text)) :=
  blank_separate_eq hkeep hanchored hends _ _ _ _

/-- The indent of an element is that of the flow it lies in. -/
theorem indent_layoutHeading (hkeep : settings.keepWhitespaces = false)
    (hanchored : progress.draft.cursor.anchored = false)
    (hends : progress.draft.cursor.Ends written)
    (hstart : written = [] → progress.draft.cursor.fresh = true ∧ progress.flow.indent = 0)
    (tag : StartTag) (children : List Node) :
    (settings.layoutHeading tag children progress).indent = progress.flow.indent := by
  unfold layoutHeading
  dsimp only
  generalize (if !settings.isInline tag.name then Following.block else .inline) = kind
  generalize (if !settings.isInline tag.name then 0
    else settings.leadingWidth lookahead tag children) = width
  have hregular :=
    settings.regular_separate hkeep hanchored progress.flow progress.blanks kind width
  split
  next hblank =>
    rw [blank_separate_eq hkeep hanchored hends] at hblank
    rw [settings.column_separate hends]
    by_cases hnil : written = []
    · obtain ⟨hfresh, hzero⟩ := hstart hnil
      rw [hzero, hnil, separate, if_pos hfresh]
      rfl
    · exact hregular.column_eq hnil hends.trimmed hblank
  next => exact settings.indent_separate _ _ _ _ _

/-- The start of an element breaks lines to the indent of the flow that it lies in. -/
theorem breaksTo_layoutHeading (hkeep : settings.keepWhitespaces = false)
    (hanchored : progress.draft.cursor.anchored = false) (tag : StartTag) (children : List Node)
    (hindent : (settings.layoutHeading tag children progress).indent = progress.flow.indent) :
    (settings.layoutHeading tag children progress).before.BreaksTo progress.flow.indent ∧
      (settings.layoutHeading tag children progress).tagEnd.BreaksTo progress.flow.indent :=
  ⟨(settings.regular_separate hkeep hanchored _ _ _ _).breaksTo,
    hindent ▸ (settings.regular_tagEndGap tag _).breaksTo⟩

/-- An element that begins its line does so at its indent. -/
theorem column_layoutHeading (hends : progress.draft.cursor.Ends written) (tag : StartTag)
    (children : List Node) (hown : (settings.layoutHeading tag children progress).ownLine = true) :
    columnAfter 0 (written ++ (settings.layoutHeading tag children progress).before.text) =
      (settings.layoutHeading tag children progress).indent :=
  ((if_pos hown).trans (settings.column_separate hends _ _ _ _)).symm

/-- The indent of the children of an element is one that they can have. -/
theorem childIndent_keptStart (id : Nat) {name before : List Char} {heading : Heading}
    (hown : heading.ownLine = allBlank (lastLine before))
    (hblock : heading.block = !settings.isInline name) (content : Nat → Draft → Body) :
    settings.ChildIndent name before heading.indent
      (settings.keptStart id name heading content).1 := by
  unfold ChildIndent keptStart
  rw [hown, hblock]
  split
  next hflush =>
    rw [if_neg]
    rcases hflush with hlisted | ⟨hinline, hmiddle⟩
    · simp [hlisted]
    · simp [hinline, hmiddle]
  next hfree =>
    have hsteps : ((allBlank (lastLine before) || !settings.isInline name) &&
        !settings.doesNotIndentChildrenOf name) = true := by
      simp only [not_or, not_and, Bool.not_eq_true, Bool.not_eq_false] at hfree
      cases hinline : settings.isInline name with
      | false => simp [hfree.1]
      | true => simp [hfree.1, hfree.2 hinline]
    rw [if_pos hsteps]
    -- the children are not indented only where a height has been found out
    have hlimited : settings.isShort? heading.draft id ≠ some true → settings.heightLimit ≠ 0 :=
      fun hshort hzero => hshort (if_pos hzero)
    cases hshort : settings.isShort? heading.draft id with
    | none =>
        dsimp only
        split
        next => exact .inl rfl
        next => exact .inr ⟨rfl, hlimited (by simp [hshort])⟩
    | some short =>
        cases short with
        | true => exact .inl rfl
        | false => exact .inr ⟨rfl, hlimited (by simp [hshort])⟩

/-- The children of an element are laid out for good at an indent that they can have. -/
theorem childIndent_keptContent (hkeep : settings.keepWhitespaces = false)
    (hanchored : progress.draft.cursor.anchored = false)
    (hends : progress.draft.cursor.Ends written) (elem : Element) (children : List Node) :
    let heading := settings.layoutHeading elem.tag children progress
    settings.ChildIndent elem.name (written ++ heading.before.text) heading.indent
      (settings.keptContent elem children progress).flow.indent := by
  intro heading
  exact childIndent_keptStart elem.id (ownLine_layoutHeading hkeep hanchored hends elem.tag
    children) rfl fun indent draft => settings.layoutEnding heading elem.endTag
      (settings.layoutNodes children ⟨draft, Flow.start indent (.start heading.block), []⟩)

/-- The flow behind a node has the indent of the flow in front of it. -/
theorem indent_layoutNode (node : Node) (progress : Progress) :
    (settings.layoutNode node progress).flow.indent = progress.flow.indent := by
  have hfollow : ∀ (flow : Flow) (kind : Following), (flow.follow kind).indent = flow.indent :=
    fun flow kind => by cases kind <;> rfl
  have hatom : ∀ (leaf : Leaf) (kind : Following),
      (settings.layoutAtom leaf kind progress).flow.indent = progress.flow.indent :=
    fun leaf kind => (hfollow _ kind).trans (settings.indent_separate _ _ _ _ _)
  cases node with
  | leaf leaf =>
      rw [layoutNode, layoutLeaf]
      split
      next =>
        unfold layoutText
        split
        next => rfl
        next => exact (hfollow _ .inline).trans (settings.indent_separate _ _ _ _ _)
      next => exact hatom leaf .comment
      next => exact hatom leaf .inline
      next => exact hatom leaf .block
  | element elem children =>
      have hfinish : ∀ (heading : Heading) (content : Content) (body : Body),
          (finishElement elem.id heading content body).flow.indent = heading.flow.indent :=
        fun heading content body => hfollow _ _
      rw [layoutNode]
      split <;> exact (hfinish _ _ _).trans (settings.indent_separate _ _ _ _ _)

/-- A node and what is behind it, in the same flow. -/
theorem indentedAll_cons {node : Node} {rest : List Node} {first others : List OutputPiece}
    (hnode : Node.Indented settings plan written progress.flow.indent node)
    (hall : plan.renderAll (node :: rest) = .ok (first ++ others))
    (hrest : plan.renderAll rest = .ok others)
    (hbehind : Node.IndentedAll settings plan (written ++ joinPieces first)
      (settings.layoutNode node progress).flow.indent rest) :
    Node.IndentedAll settings plan written progress.flow.indent (node :: rest) := by
  rw [indent_layoutNode] at hbehind
  exact ⟨hnode, first, Plan.render_of_renderAll hall hrest, hbehind⟩

/-- The further lines of a text begin at the indent, or where the text does if they are aligned. -/
theorem continuation_layoutPassage (hends : progress.draft.cursor.Ends written)
    (leading : List Char) (first : Word) (words : List (List Char × Word)) :
    let passage := settings.layoutPassage leading first words progress
    passage.continuation = if settings.alignText then columnAfter 0 (written ++ passage.before.text)
      else progress.flow.indent := by
  intro passage
  let found := settings.separate progress.draft.cursor progress.flow (progress.blanks ++ leading)
    .inline first.width
  have hcolumn : found.2.1.column = columnAfter 0 (written ++ passage.before.text) :=
    settings.column_separate hends _ _ _ _
  have hindent : found.2.2.indent = progress.flow.indent := settings.indent_separate _ _ _ _ _
  rw [← hcolumn, ← hindent]
  rfl

/-- Something is written of a text with words. -/
theorem joinPieces_words_ne_nil {text leading trailing : List Char} {first : Word}
    {words : List (List Char × Word)} (hrun : Run.ofText text = .words leading first words trailing)
    {gaps : List Gap} {inside : List OutputPiece}
    (hinside : wordPieces? (first :: words.map (·.2)) gaps = some inside) :
    joinPieces inside ≠ [] := by
  obtain ⟨more, rfl⟩ := exists_behind_word hinside
  have hproper := Run.proper_ofText text
  rw [hrun] at hproper
  rw [joinPieces_append, joinPieces_fragmentPieces]
  exact List.append_ne_nil_of_left_ne_nil hproper.2.1.1 _

/-! Behind any item but a blank text, something has been written. -/

theorem append_words_ne_nil {text leading trailing : List Char} {first : Word}
    {words : List (List Char × Word)} (hrun : Run.ofText text = .words leading first words trailing)
    {gaps : List Gap} {inside : List OutputPiece}
    (hinside : wordPieces? (first :: words.map (·.2)) gaps = some inside) {before : Gap} :
    written ++ joinPieces (before.pieces ++ inside) ≠ [] := by
  simp [joinPieces_append, joinPieces_words_ne_nil hrun hinside]

theorem append_leaf_ne_nil {leaf : Leaf} (hlegible : leaf.Legible) {before : Gap} :
    written ++ joinPieces (before.pieces ++ leaf.pieces) ≠ [] := by
  simp [joinPieces_append, leaf.joinPieces_pieces, hlegible.1]

theorem append_startTag_ne_nil {before tagEnd : Gap} {tag : StartTag}
    {attributes : List AttributeLayout} :
    written ++ joinPieces (before.pieces ++ tag.pieces attributes tagEnd) ≠ [] := by
  simp [joinPieces_append, StartTag.joinPieces_pieces_ne_nil]

theorem append_element_ne_nil {before tagEnd : Gap} {tag : StartTag}
    {attributes : List AttributeLayout} {behind : List OutputPiece} :
    written ++ joinPieces (before.pieces ++ tag.pieces attributes tagEnd ++ behind) ≠ [] := by
  simp [joinPieces_append, StartTag.joinPieces_pieces_ne_nil]

/-- What is written inside an element is written right behind its start tag. -/
theorem isPrefix_inner {output : List Char} {opened inner ending : List OutputPiece}
    (houtput : written ++ joinPieces (opened ++ (inner ++ ending)) <+: output) :
    written ++ joinPieces opened ++ joinPieces inner <+: output := by
  refine List.IsPrefix.trans ?_ houtput
  simp only [joinPieces_append, List.append_assoc, List.prefix_append_right_inj]
  exact List.prefix_append _ _

/-- An element whose content is laid out for good has its lines where the tree has them, if its
children do. -/
theorem indented_formatted {elem : Element} {children : List Node} {heading : Heading} {body : Body}
    {inner : List OutputPiece} (hkeep : settings.keepWhitespaces = false)
    (hanchored : progress.draft.cursor.anchored = false)
    (hends : progress.draft.cursor.Ends written)
    (hstart : written = [] → progress.draft.cursor.fresh = true ∧ progress.flow.indent = 0)
    (hheading : heading = settings.layoutHeading elem.tag children progress)
    (hcontent : settings.contentOf elem.tag = .formatted)
    (hbody : body = settings.layoutEnding heading elem.endTag
      (settings.layoutNodes children (settings.keptContent elem children progress)))
    (hdecision : plan.get? elem.id = some ⟨heading.before, .nothing, heading.indent,
      .element heading.attributes heading.tagEnd .formatted body.endTag⟩)
    (hchildren : settings.Proceeds plan children (settings.keptContent elem children progress)
      (written ++ joinPieces (heading.before.pieces ++
        elem.tag.pieces heading.attributes heading.tagEnd)) inner)
    (hnested : Node.IndentedAll settings plan (written ++ joinPieces (heading.before.pieces ++
        elem.tag.pieces heading.attributes heading.tagEnd))
      (settings.keptContent elem children progress).flow.indent children) :
    Node.Indented settings plan written progress.flow.indent (.element elem children) := by
  have hindent := indent_layoutHeading hkeep hanchored hends hstart elem.tag children
  obtain ⟨hgap, htagEnd⟩ := breaksTo_layoutHeading hkeep hanchored elem.tag children hindent
  have hchild := childIndent_keptContent hkeep hanchored hends elem children
  dsimp only at hchild
  rw [← hheading] at hindent hgap htagEnd hchild
  rw [hindent] at hchild
  have hending : settings.Regular progress.flow.indent body.endTag := by
    rw [← hindent, hbody]
    exact settings.regular_layoutEnding hkeep _ _ _
  have hcontentEnds := hchildren.ends_behind.trimmed
  rw [joinPieces_append, Gap.joinPieces_pieces, ← List.append_assoc] at hnested hcontentEnds
  rw [← hcontent, hindent] at hdecision
  refine ⟨_, _, _, _, hdecision, hgap, htagEnd, fun _ => ⟨hending.breaksTo, ⟨_, hchild, hnested⟩,
    inner, hchildren.renderAll, ?_⟩⟩
  intro ending hown hclosed
  constructor
  · have hcolumn := @column_layoutHeading settings _ _ hends elem.tag children
    rw [ownLine_layoutHeading hkeep hanchored hends, ← hheading, hindent] at hcolumn
    exact hcolumn hown
  · refine hending.column_eq ?_ hcontentEnds hclosed
    simp [StartTag.joinPieces_pieces_ne_nil]

/-- The lines of nodes that are laid out for good go on where the tree has them. -/
theorem Proceeds.indented {nodes : List Node} {pieces : List OutputPiece}
    (hkeep : settings.keepWhitespaces = false)
    (hproceeds : settings.Proceeds plan nodes progress written pieces)
    (hanchored : progress.draft.cursor.anchored = false)
    (hstart : written = [] → progress.draft.cursor.fresh = true ∧ progress.flow.indent = 0) :
    Node.IndentedAll settings plan written progress.flow.indent nodes := by
  induction hproceeds with
  | nil => trivial
  | @blank leaf rest progress written leading others hkind hrun hdecision hends hrest ih =>
      have hsame := @layoutNode_blank settings leaf progress leading hkind hrun
      have hfound := ih (anchored_layoutNode hanchored) (by rw [hsame]; exact hstart)
      rw [← List.append_nil written] at hfound
      refine @indentedAll_cons _ _ _ _ (.leaf leaf) _ [] _ ⟨_, _, _, hdecision, nofun, ?_⟩
        (Proceeds.blank hkind hrun hdecision hends hrest).renderAll hrest.renderAll hfound
      rintro gaps hgaps
      obtain rfl := Layout.text.inj hgaps
      simp
  | @words leaf rest progress written leading trailing first words passage inside others hkind hrun
      hpassage hdecision hinside hends hrest ih =>
      have hall := (Proceeds.words hkind hrun hpassage hdecision hinside hends hrest).renderAll
      have hfound := ih (anchored_layoutNode hanchored) (append_words_ne_nil hrun hinside).elim
      subst hpassage
      refine indentedAll_cons ⟨_, _, _, hdecision,
        (settings.regular_separate hkeep hanchored _ _ _ _).breaksTo, ?_⟩ hall
          hrest.renderAll hfound
      rintro gaps hgaps gap hmem
      obtain rfl := Layout.text.inj hgaps
      rw [← continuation_layoutPassage hends leading first words]
      exact (regular_layoutPassage hkeep leading first words gap hmem).breaksTo
  | @atom leaf rest progress written kind separated others hkind hlegible hseparated hlaid hdecision
      hends hrest ih =>
      have hall := (Proceeds.atom hkind hlegible hseparated hlaid hdecision hends hrest).renderAll
      have hfound := ih (anchored_layoutNode hanchored) (append_leaf_ne_nil hlegible).elim
      subst hseparated
      exact indentedAll_cons ⟨_, _, _, hdecision,
        (settings.regular_separate hkeep hanchored _ _ _ _).breaksTo, nofun⟩ hall
          hrest.renderAll hfound
  | @closed elem children rest progress written heading endTag kept others hheading hfits hkept
      hdecision hends hrest ih =>
      have hall := (Proceeds.closed hheading hfits hkept hdecision hends hrest).renderAll
      have hindent := indent_layoutHeading hkeep hanchored hends hstart elem.tag children
      obtain ⟨hgap, htagEnd⟩ := breaksTo_layoutHeading hkeep hanchored elem.tag children hindent
      rw [← hheading] at hindent hgap htagEnd
      have hfound := ih (anchored_layoutNode hanchored) append_element_ne_nil.elim
      rw [hindent] at hdecision
      refine indentedAll_cons ⟨_, _, _, _, hdecision, hgap, htagEnd, fun hcontent => ?_⟩ hall
        hrest.renderAll hfound
      exact absurd hcontent (contentOf_ne_formatted hkept)
  | @formatted elem children rest progress written heading body inner others hheading hfits hcontent
      hclose hbody hdecision hends hchildren hrest ihinner ih =>
      have hall :=
        (Proceeds.formatted hheading hfits hcontent hclose hbody hdecision hends hchildren
          hrest).renderAll
      have hfound := ih (anchored_layoutNode hanchored) append_element_ne_nil.elim
      have hnested := ihinner (anchored_keptContent hanchored) append_startTag_ne_nil.elim
      exact indentedAll_cons (indented_formatted hkeep hanchored hends hstart hheading hcontent
        hbody hdecision hchildren hnested) hall hrest.renderAll hfound

end Settings

/-- Where blanks are not kept, a document is planned with its lines where its tree has them, from no
indent on. -/
theorem layoutDocument_indented {settings : Settings} {text : List Char} {document : Document}
    (hcheck : settings.check = .ok ()) (hkeep : settings.keepWhitespaces = false)
    (hparse : parse text = .ok document) :
    ∃ plan, settings.plan document none = .ok plan ∧
      Node.IndentedAll settings plan [] 0 document.children := by
  obtain ⟨pieces, -, hproceeds, -⟩ := formatPieces_proceeds hcheck hparse
  exact ⟨settings.layoutDocument document, settings.plan_none hcheck document,
    hproceeds.indented hkeep rfl fun _ => ⟨rfl, rfl⟩⟩

/-- A list with a listed element in it, an item that is not ended and one that is broken off. -/
theorem layoutDocument_indented_list :
    let settings : Settings := { alignText := true }
    let text := "<ul><li>a <b>b\nc</b>\n<li  id=d\n>e</ul >\n<pre> f</pre><table><tr>g"
    settings.check = .ok () ∧ settings.keepWhitespaces = false ∧ ∃ document plan,
      parse text.toList = .ok document ∧ settings.plan document none = .ok plan ∧
        Node.IndentedAll settings plan [] 0 document.children := by
  intro settings text
  have hcheck : settings.check = .ok () := by with_unfolding_all rfl
  have hread : (parse text.toList).toOption.isSome = true := by decide +kernel
  obtain ⟨document, hdocument⟩ := Option.isSome_iff_exists.mp hread
  have hparse := toOption_eq_some_iff.mp hdocument
  obtain ⟨plan, hplan, hindented⟩ := layoutDocument_indented hcheck rfl hparse
  exact ⟨hcheck, rfl, document, plan, hparse, hplan, hindented⟩

end Markup
