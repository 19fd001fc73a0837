import Markup.Proofs.Output.Indentation

/-!
# Heights

Where heights are limited, the children of an element are indented only if the element is short.
Whether it is has to be found out by a trial, in which its content is laid out with the children
indented; what comes of the trial is kept if the element is short, and only its height if it is not.
The heights of elements inside are noted in the trial as well, and are not found out about again. So
an element with indented children is short in the output if no element around it was laid out a
second time; if one was, the height that counts is that in a layout that has been given up. Main
statements: `format_steps_short`, and `format_steps_tall` where the height is not that in the
output.
-/

namespace Markup

open Markup.Text

/-! ## Elements and their heights -/

/-- The content of an element with this name, behind this text, is laid out once if its children are
indented, or can not be whatever its height is: it is listed, or is inline and does not begin its
line. -/
def Settings.LaidOnce (settings : Settings) (name before : List Char) (indent inner : Nat) : Prop :=
  inner = indent + settings.indentSize ∨ settings.doesNotIndentChildrenOf name = true ∨
    settings.isInline name = true ∧ allBlank (lastLine before) = false

mutual

/-- Behind this text, a node is laid out at this indent, which is evident wherever it begins a line
that layout breaks off, and from its own indent unless blanks are kept in front of an element that
begins its line. The children of an element are indented only if the element has fewer lines in the
output than the limit, as far as it is sure that every element around it is laid out once. -/
def Node.Measured (settings : Settings) (plan : Plan) (output : List Char) (sure : Prop)
    (before : List Char) (indent : Nat) : Node → Prop
  | .leaf piece => ∃ gap column layout, plan.get? piece.id = some ⟨gap, .nothing, column, layout⟩ ∧
      gap.BreaksTo indent ∧ (piece.kind = .text → column = indent)
  | .element elem children => ∃ gap column attributes tagEnd endTag,
      plan.get? elem.id = some ⟨gap, .nothing, column,
        .element attributes tagEnd (settings.contentOf elem.tag) endTag⟩ ∧
      gap.BreaksTo indent ∧
      let start := before ++ gap.text
      let tag := joinPieces (elem.tag.pieces attributes tagEnd)
      (settings.keepWhitespaces = false ∨ allBlank (lastLine start) = false → column = indent) ∧
      (settings.contentOf elem.tag = .formatted → ∃ inner written,
        settings.ChildIndent elem.name start column inner ∧ plan.renderAll children = .ok written ∧
        let whole := tag ++ joinPieces (written ++ endPieces elem.endTag endTag)
        start ++ whole <+: output ∧
        (sure → inner = column + settings.indentSize → newlines whole < settings.heightLimit) ∧
        MeasuredAll settings plan output (sure ∧ settings.LaidOnce elem.name start column inner)
          (start ++ tag) inner children)

/-- Nodes one behind the other, all at the same indent. -/
def Node.MeasuredAll (settings : Settings) (plan : Plan) (output : List Char) (sure : Prop)
    (before : List Char) (indent : Nat) : List Node → Prop
  | [] => True
  | node :: rest => Node.Measured settings plan output sure before indent node ∧
      ∃ written, plan.render node = .ok written ∧
        MeasuredAll settings plan output sure (before ++ joinPieces written) indent rest

end

namespace Settings

variable {settings : Settings} {plan : Plan} {progress : Progress} {written output : List Char}

/-! ## Trials -/

/-- Where nothing is known of the height of an element, its children are indented and it is short
with its content laid out like this, or they are not and no trial has been made, or one has. -/
theorem keptStart_of_unknown (hlimit : settings.heightLimit ≠ 0) {id : Nat} {name : List Char}
    {heading : Heading} (hunknown : heading.draft.short? id = none) (content : Nat → Draft → Body) :
    let kept := settings.keptStart id name heading content
    let steps := (heading.ownLine || heading.block) && !settings.doesNotIndentChildrenOf name
    kept = (heading.indent + settings.indentSize, heading.draft) ∧
        (content kept.1 kept.2).draft.cursor.lines - heading.lines < settings.heightLimit ∨
      kept = (heading.indent, heading.draft) ∧ steps = false ∨
        kept.1 = heading.indent ∧ steps = true := by
  intro kept steps
  have hshort : settings.isShort? heading.draft id = none := by
    rw [isShort?, if_neg hlimit, hunknown]
  cases hsteps : steps with
  | false =>
      have hkept : kept = (heading.indent, heading.draft) := by
        simp only [kept, keptStart]
        rw [if_neg (by simpa [steps] using hsteps)]
      exact .inr (.inl ⟨hkept, rfl⟩)
  | true =>
      simp only [kept, keptStart]
      rw [if_pos (by simpa [steps] using hsteps), hshort]
      dsimp only
      split
      next hfits => exact .inl ⟨rfl, Nat.blt_eq.mp hfits⟩
      next => exact .inr (.inr ⟨rfl, trivial⟩)

/-- What is not known of the nodes behind a node is not found out in the node. -/
theorem Course.unknown_tail {node : Node} {rest : List Node}
    (hcourse : settings.Course plan (node :: rest) progress)
    (hunknown : ∀ id ∈ Node.idsOfAll (node :: rest), progress.draft.short? id = none) :
    ∀ id ∈ Node.idsOfAll rest, (settings.layoutNode node progress).draft.short? id = none := by
  intro id hmem
  have hnodup := hcourse.nodup
  rw [Node.idsOfAll_cons] at hnodup hunknown
  obtain ⟨-, -, hdisjoint⟩ := List.nodup_append.mp hnodup
  rw [(settings.keeps_layoutNode node progress).short id fun hin => hdisjoint id hin id hmem rfl]
  exact hunknown id (List.mem_append_right _ hmem)

/-! ## Headings -/

theorem breaksTo_separate (cursor : Cursor) (flow : Flow) (blanks : List Char) (next : Following)
    (width : Nat) : (settings.separate cursor flow blanks next width).1.BreaksTo flow.indent := by
  unfold separate
  split
  next => exact nofun
  next =>
    split
    next => cases blanks <;> exact nofun
    next => exact (settings.regular_gapBetween cursor flow blanks next width).breaksTo

/-- Whether an element begins its line can be told from the text in front of it. -/
theorem ownLine_of_blanks (hends : progress.draft.cursor.Ends written)
    (hblanks : allBlank progress.blanks = true) (tag : StartTag) (children : List Node) :
    (settings.layoutHeading tag children progress).ownLine =
      allBlank (lastLine (written ++ (settings.layoutHeading tag children progress).before.text)) :=
  (settings.separate_skip _ _ _ _ _).2.1.trans (hends.stands.skip
    (settings.blank_separate _ _ _ _ hblanks) (settings.feeds_separate _ _ _ _ _)).blank

/-- An element that does not begin its line has the indent of the flow it lies in. -/
theorem indent_of_ownLine {tag : StartTag} {children : List Node}
    (hown : (settings.layoutHeading tag children progress).ownLine = false) :
    (settings.layoutHeading tag children progress).indent = progress.flow.indent := by
  have hinside : (settings.layoutHeading tag children progress).indent =
      (settings.layoutHeading tag children progress).flow.indent :=
    if_neg (Bool.eq_false_iff.mp hown)
  exact hinside.trans (settings.indent_separate _ _ _ _ _)

theorem childIndent_of_blanks (hends : progress.draft.cursor.Ends written)
    (hblanks : allBlank progress.blanks = true) (elem : Element) (children : List Node) :
    let heading := settings.layoutHeading elem.tag children progress
    settings.ChildIndent elem.name (written ++ heading.before.text) heading.indent
      (settings.keptContent elem children progress).flow.indent := by
  intro heading
  exact childIndent_keptStart elem.id (ownLine_of_blanks hends hblanks elem.tag children) rfl
    fun indent draft => settings.layoutEnding heading elem.endTag
      (settings.layoutNodes children ⟨draft, Flow.start indent (.start heading.block), []⟩)

/-- The number of lines noted in front of a start tag is that of the text in front of it. -/
theorem lines_eq_newlines (hends : progress.draft.cursor.Ends written) (tag : StartTag)
    (children : List Node) : (settings.layoutHeading tag children progress).lines =
      newlines (written ++ (settings.layoutHeading tag children progress).before.text) := by
  rw [newlines_append, ← hends.lines]
  exact (settings.passes_separate _ _ _ _ _).lines

/-- Laying out the content for good ends where the element ends. -/
theorem newlines_of_layoutEnding {elem : Element} {children : List Node} {pieces : List OutputPiece}
    (hcontent : settings.contentOf elem.tag = .formatted)
    (hends : progress.draft.cursor.Ends written)
    (hbehind : (settings.layoutNode (.element elem children) progress).draft.cursor.Ends
      (written ++ joinPieces ((settings.layoutHeading elem.tag children progress).before.pieces ++
        pieces))) :
    let heading := settings.layoutHeading elem.tag children progress
    newlines (joinPieces pieces) = (settings.layoutEnding heading elem.endTag
      (settings.layoutNodes children
        (settings.keptContent elem children progress))).draft.cursor.lines - heading.lines := by
  intro heading
  obtain ⟨short, hlaid⟩ := @layoutNode_formatted settings progress elem children hcontent
  have hlines := hbehind.lines
  rw [hlaid, joinPieces_append, Gap.joinPieces_pieces, ← List.append_assoc, newlines_append,
    ← lines_eq_newlines hends] at hlines
  exact Nat.eq_sub_of_add_eq' hlines.symm

/-- Where nothing is known of the height of an element, the element is short if its children are
indented; and if its content is laid out once, nothing more is known when that is laid out for
good. -/
theorem keptContent_of_unknown (hlimit : settings.heightLimit ≠ 0) (hstep : 0 < settings.indentSize)
    (hends : progress.draft.cursor.Ends written) (hblanks : allBlank progress.blanks = true)
    {elem : Element} {children : List Node} (hunknown : progress.draft.short? elem.id = none) :
    let heading := settings.layoutHeading elem.tag children progress
    let kept := settings.keptContent elem children progress
    (kept.flow.indent = heading.indent + settings.indentSize →
      (settings.layoutEnding heading elem.endTag
        (settings.layoutNodes children kept)).draft.cursor.lines - heading.lines <
          settings.heightLimit) ∧
      (settings.LaidOnce elem.name (written ++ heading.before.text) heading.indent
        kept.flow.indent → kept.draft.short = progress.draft.short) := by
  intro heading kept
  have hsteps : ((heading.ownLine || heading.block) && !settings.doesNotIndentChildrenOf
      elem.name) = true → kept.flow.indent = heading.indent →
        ¬ settings.LaidOnce elem.name (written ++ heading.before.text) heading.indent
          kept.flow.indent := by
    rintro hsteps hflush (hindented | hlisted | ⟨hinline, hmiddle⟩)
    · omega
    · simp [hlisted] at hsteps
    · have hown : heading.ownLine = false :=
        (ownLine_of_blanks hends hblanks elem.tag children).trans hmiddle
      have hblock : heading.block = false := by
        rw [show heading.block = !settings.isInline elem.name from rfl, hinline, Bool.not_true]
      simp [hown, hblock] at hsteps
  have htrial := @keptStart_of_unknown settings hlimit elem.id elem.name heading hunknown
    fun indent draft => settings.layoutEnding heading elem.endTag
      (settings.layoutNodes children ⟨draft, Flow.start indent (.start heading.block), []⟩)
  rcases htrial with ⟨hkept, hfits⟩ | ⟨hkept, -⟩ | ⟨hkept, htried⟩
  · exact ⟨fun _ => hfits, fun _ => congrArg (fun start => start.2.short) hkept⟩
  · have hflush : kept.flow.indent = heading.indent := congrArg Prod.fst hkept
    exact ⟨fun hindented => absurd (hflush.symm.trans hindented) (by omega),
      fun _ => congrArg (fun start => start.2.short) hkept⟩
  · have hflush : kept.flow.indent = heading.indent := hkept
    exact ⟨fun hindented => absurd (hflush.symm.trans hindented) (by omega),
      fun honce => absurd honce (hsteps htried hflush)⟩

/-! ## Nodes -/

/-- A node and what is behind it, in the same flow. -/
theorem measuredAll_cons {sure : Prop} {node : Node} {rest : List Node}
    {first others : List OutputPiece}
    (hnode : Node.Measured settings plan output sure written progress.flow.indent node)
    (hall : plan.renderAll (node :: rest) = .ok (first ++ others))
    (hrest : plan.renderAll rest = .ok others)
    (hbehind : Node.MeasuredAll settings plan output sure (written ++ joinPieces first)
      (settings.layoutNode node progress).flow.indent rest) :
    Node.MeasuredAll settings plan output sure written progress.flow.indent (node :: rest) := by
  rw [indent_layoutNode] at hbehind
  exact ⟨hnode, first, Plan.render_of_renderAll hall hrest, hbehind⟩

/-- The indent of an element is that of the flow, unless blanks are kept in front of it. -/
theorem column_of_flow (hanchored : progress.draft.cursor.anchored = false)
    (hends : progress.draft.cursor.Ends written) (hblanks : allBlank progress.blanks = true)
    (hstart : written = [] → progress.draft.cursor.fresh = true ∧ progress.flow.indent = 0)
    (tag : StartTag) (children : List Node)
    (hplain : settings.keepWhitespaces = false ∨ allBlank (lastLine
      (written ++ (settings.layoutHeading tag children progress).before.text)) = false) :
    (settings.layoutHeading tag children progress).indent = progress.flow.indent := by
  rcases hplain with hkeep | hmiddle
  · exact indent_layoutHeading hkeep hanchored hends hstart tag children
  · rw [← ownLine_of_blanks hends hblanks] at hmiddle
    exact indent_of_ownLine hmiddle

/-- In nodes of which no height is known, the elements with indented children are short as long as
everything around them is laid out once. -/
theorem Proceeds.measured {sure : Prop} {nodes : List Node} {pieces : List OutputPiece}
    (hlimit : settings.heightLimit ≠ 0) (hstep : 0 < settings.indentSize)
    (hproceeds : settings.Proceeds plan nodes progress written pieces)
    (hcourse : settings.Course plan nodes progress)
    (hunknown : sure → ∀ id ∈ Node.idsOfAll nodes, progress.draft.short? id = none)
    (hanchored : progress.draft.cursor.anchored = false)
    (hstart : written = [] → progress.draft.cursor.fresh = true ∧ progress.flow.indent = 0)
    (houtput : written ++ joinPieces pieces <+: output) :
    Node.MeasuredAll settings plan output sure written progress.flow.indent nodes := by
  induction hproceeds generalizing sure with
  | nil => trivial
  | @blank leaf rest progress written leading others hkind hrun hdecision hends hrest ih =>
      have hsame := @layoutNode_blank settings leaf progress leading hkind hrun
      have hfound := ih hcourse.tail (fun hsure => hcourse.unknown_tail (hunknown hsure))
        (anchored_layoutNode hanchored) (by rw [hsame]; exact hstart) houtput
      rw [← List.append_nil written] at hfound
      exact @measuredAll_cons _ _ _ _ _ _ (.leaf leaf) _ [] _ ⟨_, _, _, hdecision, nofun, fun _ =>
        rfl⟩ (Proceeds.blank hkind hrun hdecision hends hrest).renderAll hrest.renderAll hfound
  | @words leaf rest progress written leading trailing first words passage inside others hkind hrun
      hpassage hdecision hinside hends hrest ih =>
      have hall := (Proceeds.words hkind hrun hpassage hdecision hinside hends hrest).renderAll
      rw [joinPieces_append, ← List.append_assoc] at houtput
      have hfound := ih hcourse.tail (fun hsure => hcourse.unknown_tail (hunknown hsure))
        (anchored_layoutNode hanchored) (append_words_ne_nil hrun hinside).elim houtput
      subst hpassage
      exact measuredAll_cons ⟨_, _, _, hdecision, settings.breaksTo_separate _ _ _ _ _,
        fun _ => settings.indent_separate _ _ _ _ _⟩ hall hrest.renderAll hfound
  | @atom leaf rest progress written kind separated others hkind hlegible hseparated hlaid hdecision
      hends hrest ih =>
      have hall := (Proceeds.atom hkind hlegible hseparated hlaid hdecision hends hrest).renderAll
      rw [joinPieces_append, ← List.append_assoc] at houtput
      have hfound := ih hcourse.tail (fun hsure => hcourse.unknown_tail (hunknown hsure))
        (anchored_layoutNode hanchored) (append_leaf_ne_nil hlegible).elim houtput
      subst hseparated
      exact measuredAll_cons ⟨_, _, _, hdecision, settings.breaksTo_separate _ _ _ _ _,
        fun htext => absurd htext hkind⟩ hall hrest.renderAll hfound
  | @closed elem children rest progress written heading endTag kept others hheading hfits hkept
      hdecision hends hrest ih =>
      have hall := (Proceeds.closed hheading hfits hkept hdecision hends hrest).renderAll
      rw [joinPieces_append, ← List.append_assoc] at houtput
      have hfound := ih hcourse.tail (fun hsure => hcourse.unknown_tail (hunknown hsure))
        (anchored_layoutNode hanchored) append_element_ne_nil.elim houtput
      subst hheading
      refine measuredAll_cons ⟨_, _, _, _, _, hdecision, settings.breaksTo_separate _ _ _ _ _,
        column_of_flow hanchored hends hcourse.blanks hstart elem.tag children,
        fun hcontent => ?_⟩ hall hrest.renderAll hfound
      exact absurd hcontent (contentOf_ne_formatted hkept)
  | @formatted elem children rest progress written heading body inner others hheading hfits hcontent
      hclose hbody hdecision hends hchildren hrest ihinner ih =>
      have hall :=
        (Proceeds.formatted hheading hfits hcontent hclose hbody hdecision hends hchildren
          hrest).renderAll
      rw [joinPieces_append, ← List.append_assoc] at houtput
      have hfound := ih hcourse.tail (fun hsure => hcourse.unknown_tail (hunknown hsure))
        (anchored_layoutNode hanchored) append_element_ne_nil.elim houtput
      have helement := (List.prefix_append _ _).trans houtput
      have hopened := isPrefix_inner helement
      have hbehind := hrest.ends
      rw [List.append_assoc heading.before.pieces] at helement hbehind
      have hknown : sure → _ :=
        fun hsure => @keptContent_of_unknown settings progress written hlimit hstep hends
          hcourse.blanks elem children (hunknown hsure elem.id (by simp))
      subst hheading hbody
      have hnested := @ihinner (sure ∧ settings.LaidOnce elem.name
          (written ++ (settings.layoutHeading elem.tag children progress).before.text)
          (settings.layoutHeading elem.tag children progress).indent
          (settings.keptContent elem children progress).flow.indent)
        (hcourse.content hcontent) (fun hsure id hmem => by
          rw [Draft.short?, (hknown hsure.1).2 hsure.2]
          exact hunknown hsure.1 id (by simp [hmem])) (anchored_keptContent hanchored)
        append_startTag_ne_nil.elim hopened
      rw [joinPieces_append, Gap.joinPieces_pieces, ← List.append_assoc] at helement hnested
      have hheight := newlines_of_layoutEnding hcontent hends hbehind
      rw [joinPieces_append] at helement hheight
      rw [← hcontent] at hdecision
      refine measuredAll_cons ⟨_, _, _, _, _, hdecision, settings.breaksTo_separate _ _ _ _ _,
        column_of_flow hanchored hends hcourse.blanks hstart elem.tag children, fun _ => ⟨_, inner,
        childIndent_of_blanks hends hcourse.blanks elem children, hchildren.renderAll, helement,
        fun hsure hindented => ?_, hnested⟩⟩ hall hrest.renderAll hfound
      rw [hheight]
      exact (hknown hsure).1 hindented

end Settings

/-- Where heights are limited and children can be indented, the elements of a document that have
their children indented have fewer lines in the output than the limit, as far as everything around
them is laid out once. -/
theorem format_steps_short {settings : Settings} {text : String} {document : Document}
    (hcheck : settings.check = .ok ()) (hlimit : 0 < settings.heightLimit)
    (hstep : 0 < settings.indentSize) (hparse : parse text.toList = .ok document) :
    ∃ plan output, settings.plan document none = .ok plan ∧
      format .plain settings text none = .ok output ∧
        Node.MeasuredAll settings plan output.toList True [] 0 document.children := by
  obtain ⟨pieces, hpieces, hproceeds, -⟩ := formatPieces_proceeds hcheck hparse
  refine ⟨settings.layoutDocument document, String.ofList (joinPieces (pieces ++
    (settings.layoutDocument document).ending.pieces)), settings.plan_none hcheck document, ?_, ?_⟩
  · rw [format_eq_map, hpieces]
    rfl
  · refine hproceeds.measured (Nat.ne_of_gt hlimit) hstep (settings.course_document hparse)
      (fun _ id _ => ?_) rfl (fun _ => ⟨rfl, rfl⟩) ?_
    · unfold Settings.planningStart Draft.start Draft.short?
      rw [Array.getElem?_replicate]
      split <;> rfl
    · rw [String.toList_ofList, joinPieces_append, List.nil_append]
      exact List.prefix_append _ _

/-- A list that is too tall with items that are short, and a short element with a child. -/
theorem format_steps_short_list :
    let settings : Settings := { rightMargin := 20, heightLimit := 3 }
    let text := "<ul><li>one<li>two <p>three</p></li></ul><div><p>four</p></div>"
    settings.check = .ok () ∧ 0 < settings.heightLimit ∧ 0 < settings.indentSize ∧
      ∃ document plan output, parse text.toList = .ok document ∧
        settings.plan document none = .ok plan ∧ format .plain settings text none = .ok output ∧
          Node.MeasuredAll settings plan output.toList True [] 0 document.children := by
  intro settings text
  have hcheck : settings.check = .ok () := by with_unfolding_all rfl
  have hread : (parse text.toList).toOption.isSome = true := by decide +kernel
  obtain ⟨document, hdocument⟩ := Option.isSome_iff_exists.mp hread
  have hparse := toOption_eq_some_iff.mp hdocument
  obtain ⟨plan, output, hplan, hformat, hmeasured⟩ :=
    format_steps_short hcheck (by decide) (by decide) hparse
  exact ⟨hcheck, by decide, by decide, document, plan, output, hparse, hplan, hformat, hmeasured⟩

/-- The element that is all there is in the element that a document is. -/
def Document.inside? (document : Document) : Option (Element × Element × List Node) :=
  match document.children with
  | [.element outer [.element elem children]] => some (outer, elem, children)
  | _ => none

theorem Document.inside?_eq_some {document : Document} {outer elem : Element} {children : List Node}
    (hinside : document.inside? = some (outer, elem, children)) :
    document.children = [.element outer [.element elem children]] := by
  unfold inside? at hinside
  split at hinside
  next hchildren =>
    obtain ⟨rfl, rfl, rfl⟩ := by simpa using hinside
    exact hchildren
  next => cases hinside

/-- In the trial of the list, the inline element in the item begins behind a word, and the item is
short. But the list is too tall, and without the indent the inline element begins a line of its own,
so that its end tag does so as well: the item has its children indented and as many lines as the
limit. -/
theorem format_steps_tall :
    let settings : Settings := { rightMargin := 14, heightLimit := 4 }
    let text := "<ul><li>bread a <b>a biscuit</b></li></ul>"
    let item := "<li>bread a\n    <b>a\n        biscuit\n    </b>\n</li>"
    settings.check = .ok () ∧ format .plain settings text none =
      .ok ("<ul>\n" ++ item ++ "\n</ul>") ∧
      settings.heightLimit ≤ newlines item.toList ∧
      ∃ document plan list elem children, parse text.toList = .ok document ∧
        settings.plan document none = .ok plan ∧
        document.children = [.element list [.element elem children]] ∧
        (plan.get? elem.id).map Decision.indent = some 0 ∧
        ∀ child ∈ children, (plan.get? child.id).map Decision.indent =
          some settings.indentSize := by
  intro settings text item
  have hcheck : settings.check = .ok () := by with_unfolding_all rfl
  have hformat : format .plain settings text none = .ok ("<ul>\n" ++ item ++ "\n</ul>") := by
    rw [← toOption_eq_some_iff]
    decide +kernel
  have hread : ((parse text.toList).toOption.any fun document =>
      document.inside?.any fun found =>
        ((settings.layoutDocument document).get? found.2.1.id).map Decision.indent == some 0 &&
          found.2.2.all fun child =>
            ((settings.layoutDocument document).get? child.id).map Decision.indent ==
              some settings.indentSize) = true := by decide +kernel
  obtain ⟨document, hdocument, hfound⟩ := (Option.any_eq_true _ _).mp hread
  obtain ⟨⟨list, elem, children⟩, hinside, hlaid⟩ := (Option.any_eq_true _ _).mp hfound
  obtain ⟨helement, hchildren⟩ := Bool.and_eq_true_iff.mp hlaid
  refine ⟨hcheck, hformat, by decide, document, settings.layoutDocument document, list, elem,
    children, toOption_eq_some_iff.mp hdocument, settings.plan_none hcheck document,
    Document.inside?_eq_some hinside, beq_iff_eq.mp helement, fun child hmem => ?_⟩
  exact beq_iff_eq.mp (List.all_eq_true.mp hchildren child hmem)

end Markup
