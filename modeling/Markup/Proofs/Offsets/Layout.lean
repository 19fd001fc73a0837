import Markup.Proofs.Offsets.Flow
import Markup.Proofs.Plan.Agreement
import Markup.Proofs.Plan.Advance

/-!
# Laying out nodes by byte offsets

The nodes of a document are laid out while the blanks behind the last item wait as byte offsets. The
content of an element that is preserved is cut out of the source, the height of an element is a
difference of two numbers of lines, and a decision is refused whose node is not in the table. Main
statement: `Settings.follows_layoutNodes`, by which none of this ever goes wrong for the nodes of a
source, and the decisions are those of the layout of the nodes themselves.
-/

namespace Markup

open Markup.Text

/-! ## Layout by offsets -/

/-- How far a flow of nodes has been laid out, with the blanks that wait for the next item. -/
structure Walk where
  draft : Draft
  flow : Flow
  pending : Pending
  deriving DecidableEq, Repr, Inhabited

/-- The content of an element, laid out, with the blanks that are left over where there is no end
tag. -/
structure Inside where
  endTag : Gap
  pending : Pending
  broken : Bool
  draft : Draft
  deriving DecidableEq, Repr, Inhabited

/-- Decides about a node, if the plan has a place for it. -/
def Draft.decide? (draft : Draft) (id : Nat) (decision : Decision) : Option Draft :=
  if id < draft.plan.decisions.size then some (draft.decide id decision) else none

/-- Where the copy ends that is made of the content of an element if that is preserved. -/
def Element.preservedStop? (elem : Element) (source : List Char) : Option Nat :=
  match elem.endTag with
  | some _ => some elem.span.stop
  | none => do
      let content ← slice? source elem.opened.stop elem.span.stop
      return elem.opened.stop + byteSize (splitTail content).1

/-- The first word of a text, reached by its index, if no blank stands in front of it. -/
def firstWord? (text : List Char) : Option (Option Word) :=
  match fragments text with
  | [] => some none
  | piece :: _ =>
      if piece.kind = .blank then some none
      else do
        let parts ← parts? (fragments text)
        let word ← parts.words[0]?
        return some word

namespace Settings

/-- Number of columns of a start tag on one line, together with what is glued to it. -/
def leadingWidth? (settings : Settings) : Nat → StartTag → List Node → Option Nat
  | 0, tag, _ => some (settings.tagWidth tag)
  | depth + 1, tag, children =>
      if settings.preserves tag.name then some (settings.tagWidth tag)
      else
        match children with
        | .element child inner :: _ =>
            if settings.isInline child.name then
              (settings.leadingWidth? depth child.tag inner).map (settings.tagWidth tag + ·)
            else some (settings.tagWidth tag)
        | .leaf leaf :: _ =>
            if leaf.kind = .text then
              (firstWord? leaf.raw).map fun word =>
                settings.tagWidth tag + (word.map Word.width).getD 0
            else some (settings.tagWidth tag)
        | [] => some (settings.tagWidth tag)

/-- Lays out a leaf that is not text. -/
def layoutAtom? (settings : Settings) (source : List Char) (leaf : Leaf) (kind : Following)
    (walk : Walk) : Option Walk := do
  let width := (firstLine leaf.raw).length
  let (gap, cursor, flow) ←
    settings.separate? source walk.draft.cursor walk.flow walk.pending kind width
  let written ← cursor.write? leaf.raw
  let draft ← (walk.draft.moveTo written).decide? leaf.id ⟨gap, .nothing, cursor.column, .atom⟩
  return ⟨draft, flow.follow kind, {}⟩

/-- Lays out a text. -/
def layoutText? (settings : Settings) (source : List Char) (leaf : Leaf) (walk : Walk) :
    Option Walk := do
  let parts ← parts? (fragments leaf.raw)
  let start := leaf.span.start
  let pending := walk.pending.extend start (start + byteSize parts.leading)
  if parts.words.isEmpty then do
    let draft ← walk.draft.decide? leaf.id ⟨.nothing, .nothing, walk.flow.indent, .text []⟩
    return ⟨draft, walk.flow, pending⟩
  else do
    let widths := parts.words.map Word.width
    let first ← widths[0]?
    let (gap, cursor, flow) ←
      settings.separate? source walk.draft.cursor walk.flow pending .inline first
    let continuation := if settings.alignText then cursor.column else flow.indent
    let (gaps, after, broken) ←
      settings.layoutSegments? continuation widths parts.gaps widths.length 0 cursor
    let draft ← (walk.draft.moveTo after).decide? leaf.id ⟨gap, .nothing, flow.indent, .text gaps⟩
    let left ← minus? leaf.span.stop (byteSize parts.trailing)
    return ⟨draft, { flow with broken := flow.broken || broken }.follow .inline,
      ({} : Pending).extend left leaf.span.stop⟩

def layoutLeaf? (settings : Settings) (source : List Char) (leaf : Leaf) (walk : Walk) :
    Option Walk :=
  match leaf.kind with
  | .text => settings.layoutText? source leaf walk
  | .comment => settings.layoutAtom? source leaf .comment walk
  | .verbatim => settings.layoutAtom? source leaf .inline walk
  | .doctype => settings.layoutAtom? source leaf .block walk

/-- Lays out the start of an element. -/
def layoutHeading? (settings : Settings) (source : List Char) (tag : StartTag)
    (children : List Node) (walk : Walk) : Option Heading := do
  let block := !settings.isInline tag.name
  let kind : Following := if block then .block else .inline
  let width ← if block then some 0 else settings.leadingWidth? lookahead tag children
  let (gap, cursor, flow) ←
    settings.separate? source walk.draft.cursor walk.flow walk.pending kind width
  let indent := if cursor.blank then cursor.column else flow.indent
  let (attributes, tagEnd, after) ← settings.layoutStartTag? tag indent cursor
  return {
    before := gap
    indent := indent
    ownLine := cursor.blank
    block := block
    attributes := attributes
    tagEnd := tagEnd
    lines := cursor.lines
    flow := flow
    draft := walk.draft.moveTo after }

/-- Lays out the end tag behind the children of an element. -/
def layoutEnding? (settings : Settings) (source : List Char) (heading : Heading)
    (endTag : Option EndTag) (inner : Walk) : Option Inside :=
  match endTag with
  | none => some ⟨.nothing, inner.pending, inner.flow.broken, inner.draft⟩
  | some tag => do
      let gap ← settings.closingGap? source inner.flow inner.pending heading.indent
        (heading.ownLine || heading.block) heading.block
      let moved ← inner.draft.cursor.skip? gap
      return ⟨gap, {}, inner.flow.broken, inner.draft.moveTo (moved.place (3 + tag.name.length))⟩

/-- Chooses the indent of the children of an element by its height. -/
def layoutBody? (settings : Settings) (id : Nat) (name : List Char) (heading : Heading)
    (content : Nat → Draft → Option Inside) : Option Inside :=
  let flush := heading.indent
  let stepped := heading.indent + settings.indentSize
  if (heading.ownLine || heading.block) && !settings.doesNotIndentChildrenOf name then
    match settings.isShort? heading.draft id with
    | some true => content stepped heading.draft
    | some false => content flush heading.draft
    | none => do
        let trial ← content stepped heading.draft
        let height ← minus? trial.draft.cursor.lines heading.lines
        let fits := Nat.blt height settings.heightLimit
        let measured := trial.draft.measure id fits
        if fits then return { trial with draft := measured }
        else content flush { heading.draft with short := measured.short }
  else content flush heading.draft

/-- Decides about an element whose content has been laid out. -/
def finishElement? (id : Nat) (heading : Heading) (content : Content) (body : Inside) :
    Option Walk := do
  let kind : Following := if heading.block then .block else .inline
  let broken := heading.flow.broken || (!heading.block && body.broken)
  let draft ← body.draft.decide? id ⟨heading.before, .nothing, heading.indent,
    .element heading.attributes heading.tagEnd content body.endTag⟩
  return ⟨draft, { heading.flow with broken := broken }.follow kind, body.pending⟩

mutual

/-- Lays out a node. -/
def layoutNode? (settings : Settings) (source : List Char) : Node → Walk → Option Walk
  | .leaf leaf, walk => settings.layoutLeaf? source leaf walk
  | .element elem children, walk => do
      let heading ← settings.layoutHeading? source elem.tag children walk
      match settings.contentOf elem.tag with
      | .empty => finishElement? elem.id heading .empty ⟨.nothing, {}, false, heading.draft⟩
      | .verbatim => do
          let stop ← elem.preservedStop? source
          let kept ← slice? source elem.opened.stop stop
          let written ← heading.draft.cursor.write? kept
          finishElement? elem.id heading .verbatim
            ⟨.nothing, ({} : Pending).extend stop elem.span.stop, false,
              heading.draft.moveTo written⟩
      | .formatted => do
          let body ← settings.layoutBody? elem.id elem.name heading fun indent draft => do
            let inner ← settings.layoutNodes? source children
              ⟨draft, Flow.start indent (.start heading.block), {}⟩
            settings.layoutEnding? source heading elem.endTag inner
          finishElement? elem.id heading .formatted body

/-- Lays out nodes that follow each other. -/
def layoutNodes? (settings : Settings) (source : List Char) : List Node → Walk → Option Walk
  | [], walk => some walk
  | node :: rest, walk => do
      let after ← settings.layoutNode? source node walk
      settings.layoutNodes? source rest after

end

end Settings

/-! ## Offsets of blanks -/

/-- The progress of a layout by offsets, given the front of the source that the waiting blanks stand
behind. -/
def Progress.walk (progress : Progress) (front : List Char) : Walk :=
  ⟨progress.draft, progress.flow, .behind front progress.blanks⟩

/-- The content of an element, laid out by offsets. -/
def Body.inside (body : Body) (front : List Char) : Inside :=
  ⟨body.endTag, .behind front body.blanks, body.broken, body.draft⟩

/-- A layout by offsets has come behind this part of the source, as the layout of the nodes has. -/
def Progress.Follows (progress : Progress) (read : List Char) (found : Option Walk) : Prop :=
  ∃ front, read = front ++ progress.blanks ∧ found = some (progress.walk front)

/-- The content of an element has been laid out by offsets, as that of the nodes has. -/
def Body.Follows (body : Body) (read : List Char) (found : Option Inside) : Prop :=
  ∃ front, read = front ++ body.blanks ∧ found = some (body.inside front)

theorem Body.follows_inside (body : Body) (front : List Char) :
    body.Follows (front ++ body.blanks) (some (body.inside front)) :=
  ⟨front, rfl, rfl⟩

theorem Draft.decide?_eq {draft : Draft} {id : Nat} (hid : id < draft.plan.decisions.size)
    (decision : Decision) : draft.decide? id decision = some (draft.decide id decision) :=
  if_pos hid

namespace Settings

variable {settings : Settings} {source : List Char}

/-! ## The leading part of an element -/

/-- The first word is there wherever its index is used. -/
theorem firstWord?_eq (text : List Char) :
    firstWord? text = some (match Run.ofText text with
      | .words [] first _ _ => some first
      | _ => none) := by
  have hpieces := Run.pieces_ofFragments (alternating_fragments text) proper_of_mem_fragments
  have hworded := Run.worded_ofFragments (fragments text)
  have hparts := parts?_eq text
  unfold firstWord? Run.ofText at *
  cases hrun : Run.ofFragments (fragments text) with
  | blank leading =>
      rw [hrun] at hpieces
      rw [← hpieces]
      cases leading with
      | nil => rfl
      | cons c rest => rfl
  | words leading first parted trailing =>
      rw [hrun] at hpieces hworded hparts
      cases leading with
      | cons c rest =>
          rw [← hpieces]
          rfl
      | nil =>
          obtain ⟨⟨hne, hkinds⟩, -⟩ := hworded
          obtain ⟨piece, others, rfl⟩ := List.exists_cons_of_ne_nil hne
          have hkind := hkinds piece List.mem_cons_self
          rw [hparts, ← hpieces]
          simp [Run.pieces, blankFragment, Run.parts, Run.wordList, hkind]

theorem leadingWidth?_eq (depth : Nat) (tag : StartTag) (children : List Node) :
    settings.leadingWidth? depth tag children =
      some (settings.leadingWidth depth tag children) := by
  induction depth generalizing tag children with
  | zero => rfl
  | succ depth ih =>
      unfold leadingWidth? leadingWidth
      split_ifs with hpreserves
      · rfl
      · cases children with
        | nil => rfl
        | cons node others =>
            cases node with
            | element child inner =>
                simp only [ih, Option.map_some]
                split_ifs <;> rfl
            | leaf leaf =>
                simp only [firstWord?_eq, Option.map_some]
                split_ifs with hkind
                · cases Run.ofText leaf.raw with
                  | blank leading => rfl
                  | words leading first rest trailing => cases leading <;> rfl
                · rfl

/-- The words of a text that is not blank lie between the blanks in front of them and those behind
them. -/
theorem exists_solid {text leading trailing : List Char} {first : Word}
    {rest : List (List Char × Word)} (hrun : Run.ofText text = .words leading first rest trailing) :
    ∃ solid, text = leading ++ (solid ++ trailing) := by
  have hsource := Run.source_ofText text
  rw [hrun, Run.source] at hsource
  exact ⟨_, by rw [← hsource, List.append_assoc (Word.raw first)]⟩

/-! ## The content of an element -/

/-- The height of an element is told by lines that have been ended, and its content is laid out as
often as it is by the text. -/
theorem follows_layoutBody (id : Nat) (name : List Char) {heading : Heading} {read : List Char}
    {content : Nat → Draft → Body} {content? : Nat → Draft → Option Inside}
    (hlines : ∀ indent, heading.lines ≤ (content indent heading.draft).draft.cursor.lines)
    (hcontent : ∀ indent draft, draft.plan = heading.draft.plan →
      (content indent draft).Follows read (content? indent draft)) :
    (settings.layoutBody id name heading content).Follows read
      (settings.layoutBody? id name heading content?) := by
  unfold layoutBody layoutBody?
  split_ifs with hindents
  · cases settings.isShort? heading.draft id with
    | some short =>
        cases short with
        | true => exact hcontent _ _ rfl
        | false => exact hcontent _ _ rfl
    | none =>
        obtain ⟨front, hread, hfound⟩ :=
          hcontent (heading.indent + settings.indentSize) heading.draft rfl
        simp only [hfound, Option.bind_eq_bind, Option.bind_some]
        have hheight := minus?_of_le (hlines (heading.indent + settings.indentSize))
        simp only [Body.inside, hheight, Option.bind_some]
        split_ifs with hfits
        · exact ⟨front, hread, rfl⟩
        · exact hcontent _ _ rfl
  · exact hcontent _ _ rfl

/-- A decision is made about an element that has a place in the plan. -/
theorem follows_finishElement {id : Nat} {heading : Heading} {content : Content} {body : Body}
    {read : List Char} {found : Option Inside} (hbody : body.Follows read found)
    (hid : id < body.draft.plan.decisions.size) :
    (finishElement id heading content body).Follows read
      (found.bind (finishElement? id heading content)) := by
  obtain ⟨front, hread, rfl⟩ := hbody
  refine ⟨front, hread, ?_⟩
  simp only [Option.bind_some, finishElement?, Body.inside, Draft.decide?_eq hid,
    Option.bind_eq_bind]
  rfl

/-- Where the start tag of an element ends, and the element itself. -/
theorem stops_of_lies {front : List Char} {elem : Element} {children : List Node}
    (hlies : (Node.element elem children).Lies (byteSize front)) :
    elem.opened.stop = byteSize (front ++ elem.tag.text) ∧
      elem.span.stop =
        byteSize (front ++ elem.tag.text ++ (Node.textOfAll children ++ elem.endText)) := by
  obtain ⟨hopened, -, hclosed⟩ := hlies
  have hstop : elem.opened.stop = byteSize (front ++ elem.tag.text) := by
    rw [hopened, byteSize_append]
  refine ⟨hstop, ?_⟩
  show elem.closed.stop = _
  rw [hclosed, hstop, byteSize_append _ (Node.textOfAll children ++ elem.endText),
    byteSize_append (Node.textOfAll children), ← Nat.add_assoc]

/-- Preserved content is cut out of the source, and the blanks behind it wait. -/
theorem exists_preserved {front after : List Char} {elem : Element} {children : List Node}
    (hsource : source = front ++ (Node.textOfAll children ++ elem.endText) ++ after)
    (hopened : elem.opened.stop = byteSize front)
    (hstop : elem.span.stop = byteSize (front ++ (Node.textOfAll children ++ elem.endText))) :
    ∃ stop, elem.preservedStop? source = some stop ∧
      slice? source elem.opened.stop stop = some (elem.preserved children).1 ∧
      ({} : Pending).extend stop elem.span.stop =
        .behind (front ++ (elem.preserved children).1) (elem.preserved children).2 ∧
      front ++ (Node.textOfAll children ++ elem.endText) =
        front ++ (elem.preserved children).1 ++ (elem.preserved children).2 := by
  unfold Element.preservedStop? Element.preserved
  rw [hopened, hstop]
  unfold Element.endText at *
  cases hend : elem.endTag with
  | some tag =>
      rw [hend] at hsource
      exact ⟨_, rfl, slice?_of_eq hsource, by simp [Pending.extend], by simp⟩
  | none =>
      simp only [hend, List.append_nil] at hsource ⊢
      generalize Node.textOfAll children = content at hsource
      have hsplit := splitTail_append content
      cases hcut : splitTail content with | mk kept left
      rw [hcut] at hsplit
      have hparts : front ++ content = front ++ kept ++ left := by
        rw [← hsplit, List.append_assoc]
      have hkept : source = front ++ kept ++ (left ++ after) := by
        rw [hsource, hparts, List.append_assoc]
      have hpending := Pending.extend_empty (front ++ kept) left
      rw [slice?_of_eq hsource]
      refine ⟨byteSize (front ++ kept), ?_, slice?_of_eq hkept,
        by rw [hparts]; exact hpending, hparts⟩
      show some (byteSize front + byteSize (splitTail content).1) = _
      rw [hcut, byteSize_append]

section

variable (hlimit : settings.keepBlankLines < 2 ^ 64 - 1)

include hlimit

/-! ## Leaves -/

variable {front after : List Char} {progress : Progress}

theorem follows_layoutAtom {leaf : Leaf} (hsource : source = front ++ progress.blanks ++ after)
    (hid : leaf.id < progress.draft.plan.decisions.size) (kind : Following) :
    (settings.layoutAtom leaf kind progress).Follows (front ++ progress.blanks ++ leaf.raw)
      (settings.layoutAtom? source leaf kind (progress.walk front)) := by
  refine ⟨front ++ progress.blanks ++ leaf.raw, (List.append_nil _).symm, ?_⟩
  have hdecide : ∀ cursor decision, (progress.draft.moveTo cursor).decide? leaf.id decision =
      some ((progress.draft.moveTo cursor).decide leaf.id decision) := fun cursor decision =>
    @Draft.decide?_eq (progress.draft.moveTo cursor) leaf.id hid decision
  unfold layoutAtom? Progress.walk
  simp only [separate?_eq hlimit hsource, Cursor.write?_eq, hdecide, Option.bind_eq_bind,
    Option.bind_some, Option.pure_def]
  rfl

theorem follows_layoutText {leaf : Leaf}
    (hsource : source = front ++ progress.blanks ++ (leaf.raw ++ after))
    (hspan : leaf.span = ⟨byteSize (front ++ progress.blanks),
      byteSize (front ++ progress.blanks) + byteSize leaf.raw⟩)
    (hid : leaf.id < progress.draft.plan.decisions.size) :
    (settings.layoutText leaf progress).Follows (front ++ progress.blanks ++ leaf.raw)
      (settings.layoutText? source leaf (progress.walk front)) := by
  have hparts := parts?_eq leaf.raw
  have hdecide : ∀ cursor decision, (progress.draft.moveTo cursor).decide? leaf.id decision =
      some ((progress.draft.moveTo cursor).decide leaf.id decision) := fun cursor decision =>
    @Draft.decide?_eq (progress.draft.moveTo cursor) leaf.id hid decision
  have hstart : leaf.span.start = byteSize (front ++ progress.blanks) := by rw [hspan]
  have hstop : leaf.span.stop = byteSize (front ++ progress.blanks ++ leaf.raw) := by
    rw [hspan, byteSize_append _ leaf.raw]
  unfold layoutText? layoutText
  cases hrun : Run.ofText leaf.raw with
  | blank leading =>
      have hraw : leading = leaf.raw := by
        rw [← Run.source_ofText leaf.raw, hrun]
        rfl
      rw [hrun] at hparts
      refine ⟨front, by rw [← hraw, List.append_assoc], ?_⟩
      have hpending := Pending.extend_behind front progress.blanks leading
      rw [byteSize_append _ leading] at hpending
      simp only [hparts, Run.parts, Run.wordList, Run.leading, Option.bind_eq_bind,
        Option.bind_some, List.isEmpty_nil, if_true, hstart, Progress.walk, hpending,
          Draft.decide?_eq hid]
      rfl
  | words leading first rest trailing =>
      obtain ⟨solid, hraw⟩ := exists_solid hrun
      rw [hrun] at hparts
      have hwhole : front ++ progress.blanks ++ leaf.raw =
          front ++ progress.blanks ++ (leading ++ solid) ++ trailing := by
        rw [hraw]
        simp
      have hwaiting : source = front ++ (progress.blanks ++ leading) ++
          (solid ++ trailing ++ after) := by
        rw [hsource, hraw]
        simp
      refine ⟨front ++ progress.blanks ++ (leading ++ solid), hwhole, ?_⟩
      have hpending := Pending.extend_behind front progress.blanks leading
      rw [byteSize_append _ leading] at hpending
      have hleft := Pending.extend_empty (front ++ progress.blanks ++ (leading ++ solid)) trailing
      have hminus : minus? leaf.span.stop (byteSize trailing) =
          some (byteSize (front ++ progress.blanks ++ (leading ++ solid))) := by
        rw [hstop, hwhole, byteSize_append _ trailing, minus?_of_le (Nat.le_add_left _ _),
          Nat.add_sub_cancel]
      have hsegments : ∀ continuation cursor, settings.layoutSegments? continuation
          ((first :: rest.map (·.2)).map Word.width) (rest.map (·.1))
          ((first :: rest.map (·.2)).map Word.width).length 0 cursor =
            some (settings.layoutWords continuation cursor first.width
              (rest.map fun parted => (parted.1, parted.2.width))) := by
        intro continuation cursor
        refine @layoutSegments?_eq settings hlimit continuation _ _ cursor _ _ [] [] _ ?_ ?_ rfl ?_
        · simp [Function.comp_def]
        · simp [Function.comp_def]
        · simp
      have hfirst : ((first :: rest.map (·.2)).map Word.width)[0]? = some first.width := rfl
      rw [← hwhole, ← hstop] at hleft
      simp only [hparts, Run.parts, Run.wordList, Run.leading, Run.gaps, Run.trailing,
        Option.bind_eq_bind, Option.bind_some, List.isEmpty_cons, Bool.false_eq_true, if_false,
        Progress.walk, hstart, hpending, hsegments, hfirst, separate?_eq hlimit hwaiting,
          hdecide, hminus,
        hleft, Option.pure_def]

theorem follows_layoutLeaf {leaf : Leaf}
    (hsource : source = front ++ progress.blanks ++ (leaf.raw ++ after))
    (hspan : leaf.span = ⟨byteSize (front ++ progress.blanks),
      byteSize (front ++ progress.blanks) + byteSize leaf.raw⟩)
    (hid : leaf.id < progress.draft.plan.decisions.size) :
    (settings.layoutLeaf leaf progress).Follows (front ++ progress.blanks ++ leaf.raw)
      (settings.layoutLeaf? source leaf (progress.walk front)) := by
  unfold layoutLeaf layoutLeaf?
  cases leaf.kind with
  | text => exact follows_layoutText hlimit hsource hspan hid
  | comment => exact follows_layoutAtom hlimit hsource hid .comment
  | verbatim => exact follows_layoutAtom hlimit hsource hid .inline
  | doctype => exact follows_layoutAtom hlimit hsource hid .block

/-! ## Elements -/

theorem layoutHeading?_eq (hsource : source = front ++ progress.blanks ++ after) (tag : StartTag)
    (children : List Node) :
    settings.layoutHeading? source tag children (progress.walk front) =
      some (settings.layoutHeading tag children progress) := by
  unfold layoutHeading? layoutHeading Progress.walk
  simp only [leadingWidth?_eq, separate?_eq hlimit hsource, layoutStartTag?_eq, Option.bind_eq_bind,
    Option.bind_some, Option.pure_def]
  -- a block has no width to look for
  cases settings.isInline tag.name with
  | false => rfl
  | true => rfl

theorem follows_layoutEnding {elem : Element} {inner : Progress} (heading : Heading)
    (hsource : source = front ++ inner.blanks ++ (elem.endText ++ after)) :
    (settings.layoutEnding heading elem.endTag inner).Follows
      (front ++ inner.blanks ++ elem.endText)
      (settings.layoutEnding? source heading elem.endTag (inner.walk front)) := by
  unfold layoutEnding layoutEnding? Element.endText
  cases elem.endTag with
  | none => exact ⟨front, List.append_nil _, rfl⟩
  | some tag =>
      refine ⟨front ++ inner.blanks ++ tag.raw, (List.append_nil _).symm, ?_⟩
      simp only [Progress.walk, closingGap?_eq hlimit hsource, Cursor.skip?_eq, Option.bind_eq_bind,
        Option.bind_some, Option.pure_def]
      rfl

/-- Content that has been laid out is followed by its end tag. -/
theorem follows_content {elem : Element} {children : List Node} {inner : Progress}
    {found : Option Walk} (heading : Heading)
    (hsource : source = front ++ (Node.textOfAll children ++ elem.endText) ++ after)
    (hinner : inner.Follows (front ++ Node.textOfAll children) found) :
    (settings.layoutEnding heading elem.endTag inner).Follows
      (front ++ (Node.textOfAll children ++ elem.endText))
      (found.bind fun walk => settings.layoutEnding? source heading elem.endTag walk) := by
  obtain ⟨behind, hread, rfl⟩ := hinner
  have hending : source = behind ++ inner.blanks ++ (elem.endText ++ after) := by
    rw [← hread, hsource]
    simp
  have hclosing := follows_layoutEnding hlimit heading hending
  rwa [← hread, List.append_assoc front] at hclosing

end

/-! ## All nodes -/

mutual

/-- A node of a source is laid out by offsets as it is by its text. -/
theorem follows_layoutNode (hlimit : settings.keepBlankLines < 2 ^ 64 - 1) (node : Node)
    {front after : List Char} {progress : Progress}
    (hsource : source = front ++ progress.blanks ++ (node.text ++ after))
    (hlies : node.Lies (byteSize (front ++ progress.blanks)))
    (hids : ∀ id ∈ node.ids, id < progress.draft.plan.decisions.size) :
    (settings.layoutNode node progress).Follows (front ++ progress.blanks ++ node.text)
      (settings.layoutNode? source node (progress.walk front)) := by
  cases node with
  | leaf leaf =>
      rw [layoutNode, layoutNode?, Node.text_leaf]
      rw [Node.text_leaf] at hsource
      exact follows_layoutLeaf hlimit hsource hlies (hids leaf.id List.mem_cons_self)
  | element elem children =>
      obtain ⟨hstop, hend⟩ := stops_of_lies hlies
      rw [Node.text_element] at hsource ⊢
      rw [Node.ids_element] at hids
      have hid := hids elem.id List.mem_cons_self
      have htagged : source = front ++ progress.blanks ++ elem.tag.text ++
          (Node.textOfAll children ++ elem.endText) ++ after := by
        rw [hsource]
        simp
      rw [layoutNode, layoutNode?, layoutHeading?_eq hlimit hsource,
        ← List.append_assoc (front ++ _)]
      simp only [Option.bind_eq_bind, Option.bind_some]
      have hlines := (settings.lines_layoutHeading elem.tag children progress).2
      have hplan : (settings.layoutHeading elem.tag children progress).draft.plan =
          progress.draft.plan := rfl
      generalize settings.layoutHeading elem.tag children progress = heading at hlines hplan
      rw [← hplan] at hid
      cases settings.contentOf elem.tag with
      | empty =>
          have hbody := Body.follows_inside ⟨.nothing, [], false, heading.draft⟩
            (front ++ progress.blanks ++ elem.tag.text ++ (Node.textOfAll children ++ elem.endText))
          rw [List.append_nil] at hbody
          exact follows_finishElement hbody hid
      | verbatim =>
          obtain ⟨stop, hfound, hkept, hleft, hread⟩ := exists_preserved htagged hstop hend
          have hbody := Body.follows_inside ⟨.nothing, (elem.preserved children).2, false,
            heading.draft.moveTo (heading.draft.cursor.write (elem.preserved children).1)⟩
              (front ++ progress.blanks ++ elem.tag.text ++ (elem.preserved children).1)
          simp only [hfound, hkept, Cursor.write?_eq, Option.bind_some, hleft]
          rw [hread]
          exact follows_finishElement hbody hid
      | formatted =>
          have hsize := (settings.keeps_layoutBody elem.id elem.name heading fun indent draft =>
            settings.keeps_layoutEnding heading elem.endTag (settings.keeps_layoutNodes children
              ⟨draft, Flow.start indent (.start heading.block), []⟩)).decided
          refine follows_finishElement ?_ (by rwa [hsize])
          apply follows_layoutBody elem.id elem.name
          · intro indent
            have hnodes := settings.ahead_layoutNodes children
              ⟨heading.draft, Flow.start indent (.start heading.block), []⟩
            have hended := hnodes.trans (settings.ahead_layoutEnding heading elem.endTag _)
            exact Nat.le_trans hlines hended.lines
          · intro indent draft hdraft
            -- the content is laid out from the end of the start tag on, with no blanks that wait
            have hinner :=
              @follows_layoutNodes hlimit children (front ++ progress.blanks ++ elem.tag.text)
                (elem.endText ++ after) ⟨draft, Flow.start indent (.start heading.block), []⟩
              (by rw [htagged]; simp) (by rw [List.append_nil, ← hstop]; exact hlies.2.1)
                fun id hmem => by
                rw [hdraft, hplan]
                exact hids id (List.mem_cons_of_mem _ hmem)
            rw [List.append_nil] at hinner
            exact follows_content hlimit heading htagged hinner

/-- Nodes of a source are laid out by offsets as they are by their texts. -/
theorem follows_layoutNodes (hlimit : settings.keepBlankLines < 2 ^ 64 - 1) (nodes : List Node)
    {front after : List Char} {progress : Progress}
    (hsource : source = front ++ progress.blanks ++ (Node.textOfAll nodes ++ after))
    (hlies : Node.LieFrom nodes (byteSize (front ++ progress.blanks)))
    (hids : ∀ id ∈ Node.idsOfAll nodes, id < progress.draft.plan.decisions.size) :
    (settings.layoutNodes nodes progress).Follows (front ++ progress.blanks ++ Node.textOfAll nodes)
      (settings.layoutNodes? source nodes (progress.walk front)) := by
  cases nodes with
  | nil =>
      rw [layoutNodes, layoutNodes?]
      exact ⟨front, List.append_nil _, rfl⟩
  | cons node rest =>
      obtain ⟨hnode, hrest⟩ := hlies
      rw [Node.textOfAll_cons] at hsource ⊢
      rw [Node.idsOfAll_cons] at hids
      have hsize := (settings.keeps_layoutNode node progress).decided
      have hhere : source = front ++ progress.blanks ++
          (node.text ++ (Node.textOfAll rest ++ after)) := by
        rw [hsource, List.append_assoc node.text]
      obtain ⟨behind, hread, hfound⟩ := follows_layoutNode hlimit node hhere hnode fun id hmem =>
        hids id (List.mem_append_left _ hmem)
      rw [layoutNodes, layoutNodes?, hfound, ← List.append_assoc, hread]
      have hnext : source =
          behind ++ (settings.layoutNode node progress).blanks ++
            (Node.textOfAll rest ++ after) := by
        rw [← hread, hhere]
        simp
      refine follows_layoutNodes hlimit rest hnext ?_ ?_
      · rwa [← hread, byteSize_append _ node.text]
      · intro id hmem
        rw [hsize]
        exact hids id (List.mem_append_right _ hmem)

end

end Settings

end Markup
