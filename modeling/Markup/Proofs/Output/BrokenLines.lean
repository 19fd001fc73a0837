import Markup.Proofs.Output.Proceeding
import Markup.Proofs.Plan.OnePass
import Markup.Proofs.Plan.Splicing
import Markup.Proofs.Plan.Stability
import Markup.Proofs.Reading.Uniqueness

/-!
# Lines that are broken

While nodes are laid out, it is noted of their flow whether a line was broken in it: within a text,
or in front of an item to make the item fit. A line break of the source that is kept between two
items leaves no note, nor does one for the sake of a block. The note of an inline element whose
content is laid out is one of the flow around it as well. Of a finished plan it can be told from the
gaps of the plan and the blanks of the source what was noted. Main statement: `broken_content_iff`.
-/

namespace Markup

open Markup.Text

/-! ## Nodes in a flow -/

namespace Node

/-- Whether a node is text without a word, which is left to the gap in front of the next item. -/
def isBlank : Node → Bool
  | .leaf piece => piece.kind == .text && allBlank piece.raw
  | .element _ _ => false

/-- The blanks of the source in front of a node that these nodes are in front of. -/
def blanksBefore (front : List Node) (node : Node) : List Char :=
  (splitTail (textOfAll front)).2 ++ node.text.takeWhile Text.isBlank

end Node

namespace Settings

/-- Whether a node is a block: an element that is not inline, or a document type. -/
def isBlock (settings : Settings) : Node → Bool
  | .leaf leaf => leaf.kind == .doctype
  | .element elem _ => !settings.isInline elem.name

/-- Whether these nodes end with a block, up to blank text. -/
def endsWithBlock (settings : Settings) (nodes : List Node) : Bool :=
  (nodes.filter (!·.isBlank)).getLast?.any settings.isBlock

/-- A node flows among these nodes: it is one of them, with others in front of it, or it flows so
among the children of an inline element that is one of them and whose content is laid out. -/
inductive FlowsAmong (settings : Settings) : List Node → List Node → Node → Prop
  | here (front : List Node) (node : Node) (back : List Node) :
      settings.FlowsAmong (front ++ node :: back) front node
  | inside {before after children front : List Node} {elem : Element} {node : Node} :
      settings.isInline elem.name = true → settings.contentOf elem.tag = .formatted →
      settings.FlowsAmong children front node →
        settings.FlowsAmong (before ++ .element elem children :: after) front node

/-- A line is broken between the words of a text that flows among these nodes. -/
def BreaksText (settings : Settings) (plan : Plan) (nodes : List Node) : Prop :=
  ∃ front leaf decision gaps, settings.FlowsAmong nodes front (.leaf leaf) ∧
    plan.get? leaf.id = some decision ∧ decision.layout = .text gaps ∧
      ∃ gap ∈ gaps, gap.breaksLine = true

/-- A line is broken in front of a node that flows among these, though there is no block on either
side. Where line breaks of the source are not kept, this is to make the node fit. -/
def Wraps (settings : Settings) (plan : Plan) (nodes : List Node) : Prop :=
  ∃ front node decision, settings.FlowsAmong nodes front node ∧
    plan.get? node.id = some decision ∧ decision.before.breaksLine = true ∧
      settings.isBlock node = false ∧ settings.endsWithBlock front = false

/-- A line is broken in front of a node to make it fit: there is no block on either side, and no
line break of the source that is kept. In front of the node are these in its flow. -/
structure WrapsBefore (settings : Settings) (plan : Plan) (front : List Node) (node : Node) :
    Prop where
  breaks : ∃ decision, plan.get? node.id = some decision ∧ decision.before.breaksLine = true
  inline : settings.isBlock node = false
  behind : settings.endsWithBlock front = false
  made : ¬(settings.keepLineBreaks = true ∧ 0 < newlines (Node.blanksBefore front node))

/-- A line is broken in front of a node that flows among these, to make it fit. -/
def WrapsItem (settings : Settings) (plan : Plan) (nodes : List Node) : Prop :=
  ∃ front node, settings.FlowsAmong nodes front node ∧ settings.WrapsBefore plan front node

theorem WrapsItem.wraps {settings : Settings} {plan : Plan} {nodes : List Node}
    (hwraps : settings.WrapsItem plan nodes) : settings.Wraps plan nodes := by
  obtain ⟨front, node, hflows, ⟨decision, hdecision, hbreaks⟩, hinline, hbehind, -⟩ := hwraps
  exact ⟨front, node, decision, hflows, hdecision, hbreaks, hinline, hbehind⟩

end Settings

/-! ## What becomes of a flow -/

@[simp]
theorem Flow.broken_follow (flow : Flow) (kind : Following) :
    (flow.follow kind).broken = flow.broken := by
  cases kind <;> rfl

@[simp]
theorem Flow.preceding_follow_iff (flow : Flow) (kind : Following) :
    (flow.follow kind).preceding = .block ↔ kind = .block := by
  cases kind <;> simp [follow]

namespace Settings

variable {settings : Settings} {plan : Plan} {progress : Progress} {written : List Char}

/-- In front of an item, nothing is noted about a flow but that a line was broken. -/
theorem flow_separate (settings : Settings) (cursor : Cursor) (flow : Flow) (blanks : List Char)
    (next : Following) (width : Nat) :
    let found := settings.separate cursor flow blanks next width
    found.2.2 = { flow with broken := found.2.2.broken } ∧
      (flow.broken = true → found.2.2.broken = true) := by
  unfold separate
  split
  next => exact ⟨rfl, id⟩
  next =>
    split
    next => exact ⟨rfl, id⟩
    next => exact ⟨rfl, fun hbroken => by simp [hbroken]⟩

/-- A line is broken to make an item fit exactly if it is broken with no block on either side, and
not to keep a line break of the source. -/
theorem wrapped_gapBetween_iff (settings : Settings) (cursor : Cursor) (flow : Flow)
    (blanks : List Char) (next : Following) (width : Nat) :
    (settings.gapBetween cursor flow blanks next width).2 = true ↔
      (settings.gapBetween cursor flow blanks next width).1.breaksLine = true ∧ next ≠ .block ∧
        flow.preceding ≠ .block ∧ ¬(settings.keepLineBreaks = true ∧ 0 < newlines blanks) := by
  rw [gapBetween_eq]
  split
  next hforces =>
    have hblock : next = .block ∨ flow.preceding = .block := by
      unfold forces at hforces
      simp only [Bool.or_eq_true, decide_eq_true_eq, Bool.and_eq_true, beq_iff_eq] at hforces
      exact hforces.imp_right And.left
    simp only [Bool.false_eq_true, false_iff]
    rintro ⟨-, hnext, hpreceding, -⟩
    exact hblock.elim hnext hpreceding
  next hfree =>
    split
    next hkept =>
      simp only [Bool.and_eq_true, decide_eq_true_eq] at hkept
      simp [hkept]
    next hlost =>
      have hmade : ¬(settings.keepLineBreaks = true ∧ 0 < newlines blanks) := by
        simpa [and_comm] using hlost
      split
      next hover =>
        refine iff_of_true rfl ⟨rfl, fun hnext => hfree (by simp [forces, hnext]),
          fun hpreceding => ?_, hmade⟩
        -- behind a block, a line is broken to make an item fit only where it is broken anyway
        have hforces : forces flow next true = forces flow next (!blanks.isEmpty) :=
          settings.forces_of_overflows cursor width hover
        rw [Bool.eq_false_iff.mpr hfree] at hforces
        simp [forces, hpreceding] at hforces
      next => split <;> simp [Gap.breaksLine]

theorem broken_separate_iff (hkeep : settings.keepWhitespaces = false) {cursor : Cursor}
    (hanchored : cursor.anchored = false) (flow : Flow) (blanks : List Char) (next : Following)
    (width : Nat) :
    let found := settings.separate cursor flow blanks next width
    found.2.2.broken = true ↔ flow.broken = true ∨
      found.1.breaksLine = true ∧ next ≠ .block ∧ flow.preceding ≠ .block ∧
        ¬(settings.keepLineBreaks = true ∧ 0 < newlines blanks) := by
  unfold separate
  split
  next => simp [Gap.breaksLine]
  next =>
    rw [if_neg (by simp [hanchored, hkeep])]
    simp only [Bool.or_eq_true]
    rw [wrapped_gapBetween_iff]

/-- A text is noted to be broken where one of its gaps is a line break. -/
theorem broken_layoutWords (settings : Settings) (continuation : Nat) (cursor : Cursor)
    (first : Nat) (rest : List (List Char × Nat)) :
    let laid := settings.layoutWords continuation cursor first rest
    laid.2.2 = laid.1.any Gap.breaksLine := by
  have hfill : ∀ (cursor : Cursor) (words : List (List Char × Nat)),
      (settings.fill continuation cursor words).2.2 =
        (settings.fill continuation cursor words).1.any Gap.breaksLine := by
    intro cursor words
    induction words generalizing cursor with
    | nil => rfl
    | cons word words ih =>
        rw [fill, wordGap_broken]
        simp only [List.any_cons, ih]
  dsimp only
  rw [layoutWords_eq_fill]
  exact hfill _ rest

/-- Behind an item, a flow is noted to be broken if it was before, and is behind an item of that
kind. -/
theorem follow_separate (settings : Settings) (cursor : Cursor) (flow : Flow) (blanks : List Char)
    (next : Following) (width : Nat) (kind : Following) {broken : Bool}
    (hbroken : (settings.separate cursor flow blanks next width).2.2.broken = true →
      broken = true) :
    let found := (settings.separate cursor flow blanks next width).2.2
    let after := { found with broken := broken }.follow kind
    (flow.broken = true → after.broken = true) ∧
      after = { flow with broken := after.broken }.follow kind := by
  intro found after
  obtain ⟨hsame, hstays⟩ := settings.flow_separate cursor flow blanks next width
  refine ⟨fun hbefore => ?_, ?_⟩
  · rw [Flow.broken_follow]
    exact hbroken (hstays hbefore)
  · rw [Flow.broken_follow]
    show Flow.follow { found with broken := broken } kind = _
    rw [show found = _ from hsame]

/-- Behind a node, a flow is noted to be broken if it was before. If the node is blank, the flow is
as it was, and else it is behind a block or behind something else. -/
theorem flow_layoutNode (settings : Settings) (node : Node) (progress : Progress) :
    let after := (settings.layoutNode node progress).flow
    (progress.flow.broken = true → after.broken = true) ∧
      (node.isBlank = true ∧ after = progress.flow ∨
        node.isBlank = false ∧ after = { progress.flow with broken := after.broken }.follow
          (if settings.isBlock node then .block else .inline)) := by
  dsimp only
  cases node with
  | leaf leaf =>
      have hatom : ∀ kind : Following, let after := (settings.layoutAtom leaf kind progress).flow
          (progress.flow.broken = true → after.broken = true) ∧
            after = { progress.flow with broken := after.broken }.follow kind :=
        fun kind => settings.follow_separate _ _ _ _ _ kind id
      rw [layoutNode, layoutLeaf, isBlock, Node.isBlank]
      cases leaf.kind with
      | text =>
          have hblank := units_eq_nil_iff leaf.raw
          dsimp only
          rw [layoutText]
          cases hrun : Run.ofText leaf.raw with
          | blank leading =>
              rw [hrun] at hblank
              exact ⟨id, .inl ⟨hblank.mp rfl, rfl⟩⟩
          | words leading first rest trailing =>
              have hwords := fun more : Bool => settings.follow_separate progress.draft.cursor
                progress.flow (progress.blanks ++ leading) .inline first.width .inline
                  fun hbroken => (Bool.or_eq_true _ more).mpr (.inl hbroken)
              rw [hrun] at hblank
              have hfull := mt hblank.mpr (List.cons_ne_nil _ _)
              exact ⟨(hwords _).1, .inr ⟨Bool.eq_false_iff.mpr hfull, (hwords _).2⟩⟩
      | comment => exact ⟨(hatom .comment).1, .inr ⟨rfl, (hatom .comment).2⟩⟩
      | verbatim => exact ⟨(hatom .inline).1, .inr ⟨rfl, (hatom .inline).2⟩⟩
      | doctype => exact ⟨(hatom .block).1, .inr ⟨rfl, (hatom .block).2⟩⟩
  | element elem children =>
      have hfinish : ∀ (content : Content) (body : Body),
          let heading := settings.layoutHeading elem.tag children progress
          let after := (finishElement elem.id heading content body).flow
          (progress.flow.broken = true → after.broken = true) ∧
            after = { progress.flow with broken := after.broken }.follow
              (if !settings.isInline elem.name then .block else .inline) :=
        fun content body => settings.follow_separate _ _ _ _ _ _ fun hbroken =>
          (Bool.or_eq_true _ _).mpr (.inl hbroken)
      rw [layoutNode]
      split <;> exact ⟨(hfinish _ _).1, .inr ⟨rfl, (hfinish _ _).2⟩⟩

theorem isBlock_of_isBlank {node : Node} (hblank : node.isBlank = true) :
    settings.isBlock node = false := by
  cases node with
  | leaf leaf =>
      rw [Node.isBlank, Bool.and_eq_true, beq_iff_eq] at hblank
      rw [isBlock, hblank.1]
      rfl
  | element elem children => cases hblank

theorem blocks_layoutNode (node : Node) (progress : Progress) :
    (settings.layoutNode node progress).flow.blocks =
      (progress.flow.blocks || settings.isBlock node) := by
  rcases (settings.flow_layoutNode node progress).2 with ⟨hblank, hsame⟩ | ⟨-, hafter⟩
  · rw [hsame, isBlock_of_isBlank hblank, Bool.or_false]
  · rw [hafter]
    cases settings.isBlock node with
    | true => exact (Bool.or_true _).symm
    | false => exact (Bool.or_false _).symm

/-- A block is noted of a flow where one is among its nodes. -/
theorem blocks_layoutNodes (nodes : List Node) (progress : Progress) :
    (settings.layoutNodes nodes progress).flow.blocks =
      (progress.flow.blocks || nodes.any settings.isBlock) := by
  induction nodes generalizing progress with
  | nil => exact (Bool.or_false _).symm
  | cons node rest ih => rw [layoutNodes, ih, blocks_layoutNode, List.any_cons, Bool.or_assoc]

/-- What is noted to be broken stays noted. -/
theorem broken_layoutNodes (nodes : List Node) (hbroken : progress.flow.broken = true) :
    (settings.layoutNodes nodes progress).flow.broken = true := by
  induction nodes generalizing progress with
  | nil => exact hbroken
  | cons node rest ih => exact ih ((settings.flow_layoutNode node progress).1 hbroken)

theorem preceding_layoutNode_iff {node : Node} (hfull : node.isBlank = false)
    (progress : Progress) :
    (settings.layoutNode node progress).flow.preceding = .block ↔
      settings.isBlock node = true := by
  rcases (settings.flow_layoutNode node progress).2 with ⟨hblank, -⟩ | ⟨-, hafter⟩
  · rw [hfull] at hblank
    cases hblank
  · rw [hafter, Flow.preceding_follow_iff]
    cases settings.isBlock node <;> simp

/-- A flow is behind a block where the nodes that have been laid out end with one. -/
theorem preceding_layoutNode {front : List Node}
    (hfront : progress.flow.preceding = .block ↔ settings.endsWithBlock front = true)
    (node : Node) :
    (settings.layoutNode node progress).flow.preceding = .block ↔
      settings.endsWithBlock (front ++ [node]) = true := by
  cases hblank : node.isBlank with
  | true =>
      have hsame : (settings.layoutNode node progress).flow = progress.flow :=
        (settings.flow_layoutNode node progress).2.elim And.right fun hfull => by
          rw [hblank] at hfull
          cases hfull.1
      have hends : settings.endsWithBlock (front ++ [node]) = settings.endsWithBlock front := by
        simp [endsWithBlock, hblank]
      rw [hsame, hends, hfront]
  | false =>
      have hends : settings.endsWithBlock (front ++ [node]) = settings.isBlock node := by
        simp [endsWithBlock, hblank]
      rw [preceding_layoutNode_iff hblank, hends]

/-! ## Behind the front of a flow -/

/-- Planning is behind these nodes of a flow: whether they end with a block is noted, and the blanks
that they end with wait for the next item. -/
structure Behind (settings : Settings) (front : List Node) (progress : Progress) : Prop where
  block : progress.flow.preceding = .block ↔ settings.endsWithBlock front = true
  blanks : (splitTail (Node.textOfAll front)).2 = progress.blanks

theorem behind_keptContent {elem : Element} {children : List Node} :
    settings.Behind [] (settings.keptContent elem children progress) :=
  ⟨by simp [keptContent, Flow.start, endsWithBlock], rfl⟩

/-- In front of any of the nodes that are laid out for good, planning goes on with it. -/
theorem Proceeds.behind {front back : List Node} {pieces : List OutputPiece}
    (hproceeds : settings.Proceeds plan (front ++ back) progress written pieces) :
    ∃ ahead others,
      settings.Proceeds plan back (settings.layoutNodes front progress) ahead others := by
  induction front generalizing progress written pieces with
  | nil => exact ⟨written, pieces, hproceeds⟩
  | cons node rest ih => cases hproceeds <;> (apply ih; assumption)

mutual

/-- The blanks that wait behind a node that is laid out for good are those that its source ends
with, after those that have been waiting. -/
theorem Proceeds.blanks_head {node : Node} {rest : List Node} {progress : Progress}
    {written source : List Char} {pieces : List OutputPiece}
    (hproceeds : settings.Proceeds plan (node :: rest) progress written pieces)
    (hblanks : (splitTail source).2 = progress.blanks) :
    (splitTail (source ++ node.text)).2 = (settings.layoutNode node progress).blanks := by
  cases node with
  | leaf leaf =>
      rw [Node.text_leaf]
      cases hproceeds with
      | blank hkind hrun =>
          have hleading := Run.proper_ofText leaf.raw
          have hraw := Run.source_ofText leaf.raw
          rw [hrun] at hleading hraw
          rw [layoutNode_blank hkind hrun, ← hraw, Run.source, splitTail_append_blank hleading,
            hblanks]
      | words hkind hrun =>
          have hproper := Run.proper_ofText leaf.raw
          rw [hrun] at hproper
          obtain ⟨hne, htrimmed⟩ := trimmed_wordsText hproper.2.1 hproper.parted
          rw [layoutNode_words hkind hrun, Run.eq_of_words hrun, ← List.append_assoc source,
            ← List.append_assoc, (htrimmed.append_left hne _).splitTail_append hproper.2.2.2]
      | atom hkind hlegible hseparated hlaid =>
          obtain ⟨hne, htrimmed⟩ := Item.trimmed_of_fits hkind hlegible.2
          rw [hlaid]
          exact htrimmed.append_left hne source
  | element elem children =>
      have htag := (Item.trimmed_tag elem.tag).append_left (by simp [StartTag.text]) source
      rw [Node.text_element, ← List.append_assoc]
      cases hproceeds with
      | closed hheading hfits hkept hdecision hends hrest =>
          obtain ⟨hsame, hblank⟩ := joinPieces_closed hkept progress
          have htrimmed := hrest.ends.trimmed
          rw [joinPieces_append, ← List.append_assoc] at htrimmed
          rw [← hsame, ← List.append_assoc, (htag.append_congr htrimmed).splitTail_append hblank]
      | formatted hheading hfits hcontent hclose hbody hdecision hends hchildren hrest =>
          rw [blanks_layoutNode_formatted hcontent, Element.endText]
          cases hend : elem.endTag with
          | none =>
              rw [List.append_nil]
              exact @Proceeds.blanks_front children []
                (settings.keptContent elem children progress) _ _ _ (by rwa [List.append_nil]) htag
          | some close =>
              obtain ⟨hne, htrimmed⟩ := Item.trimmed_endTag (hclose close hend).1
              rw [← List.append_assoc]
              exact htrimmed.append_left hne _

/-- The same for some of the nodes. -/
theorem Proceeds.blanks_front {front back : List Node} {progress : Progress}
    {written source : List Char} {pieces : List OutputPiece}
    (hproceeds : settings.Proceeds plan (front ++ back) progress written pieces)
    (hblanks : (splitTail source).2 = progress.blanks) :
    (splitTail (source ++ Node.textOfAll front)).2 =
      (settings.layoutNodes front progress).blanks := by
  cases front with
  | nil => simpa [layoutNodes] using hblanks
  | cons node rest =>
      have hhead := Proceeds.blanks_head hproceeds hblanks
      obtain ⟨ahead, others, hrest⟩ := @Proceeds.behind _ _ _ _ [node] _ _ hproceeds
      rw [Node.textOfAll_cons, ← List.append_assoc, layoutNodes]
      exact Proceeds.blanks_front hrest hhead

end

/-- Behind some of the nodes that are laid out for good, planning is behind all of their flow. -/
theorem Proceeds.behind_front {before front back : List Node} {pieces : List OutputPiece}
    (hproceeds : settings.Proceeds plan (front ++ back) progress written pieces)
    (hbehind : settings.Behind before progress) :
    settings.Behind (before ++ front) (settings.layoutNodes front progress) := by
  refine ⟨?_, ?_⟩
  · have hblock := hbehind.block
    clear hproceeds hbehind
    induction front generalizing before progress with
    | nil => rwa [List.append_nil]
    | cons node rest ih =>
        rw [List.append_cons, layoutNodes]
        exact ih (preceding_layoutNode hblock node)
  · rw [Node.textOfAll_append]
    exact hproceeds.blanks_front hbehind.blanks

theorem Proceeds.behind_head {front rest : List Node} {node : Node} {pieces : List OutputPiece}
    (hproceeds : settings.Proceeds plan (node :: rest) progress written pieces)
    (hbehind : settings.Behind front progress) :
    settings.Behind (front ++ [node]) (settings.layoutNode node progress) := by
  have hone : settings.Proceeds plan ([node] ++ rest) progress written pieces := hproceeds
  exact hone.behind_front hbehind

/-! ## What is noted -/

/-- Behind a text with words, a line was broken if one was in front of it or within. -/
theorem broken_layoutNode_words {leaf : Leaf} {leading trailing : List Char} {first : Word}
    {words : List (List Char × Word)} (hkind : leaf.kind = .text)
    (hrun : Run.ofText leaf.raw = .words leading first words trailing) :
    let passage := settings.layoutPassage leading first words progress
    (settings.layoutNode (.leaf leaf) progress).flow.broken =
      (passage.flow.broken || passage.gaps.any Gap.breaksLine) := by
  intro passage
  have hinside : passage.broken = passage.gaps.any Gap.breaksLine :=
    settings.broken_layoutWords _ _ _ _
  rw [layoutNode_words hkind hrun, Flow.broken_follow, ← hinside]

/-- Behind an element, a line was broken if one was in front of it, or in the content of an inline
one. -/
theorem broken_layoutNode_element_iff {elem : Element} {children : List Node} :
    (settings.layoutNode (.element elem children) progress).flow.broken = true ↔
      (settings.layoutHeading elem.tag children progress).flow.broken = true ∨
        settings.isInline elem.name = true ∧ settings.contentOf elem.tag = .formatted ∧
          (settings.layoutNodes children
            (settings.keptContent elem children progress)).flow.broken = true := by
  have hfinish : ∀ (heading : Heading) (content : Content) (body : Body),
      (finishElement elem.id heading content body).flow.broken = true ↔
        heading.flow.broken = true ∨ heading.block = false ∧ body.broken = true := by
    intro heading content body
    rw [finishElement, Flow.broken_follow, Bool.or_eq_true, Bool.and_eq_true, Bool.not_eq_true']
  have hinline : (settings.layoutHeading elem.tag children progress).block = false ↔
      settings.isInline elem.name = true := iff_of_eq (Bool.not_eq_false' _)
  by_cases hcontent : settings.contentOf elem.tag = .formatted
  · have hending : ∀ (heading : Heading) (inner : Progress),
        (settings.layoutEnding heading elem.endTag inner).broken = inner.flow.broken := by
      intro heading inner
      cases elem.endTag <;> rfl
    obtain ⟨short, hlaid⟩ := @layoutNode_formatted settings progress elem children hcontent
    rw [hlaid, hfinish, hending, hinline, and_iff_right hcontent]
  · rw [layoutNode]
    split
    next => simp [hfinish, hcontent]
    next => simp [hfinish, hcontent]
    next hother => exact absurd hother hcontent

/-- In front of an item of a flow a broken line is noted where one was before, or where a line is
broken there to make the item fit. -/
theorem broken_item_iff (hkeep : settings.keepWhitespaces = false)
    (hanchored : progress.draft.cursor.anchored = false) {front : List Node} {node : Node}
    (hbehind : settings.Behind front progress) {blanks : List Char} {next : Following} {width : Nat}
    (hblanks : blanks = progress.blanks ++ node.text.takeWhile isBlank)
    (hnext : next = .block ↔ settings.isBlock node = true) {decision : Decision}
    (hdecision : plan.get? node.id = some decision) :
    let found := settings.separate progress.draft.cursor progress.flow blanks next width
    decision.before = found.1 → (found.2.2.broken = true ↔
      progress.flow.broken = true ∨ settings.WrapsBefore plan front node) := by
  intro found hbefore
  have hwaits : Node.blanksBefore front node = blanks := by
    rw [Node.blanksBefore, hbehind.blanks, hblanks]
  refine (broken_separate_iff hkeep hanchored _ _ _ _).trans (or_congr_right ⟨?_, ?_⟩)
  · rintro ⟨hbreaks, hinline, hpreceding, hmade⟩
    refine ⟨⟨decision, hdecision, hbefore ▸ hbreaks⟩, ?_, ?_, hwaits ▸ hmade⟩
    · exact Bool.eq_false_iff.mpr (mt hnext.mpr hinline)
    · exact Bool.eq_false_iff.mpr (mt hbehind.block.mpr hpreceding)
  · rintro ⟨⟨other, hother, hbreaks⟩, hinline, hends, hmade⟩
    obtain rfl := Option.some.inj (hdecision.symm.trans hother)
    refine ⟨hbefore ▸ hbreaks, ?_, ?_, hwaits ▸ hmade⟩
    · exact mt hnext.mp (Bool.eq_false_iff.mp hinline)
    · exact mt hbehind.block.mp (Bool.eq_false_iff.mp hends)

/-- The same for the start tag of an element. -/
theorem broken_heading_iff (hkeep : settings.keepWhitespaces = false)
    (hanchored : progress.draft.cursor.anchored = false) {front children : List Node}
    {elem : Element} (hbehind : settings.Behind front progress) {decision : Decision}
    (hdecision : plan.get? elem.id = some decision) :
    let heading := settings.layoutHeading elem.tag children progress
    decision.before = heading.before → (heading.flow.broken = true ↔
      progress.flow.broken = true ∨
        settings.WrapsBefore plan front (.element elem children)) := by
  intro heading hbefore
  have hnext : (if !settings.isInline elem.tag.name then Following.block else .inline) = .block ↔
      settings.isBlock (.element elem children) = true := by
    show _ ↔ (!settings.isInline elem.tag.name) = true
    cases settings.isInline elem.tag.name <;> simp
  have hnone : progress.blanks =
      progress.blanks ++ (Node.element elem children).text.takeWhile isBlank := by
    rw [Node.text_element, takeWhile_of_stopsAt (Item.stopsAt_tag elem.tag _), List.append_nil]
  exact broken_item_iff hkeep hanchored hbehind hnone hnext hdecision hbefore

/-- A line is noted to be broken inside a node that is laid out from here: between the words of a
text, or in the content of an inline element. -/
def BreaksInside (settings : Settings) (plan : Plan) (progress : Progress) : Node → Prop
  | .leaf leaf => ∃ decision gaps, plan.get? leaf.id = some decision ∧
      decision.layout = .text gaps ∧ ∃ gap ∈ gaps, gap.breaksLine = true
  | .element elem children => settings.isInline elem.name = true ∧
      settings.contentOf elem.tag = .formatted ∧
        (settings.layoutNodes children
          (settings.keptContent elem children progress)).flow.broken = true

/-- Behind a node that is laid out for good, a broken line is noted where one was before, where one
is broken in front of it to make it fit, or where one is broken inside. -/
theorem Proceeds.broken_head_iff {front rest : List Node} {node : Node} {pieces : List OutputPiece}
    (hkeep : settings.keepWhitespaces = false)
    (hproceeds : settings.Proceeds plan (node :: rest) progress written pieces)
    (hanchored : progress.draft.cursor.anchored = false)
    (hbehind : settings.Behind front progress) :
    (settings.layoutNode node progress).flow.broken = true ↔
      progress.flow.broken = true ∨ settings.WrapsBefore plan front node ∨
        settings.BreaksInside plan progress node := by
  cases node with
  | leaf leaf =>
      have hinside : ∀ {decision : Decision}, plan.get? leaf.id = some decision →
          (settings.BreaksInside plan progress (.leaf leaf) ↔
            ∃ gaps, decision.layout = .text gaps ∧ gaps.any Gap.breaksLine = true) := by
        intro decision hdecision
        simp [BreaksInside, hdecision]
      cases hproceeds with
      | blank hkind hrun hdecision =>
          have hunbroken : ¬settings.WrapsBefore plan front (.leaf leaf) := by
            rintro ⟨⟨decision, hfound, hbreaks⟩, -, -, -⟩
            obtain rfl := Option.some.inj (hdecision.symm.trans hfound)
            cases hbreaks
          rw [layoutNode_blank hkind hrun, hinside hdecision]
          simp [hunbroken]
      | words hkind hrun hpassage hdecision =>
          have hleading := Run.takeWhile_of_words hrun
          rw [← Node.text_leaf] at hleading
          have hinline : settings.isBlock (.leaf leaf) = false := by simp [isBlock, hkind]
          rw [broken_layoutNode_words hkind hrun, ← hpassage, Bool.or_eq_true, hinside hdecision,
            ← or_assoc]
          subst hpassage
          refine or_congr ?_ (by simp)
          exact broken_item_iff hkeep hanchored hbehind (congrArg _ hleading.symm)
            (by simp [hinline]) hdecision rfl
      | atom hkind hlegible hseparated hlaid hdecision =>
          have hnone := takeWhile_of_stopsAt (Item.solid_of_fits hkind hlegible.2).2
          have hfull : (Node.leaf leaf).isBlank = false := by simp [Node.isBlank, hkind]
          have hblock := @preceding_layoutNode_iff settings _ hfull progress
          rw [hlaid, Flow.preceding_follow_iff] at hblock
          rw [hlaid, Flow.broken_follow, hinside hdecision]
          subst hseparated
          simp only [reduceCtorEq, false_and, exists_false, or_false]
          refine broken_item_iff hkeep hanchored hbehind ?_ hblock hdecision rfl
          rw [Node.text_leaf, hnone, List.append_nil]
  | element elem children =>
      rw [broken_layoutNode_element_iff, ← or_assoc]
      refine or_congr ?_ Iff.rfl
      cases hproceeds with
      | closed hheading hfits hkept hdecision =>
          exact broken_heading_iff hkeep hanchored hbehind hdecision (hheading ▸ rfl)
      | formatted hheading hfits hcontent hclose hbody hdecision =>
          exact broken_heading_iff hkeep hanchored hbehind hdecision (hheading ▸ rfl)

/-! ## What was broken -/

theorem BreaksText.inside {elem : Element} {children : List Node}
    (hinline : settings.isInline elem.name = true)
    (hcontent : settings.contentOf elem.tag = .formatted)
    (hbreaks : settings.BreaksText plan children) (before after : List Node) :
    settings.BreaksText plan (before ++ .element elem children :: after) := by
  obtain ⟨front, leaf, decision, gaps, hflows, hdecision⟩ := hbreaks
  exact ⟨front, leaf, decision, gaps, .inside hinline hcontent hflows, hdecision⟩

theorem WrapsItem.inside {elem : Element} {children : List Node}
    (hinline : settings.isInline elem.name = true)
    (hcontent : settings.contentOf elem.tag = .formatted)
    (hwraps : settings.WrapsItem plan children) (before after : List Node) :
    settings.WrapsItem plan (before ++ .element elem children :: after) := by
  obtain ⟨front, node, hflows, hbefore⟩ := hwraps
  exact ⟨front, node, .inside hinline hcontent hflows, hbefore⟩

/-- What leaves a note behind a node leaves it of every flow that the node is in. -/
theorem Proceeds.broken_of_flowsAmong {nodes front : List Node} {node : Node}
    {pieces : List OutputPiece} (hflows : settings.FlowsAmong nodes front node)
    (hkeep : settings.keepWhitespaces = false)
    (hcause : settings.WrapsBefore plan front node ∨
      ∀ progress, settings.BreaksInside plan progress node)
    (hproceeds : settings.Proceeds plan nodes progress written pieces)
    (hbehind : settings.Behind [] progress) (hanchored : progress.draft.cursor.anchored = false) :
    (settings.layoutNodes nodes progress).flow.broken = true := by
  induction hflows generalizing progress written pieces with
  | here front node back =>
      obtain ⟨ahead, others, hhere⟩ := hproceeds.behind
      have hfront := (settings.ahead_layoutNodes front progress).anchored hanchored
      have hnoted := hhere.broken_head_iff hkeep hfront (hproceeds.behind_front hbehind)
      rw [layoutNodes_append, layoutNodes]
      exact broken_layoutNodes _ (hnoted.mpr (.inr (hcause.imp_right fun hinside => hinside _)))
  | @inside before after children front elem node hinline hcontent hinside ih =>
      obtain ⟨ahead, others, hhere⟩ := hproceeds.behind
      have hbefore := (settings.ahead_layoutNodes before progress).anchored hanchored
      rw [layoutNodes_append, layoutNodes]
      apply broken_layoutNodes
      cases hhere with
      | closed hheading hfits hkept => exact absurd hcontent (contentOf_ne_formatted hkept)
      | formatted hheading hfits hkind hclose hbody hfound hends hchildren hrest =>
          have hinner := ih hcause hchildren behind_keptContent (anchored_keptContent hbefore)
          exact broken_layoutNode_element_iff.mpr (.inr ⟨hinline, hcontent, hinner⟩)

/-- Where a line is noted to be broken in nodes that are laid out for good, it was broken before, or
is broken within a text or to make something fit. -/
theorem Proceeds.cause_of_broken (hkeep : settings.keepWhitespaces = false) (nodes : List Node)
    {front : List Node} {progress : Progress} {written : List Char} {pieces : List OutputPiece}
    (hproceeds : settings.Proceeds plan nodes progress written pieces)
    (hanchored : progress.draft.cursor.anchored = false) (hbehind : settings.Behind front progress)
    (hbroken : (settings.layoutNodes nodes progress).flow.broken = true) :
    progress.flow.broken = true ∨ settings.BreaksText plan (front ++ nodes) ∨
      settings.WrapsItem plan (front ++ nodes) := by
  match nodes with
  | [] => exact .inl hbroken
  | node :: rest =>
      obtain ⟨ahead, others, hrest⟩ := @Proceeds.behind _ _ _ _ [node] _ _ hproceeds
      have hlater := cause_of_broken hkeep rest hrest (anchored_layoutNode hanchored)
        (hproceeds.behind_head hbehind) hbroken
      rw [← List.append_cons] at hlater
      rcases hlater with hhead | hlater
      · rcases (hproceeds.broken_head_iff hkeep hanchored hbehind).mp hhead with
          hbefore | hwraps | hinside
        · exact .inl hbefore
        · exact .inr (.inr ⟨front, node, .here front node rest, hwraps⟩)
        · match node with
          | .leaf leaf =>
              obtain ⟨decision, gaps, hbreaks⟩ := hinside
              exact .inr (.inl ⟨front, leaf, decision, gaps, .here front _ rest, hbreaks⟩)
          | .element elem children =>
              obtain ⟨hinline, hcontent, hinner⟩ := hinside
              cases hproceeds with
              | closed hheading hfits hkept =>
                  exact absurd hcontent (contentOf_ne_formatted hkept)
              | formatted hheading hfits hkind hclose hbody hfound hends hchildren =>
                  rcases cause_of_broken hkeep children hchildren (anchored_keptContent hanchored)
                    behind_keptContent hinner with hstart | hbreaks | hwraps
                  · cases hstart
                  · exact .inr (.inl (hbreaks.inside hinline hcontent front rest))
                  · exact .inr (.inr (hwraps.inside hinline hcontent front rest))
      · exact .inr hlater

/-- Of the content of an element that is laid out for good, a broken line is noted exactly if one is
broken within a text that flows in it, or in front of an item that flows in it to make the item
fit. -/
theorem broken_content_iff (hkeep : settings.keepWhitespaces = false) {elem : Element}
    {children : List Node} {inner : List OutputPiece}
    (hanchored : progress.draft.cursor.anchored = false)
    (hproceeds : settings.Proceeds plan children (settings.keptContent elem children progress)
      written inner) :
    (settings.layoutNodes children
      (settings.keptContent elem children progress)).flow.broken = true ↔
      settings.BreaksText plan children ∨ settings.WrapsItem plan children := by
  have hstart := @anchored_keptContent settings _ elem children hanchored
  constructor
  · intro hbroken
    have hcause := hproceeds.cause_of_broken hkeep children hstart behind_keptContent hbroken
    exact hcause.resolve_left Bool.false_ne_true
  · rintro (⟨front, leaf, decision, gaps, hflows, hbreaks⟩ | ⟨front, node, hflows, hwraps⟩)
    · exact hproceeds.broken_of_flowsAmong hflows hkeep
        (.inr fun _ => ⟨decision, gaps, hbreaks⟩) behind_keptContent hstart
    · exact hproceeds.broken_of_flowsAmong hflows hkeep (.inl hwraps) behind_keptContent hstart

/-- Of the content of an element, a block is noted where one is among the children. -/
theorem blocks_content (elem : Element) (children : List Node) (progress : Progress) :
    (settings.layoutNodes children (settings.keptContent elem children progress)).flow.blocks =
      children.any settings.isBlock := by
  rw [blocks_layoutNodes]
  exact Bool.false_or _

end Settings

end Markup
