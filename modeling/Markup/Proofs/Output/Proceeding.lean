import Markup.Proofs.Output.Course
import Markup.Proofs.Plan.Advance
import Markup.Proofs.Plan.Regularity

/-!
# Planning and writing in one

A document is planned as a whole before it is written, and some of its elements are laid out twice.
Of the layout that is kept, planning and writing can be followed together: from a state of planning
on, with some text written, each node is decided about as it comes, and its pieces are written.
Whatever holds of every step of this holds of the plan and of what it writes. Main statement:
`Settings.Course.proceeds`, by which every document is written in this way.
-/

namespace Markup

open Markup.Text

/-! ## A text laid out -/

/-- A text with words, laid out: the gap in front of it, where its first word begins and the flow it
lies in, the indent of its further lines, the gaps between its words, and the position behind it. -/
structure Passage where
  before : Gap
  start : Cursor
  flow : Flow
  continuation : Nat
  gaps : List Gap
  after : Cursor
  broken : Bool

namespace Settings

variable (settings : Settings)

/-- Lays out a text with these words, given the blanks in front of the first one. -/
def layoutPassage (leading : List Char) (first : Word) (rest : List (List Char × Word))
    (progress : Progress) : Passage :=
  let (before, start, flow) := settings.separate progress.draft.cursor progress.flow
    (progress.blanks ++ leading) .inline first.width
  let continuation := if settings.alignText then start.column else flow.indent
  let (gaps, after, broken) := settings.layoutWords continuation start first.width
    (rest.map fun (blanks, word) => (blanks, word.width))
  ⟨before, start, flow, continuation, gaps, after, broken⟩

variable {settings} {leaf : Leaf} {progress : Progress}

theorem layoutNode_blank {leading : List Char} (hkind : leaf.kind = .text)
    (hrun : Run.ofText leaf.raw = .blank leading) :
    settings.layoutNode (.leaf leaf) progress =
      ⟨progress.draft.decide leaf.id ⟨.nothing, .nothing, progress.flow.indent, .text []⟩,
        progress.flow, progress.blanks ++ leading⟩ := by
  rw [layoutNode, layoutLeaf, hkind]
  simp only [layoutText, hrun]

theorem layoutNode_words {leading trailing : List Char} {first : Word}
    {words : List (List Char × Word)} (hkind : leaf.kind = .text)
    (hrun : Run.ofText leaf.raw = .words leading first words trailing) :
    let passage := settings.layoutPassage leading first words progress
    settings.layoutNode (.leaf leaf) progress =
      ⟨(progress.draft.moveTo passage.after).decide leaf.id
          ⟨passage.before, .nothing, passage.flow.indent, .text passage.gaps⟩,
        { passage.flow with broken := passage.flow.broken || passage.broken }.follow .inline,
        trailing⟩ := by
  intro passage
  rw [layoutNode, layoutLeaf, hkind]
  simp only [layoutText, hrun]
  rfl

theorem regular_layoutPassage (hkeep : settings.keepWhitespaces = false) (leading : List Char)
    (first : Word) (words : List (List Char × Word)) :
    let passage := settings.layoutPassage leading first words progress
    ∀ gap ∈ passage.gaps, settings.Regular passage.continuation gap :=
  settings.regular_layoutWords hkeep _ _ _ _

theorem layoutNode_atom (hkind : leaf.kind ≠ .text) :
    ∃ kind, ∃ separated, separated = settings.separate progress.draft.cursor progress.flow
        progress.blanks kind (firstLine leaf.raw).length ∧
      settings.layoutNode (.leaf leaf) progress =
        ⟨(progress.draft.moveTo (separated.2.1.write leaf.raw)).decide leaf.id
          ⟨separated.1, .nothing, separated.2.1.column, .atom⟩, separated.2.2.follow kind, []⟩ := by
  rw [layoutNode, layoutLeaf]
  cases hleaf : leaf.kind with
  | text => exact absurd hleaf hkind
  | comment => exact ⟨.comment, _, rfl, rfl⟩
  | verbatim => exact ⟨.inline, _, rfl, rfl⟩
  | doctype => exact ⟨.block, _, rfl, rfl⟩

/-- Behind an element whose content is laid out, planning is where it is behind the content as it is
laid out for good. -/
theorem layoutNode_formatted {elem : Element} {children : List Node}
    (hcontent : settings.contentOf elem.tag = .formatted) :
    let heading := settings.layoutHeading elem.tag children progress
    let body := settings.layoutEnding heading elem.endTag
      (settings.layoutNodes children (settings.keptContent elem children progress))
    ∃ short, settings.layoutNode (.element elem children) progress =
      finishElement elem.id heading .formatted
        { body with draft := { body.draft with short := short } } := by
  intro heading body
  obtain ⟨short, hbody⟩ := settings.layoutBody_eq_kept elem.id elem.name heading fun indent draft =>
    settings.layoutEnding heading elem.endTag
      (settings.layoutNodes children ⟨draft, Flow.start indent (.start heading.block), []⟩)
  refine ⟨short, ?_⟩
  rw [layoutNode, hcontent]
  exact congrArg (finishElement elem.id heading .formatted) hbody

theorem blanks_layoutNode_formatted {elem : Element} {children : List Node}
    (hcontent : settings.contentOf elem.tag = .formatted) :
    (settings.layoutNode (.element elem children) progress).blanks =
      (settings.layoutEnding (settings.layoutHeading elem.tag children progress) elem.endTag
        (settings.layoutNodes children (settings.keptContent elem children progress))).blanks := by
  obtain ⟨short, hlaid⟩ := @layoutNode_formatted settings progress elem children hcontent
  exact congrArg Progress.blanks hlaid

/-- What is copied of an element whose content is not laid out, and the blanks that wait behind it,
are all there is behind its start tag. -/
theorem joinPieces_closed {elem : Element} {children : List Node} {kept : List OutputPiece}
    (hkept : settings.contentOf elem.tag = .empty ∧ children = [] ∧ elem.endTag = none ∧ kept = [] ∨
      settings.contentOf elem.tag = .verbatim ∧ kept = emit .verbatim (elem.preserved children).1)
    (progress : Progress) :
    let blanks := (settings.layoutNode (.element elem children) progress).blanks
    joinPieces kept ++ blanks = Node.textOfAll children ++ elem.endText ∧
      allBlank blanks = true := by
  intro blanks
  rcases hkept with ⟨hcontent, rfl, hopen, rfl⟩ | ⟨hcontent, rfl⟩
  · have hblanks : blanks = [] := by
      simp only [blanks, layoutNode, hcontent]
      rfl
    simp [hblanks, joinPieces, Element.endText, hopen]
  · have hblanks : blanks = (elem.preserved children).2 := by
      simp only [blanks, layoutNode, hcontent]
      rfl
    rw [hblanks, joinPieces_emit, elem.preserved_append]
    exact ⟨rfl, blank_preserved elem children⟩

/-- What is empty or copied is not laid out. -/
theorem contentOf_ne_formatted {tag : StartTag} {empty copied : Prop}
    (hkept : settings.contentOf tag = .empty ∧ empty ∨
      settings.contentOf tag = .verbatim ∧ copied) :
    settings.contentOf tag ≠ .formatted := by
  rcases hkept with ⟨hcontent, -⟩ | ⟨hcontent, -⟩ <;> simp [hcontent]

/-- No anchor is set on the way. -/
theorem anchored_layoutNode {node : Node} (hanchored : progress.draft.cursor.anchored = false) :
    (settings.layoutNode node progress).draft.cursor.anchored = false :=
  (settings.ahead_layoutNode node progress).anchored hanchored

theorem anchored_keptContent {elem : Element} {children : List Node}
    (hanchored : progress.draft.cursor.anchored = false) :
    (settings.keptContent elem children progress).draft.cursor.anchored = false := by
  rw [(Course.keptContent_draft settings elem children progress).1]
  exact (settings.ahead_layoutHeading elem.tag children progress).anchored hanchored

end Settings

/-- What has been written does not end with a blank. -/
theorem Cursor.Ends.trimmed {cursor : Cursor} {written : List Char} (hends : cursor.Ends written) :
    Trimmed written := by
  rcases hends.begun with ⟨rfl, -⟩ | ⟨-, htrimmed, -⟩
  · rfl
  · exact htrimmed

/-- Behind the gap in front of an item, planning is where the written text ends. -/
theorem Settings.column_separate (settings : Settings) {cursor : Cursor} {written : List Char}
    (hends : cursor.Ends written) (flow : Flow) (blanks : List Char) (next : Following)
    (width : Nat) :
    (settings.separate cursor flow blanks next width).2.1.column =
      columnAfter 0 (written ++ (settings.separate cursor flow blanks next width).1.text) := by
  rw [(settings.passes_separate cursor flow blanks next width).column, hends.column,
    columnAfter_append]

/-! ## Steps -/

/-- From a state of planning on, with this text written, nodes are laid out for good and these
pieces are written, as the plan decides. -/
inductive Settings.Proceeds (settings : Settings) (plan : Plan) :
    List Node → Progress → List Char → List OutputPiece → Prop
  | nil {progress : Progress} {written : List Char} : progress.draft.cursor.Ends written →
      settings.Proceeds plan [] progress written []
  /-- Blank text is left to the gap in front of the next item. -/
  | blank {leaf : Leaf} {rest : List Node} {progress : Progress} {written leading : List Char}
      {others : List OutputPiece} : leaf.kind = .text → Run.ofText leaf.raw = .blank leading →
      plan.get? leaf.id = some ⟨.nothing, .nothing, progress.flow.indent, .text []⟩ →
      progress.draft.cursor.Ends written →
      settings.Proceeds plan rest (settings.layoutNode (.leaf leaf) progress) written others →
        settings.Proceeds plan (.leaf leaf :: rest) progress written others
  | words {leaf : Leaf} {rest : List Node} {progress : Progress} {written : List Char}
      {leading trailing : List Char} {first : Word} {words : List (List Char × Word)}
      {passage : Passage} {inside others : List OutputPiece} : leaf.kind = .text →
      Run.ofText leaf.raw = .words leading first words trailing →
      passage = settings.layoutPassage leading first words progress →
      plan.get? leaf.id =
        some ⟨passage.before, .nothing, passage.flow.indent, .text passage.gaps⟩ →
      wordPieces? (first :: words.map (·.2)) passage.gaps = some inside →
      progress.draft.cursor.Ends written →
      settings.Proceeds plan rest (settings.layoutNode (.leaf leaf) progress)
        (written ++ joinPieces (passage.before.pieces ++ inside)) others →
        settings.Proceeds plan (.leaf leaf :: rest) progress written
          (passage.before.pieces ++ inside ++ others)
  | atom {leaf : Leaf} {rest : List Node} {progress : Progress} {written : List Char}
      {kind : Following} {separated : Gap × Cursor × Flow} {others : List OutputPiece} :
      leaf.kind ≠ .text → leaf.Legible →
      separated = settings.separate progress.draft.cursor progress.flow progress.blanks kind
        (firstLine leaf.raw).length →
      settings.layoutNode (.leaf leaf) progress =
        ⟨(progress.draft.moveTo (separated.2.1.write leaf.raw)).decide leaf.id
          ⟨separated.1, .nothing, separated.2.1.column, .atom⟩, separated.2.2.follow kind, []⟩ →
      plan.get? leaf.id = some ⟨separated.1, .nothing, separated.2.1.column, .atom⟩ →
      progress.draft.cursor.Ends written →
      settings.Proceeds plan rest (settings.layoutNode (.leaf leaf) progress)
        (written ++ joinPieces (separated.1.pieces ++ leaf.pieces)) others →
        settings.Proceeds plan (.leaf leaf :: rest) progress written
          (separated.1.pieces ++ leaf.pieces ++ others)
  /-- Nothing is written of an element behind its start tag, or its content is copied. -/
  | closed {elem : Element} {children rest : List Node} {progress : Progress} {written : List Char}
      {heading : Heading} {endTag : Gap} {kept others : List OutputPiece} :
      heading = settings.layoutHeading elem.tag children progress → elem.tag.Fits →
      (settings.contentOf elem.tag = .empty ∧ children = [] ∧ elem.endTag = none ∧ kept = [] ∨
        settings.contentOf elem.tag = .verbatim ∧
          kept = emit .verbatim (elem.preserved children).1) →
      plan.get? elem.id = some ⟨heading.before, .nothing, heading.indent,
        .element heading.attributes heading.tagEnd (settings.contentOf elem.tag) endTag⟩ →
      progress.draft.cursor.Ends written →
      settings.Proceeds plan rest (settings.layoutNode (.element elem children) progress)
        (written ++ joinPieces (heading.before.pieces ++
          elem.tag.pieces heading.attributes heading.tagEnd ++ kept)) others →
        settings.Proceeds plan (.element elem children :: rest) progress written
          (heading.before.pieces ++ elem.tag.pieces heading.attributes heading.tagEnd ++
            kept ++ others)
  | formatted {elem : Element} {children rest : List Node} {progress : Progress}
      {written : List Char} {heading : Heading} {body : Body} {inner others : List OutputPiece} :
      heading = settings.layoutHeading elem.tag children progress → elem.tag.Fits →
      settings.contentOf elem.tag = .formatted → (∀ tag ∈ elem.endTag, tag.Legible) →
      body = settings.layoutEnding heading elem.endTag
        (settings.layoutNodes children (settings.keptContent elem children progress)) →
      plan.get? elem.id = some ⟨heading.before, .nothing, heading.indent,
        .element heading.attributes heading.tagEnd .formatted body.endTag⟩ →
      progress.draft.cursor.Ends written →
      settings.Proceeds plan children (settings.keptContent elem children progress)
        (written ++ joinPieces (heading.before.pieces ++
          elem.tag.pieces heading.attributes heading.tagEnd)) inner →
      settings.Proceeds plan rest (settings.layoutNode (.element elem children) progress)
        (written ++ joinPieces (heading.before.pieces ++
          elem.tag.pieces heading.attributes heading.tagEnd ++
            (inner ++ endPieces elem.endTag body.endTag))) others →
        settings.Proceeds plan (.element elem children :: rest) progress written
          (heading.before.pieces ++ elem.tag.pieces heading.attributes heading.tagEnd ++
            (inner ++ endPieces elem.endTag body.endTag) ++ others)

namespace Settings

variable {settings : Settings} {plan : Plan} {nodes : List Node} {progress : Progress}
  {written : List Char} {pieces : List OutputPiece}

/-- Wherever planning and writing have got to, planning is where the text ends that is written. -/
theorem Proceeds.ends (hproceeds : settings.Proceeds plan nodes progress written pieces) :
    progress.draft.cursor.Ends written := by
  cases hproceeds <;> assumption

/-- Behind nodes that have been laid out, planning is where the text ends that has been written by
then. -/
theorem Proceeds.ends_behind (hproceeds : settings.Proceeds plan nodes progress written pieces) :
    (settings.layoutNodes nodes progress).draft.cursor.Ends (written ++ joinPieces pieces) := by
  induction hproceeds with
  | nil hends => simpa [layoutNodes, joinPieces] using hends
  | blank hkind hrun hdecision hends hrest ih => exact ih
  | words hkind hrun hpassage hdecision hinside hends hrest ih =>
      rwa [layoutNodes, joinPieces_append, ← List.append_assoc]
  | atom hkind hlegible hseparated hlaid hdecision hends hrest ih =>
      rwa [layoutNodes, joinPieces_append, ← List.append_assoc]
  | closed hheading hfits hkept hdecision hends hrest ih =>
      rwa [layoutNodes, joinPieces_append, ← List.append_assoc]
  | formatted hheading hfits hcontent hclose hbody hdecision hends hchildren hrest ihinner ih =>
      rwa [layoutNodes, joinPieces_append, ← List.append_assoc]

end Settings

theorem Leaf.renderWith_text_eq_ok_iff {leaf : Leaf} (hkind : leaf.kind = .text) {gaps : List Gap}
    {pieces : List OutputPiece} : leaf.renderWith (.text gaps) = .ok pieces ↔
      wordPieces? (Run.ofText leaf.raw).wordList gaps = some pieces := by
  unfold Leaf.renderWith
  rw [hkind]
  simp only
  split
  next found hfound => simp [hfound]
  next hnone => simp [hnone]

/-- Words are written with the first one in front. -/
theorem exists_behind_word {first : Word} {more : List Word} {gaps : List Gap}
    {pieces : List OutputPiece} (hpieces : wordPieces? (first :: more) gaps = some pieces) :
    ∃ others, pieces = fragmentPieces first ++ others := by
  cases more with
  | nil =>
      cases gaps with
      | nil => exact ⟨[], by rw [List.append_nil]; exact (Option.some.inj hpieces).symm⟩
      | cons gap gaps => cases hpieces
  | cons next words =>
      cases gaps with
      | nil => cases hpieces
      | cons gap gaps =>
          obtain ⟨rest, -, rfl⟩ := Option.map_eq_some_iff.mp hpieces
          exact ⟨_, rfl⟩

theorem Leaf.renderWith_atom_eq_ok_iff {leaf : Leaf} (hkind : leaf.kind ≠ .text)
    {pieces : List OutputPiece} : leaf.renderWith .atom = .ok pieces ↔ leaf.pieces = pieces := by
  unfold Leaf.renderWith
  cases hleaf : leaf.kind with
  | text => exact absurd hleaf hkind
  | _ => exact ⟨Except.ok.inj, congrArg Except.ok⟩

namespace Settings.Course

variable {settings : Settings} {plan : Plan}

/-- What is decided about a leaf is what laying it out decides. -/
theorem get?_leaf {leaf : Leaf} {rest : List Node} {progress : Progress}
    (hcourse : settings.Course plan (.leaf leaf :: rest) progress) {draft : Draft}
    {decision : Decision} {flow : Flow} {blanks : List Char}
    (hlaid : settings.layoutNode (.leaf leaf) progress =
      ⟨draft.decide leaf.id decision, flow, blanks⟩)
    (hplan : draft.plan = progress.draft.plan) (hshort : draft.short = progress.draft.short) :
    plan.get? leaf.id = some decision := by
  have hmem : leaf.id ∈ Node.idsOfAll [.leaf leaf] := by simp
  have hroom : Room [leaf.id] draft := by
    intro id hid
    rw [List.mem_singleton.mp hid, hplan, hshort]
    exact hcourse.head.room leaf.id hmem
  have hfound := hcourse.head.plan leaf.id hmem
  rw [layoutNodes, layoutNodes, hlaid] at hfound
  exact hfound.trans (get?_decide_self hroom decision)

/-- What is written of a node that is decided about stands between its gaps. -/
theorem exists_inside {node : Node} {decision : Decision} {pieces : List OutputPiece}
    (hdecision : plan.get? node.id = some decision) (hafter : decision.after = .nothing)
    (hrender : plan.render node = .ok pieces) :
    ∃ inside, plan.inside decision.layout node = .ok inside ∧
      pieces = decision.before.pieces ++ inside := by
  rw [Plan.render_of_decision hdecision] at hrender
  obtain ⟨inside, hinside, rfl⟩ := map_eq_ok_iff.mp hrender
  exact ⟨inside, hinside, by simp [hafter, Gap.pieces]⟩

/-- Where nodes are laid out for good, planning and writing proceed through them. -/
theorem proceeds (nodes : List Node) {progress : Progress} {written : List Char}
    (hcourse : settings.Course plan nodes progress) (hends : progress.draft.cursor.Ends written) :
    ∃ pieces, plan.renderAll nodes = .ok pieces ∧
      settings.Proceeds plan nodes progress written pieces := by
  match nodes with
  | [] => exact ⟨[], rfl, .nil hends⟩
  | .leaf leaf :: rest =>
      obtain ⟨first, hfirst, hbehind⟩ := hcourse.ends_head hends
      obtain ⟨others, hothers, hrest⟩ := proceeds rest hcourse.tail hbehind
      refine ⟨first ++ others, Plan.renderAll_cons_eq_ok hfirst hothers, ?_⟩
      by_cases hkind : leaf.kind = .text
      · cases hrun : Run.ofText leaf.raw with
        | blank leading =>
            have hdecision := hcourse.get?_leaf (layoutNode_blank hkind hrun) rfl rfl
            obtain ⟨inside, hinside, hsplit⟩ := exists_inside hdecision rfl hfirst
            rw [Plan.inside, Leaf.renderWith_text_eq_ok_iff hkind, hrun] at hinside
            obtain rfl : [] = inside := Option.some.inj hinside
            obtain rfl : first = [] := hsplit
            rw [show joinPieces [] = [] from rfl, List.append_nil] at hrest
            exact .blank hkind hrun hdecision hends hrest
        | words leading word words trailing =>
            have hdecision := hcourse.get?_leaf (layoutNode_words hkind hrun) rfl rfl
            obtain ⟨inside, hinside, rfl⟩ := exists_inside hdecision rfl hfirst
            rw [Plan.inside, Leaf.renderWith_text_eq_ok_iff hkind, hrun] at hinside
            exact .words hkind hrun rfl hdecision hinside hends hrest
      · obtain ⟨kind, separated, hseparated, hlaid⟩ := @layoutNode_atom settings leaf progress hkind
        have hdecision := hcourse.get?_leaf hlaid rfl rfl
        obtain ⟨inside, hinside, rfl⟩ := exists_inside hdecision rfl hfirst
        obtain rfl := (Leaf.renderWith_atom_eq_ok_iff hkind).mp hinside
        exact .atom hkind hcourse.legible.1 hseparated hlaid hdecision hends hrest
  | .element elem children :: rest =>
      obtain ⟨first, hfirst, hbehind⟩ := hcourse.ends_head hends
      obtain ⟨others, hothers, hrest⟩ := proceeds rest hcourse.tail hbehind
      refine ⟨first ++ others, Plan.renderAll_cons_eq_ok hfirst hothers, ?_⟩
      obtain ⟨hfits, halone, -⟩ := hcourse.sound.1
      obtain ⟨decision, hdecision, -⟩ := hcourse.exists_decidedAt
      obtain ⟨endTag, rfl, hclosed⟩ := hcourse.decision_element hdecision
      obtain ⟨inside, hinside, rfl⟩ := exists_inside hdecision rfl hfirst
      simp only [Plan.inside] at hinside
      split at hinside
      next => cases hinside
      next =>
        obtain ⟨content, hcontent, rfl⟩ := map_eq_ok_iff.mp hinside
        simp only [← List.append_assoc] at hrest ⊢
        cases hkind : settings.contentOf elem.tag with
        | empty =>
            obtain ⟨hnone, hopen⟩ := halone (contentOf_eq_empty_iff.mp hkind)
            rw [hkind] at hcontent
            obtain rfl : [] = content := Except.ok.inj hcontent
            exact .closed rfl hfits (.inl ⟨hkind, hnone, hopen, rfl⟩) hdecision hends hrest
        | verbatim =>
            rw [hkind] at hcontent
            obtain rfl := Except.ok.inj hcontent
            exact .closed rfl hfits (.inr ⟨hkind, rfl⟩) hdecision hends hrest
        | formatted =>
            rw [hkind] at hcontent hdecision
            obtain ⟨inner, hinner, rfl⟩ := map_eq_ok_iff.mp hcontent
            obtain rfl := hclosed hkind
            have hinside := hcourse.ends_content hends
            dsimp only at hinside
            rw [← Gap.joinPieces_pieces, ← joinPieces_append] at hinside
            obtain ⟨found, hfound, hchildren⟩ := proceeds children (hcourse.content hkind) hinside
            obtain rfl := Except.ok.inj (hinner.symm.trans hfound)
            have hclose := hcourse.legible.1.2
            rw [if_neg (plain_of_formatted hcourse.legible.1 hkind).1] at hclose
            exact .formatted rfl hfits hkind hclose.1 rfl hdecision hends hchildren hrest

end Settings.Course

/-! ## What the plan writes -/

theorem Plan.render_eq_ok {plan : Plan} {node : Node} {before : Gap} {indent : Nat}
    {layout : Layout} {inside : List OutputPiece}
    (hdecision : plan.get? node.id = some ⟨before, .nothing, indent, layout⟩)
    (hinside : plan.inside layout node = .ok inside) :
    plan.render node = .ok (before.pieces ++ inside) := by
  rw [Plan.render_of_decision hdecision]
  simp only [hinside, Except.map, Gap.pieces, List.append_nil]

theorem Plan.inside_element {plan : Plan} {elem : Element} {children : List Node}
    {attributes : List AttributeLayout} {tagEnd endTag : Gap} {content : Content}
    {written : List OutputPiece} (hlength : attributes.length = elem.tag.attributes.length)
    (hcontent : plan.content elem children endTag content = .ok written) :
    plan.inside (.element attributes tagEnd content endTag) (.element elem children) =
      .ok (elem.tag.pieces attributes tagEnd ++ written) := by
  simp only [Plan.inside, hlength, hcontent, ne_eq, not_true_eq_false, if_false, Except.map]

/-- What is written step by step is what the plan writes. -/
theorem Settings.Proceeds.renderAll {settings : Settings} {plan : Plan} {nodes : List Node}
    {progress : Progress} {written : List Char} {pieces : List OutputPiece}
    (hproceeds : settings.Proceeds plan nodes progress written pieces) :
    plan.renderAll nodes = .ok pieces := by
  induction hproceeds with
  | nil => rfl
  | @blank leaf rest progress written leading others hkind hrun hdecision hends hrest ih =>
      have hinside : plan.inside (.text []) (.leaf leaf) = .ok [] := by
        rw [Plan.inside, Leaf.renderWith_text_eq_ok_iff hkind, hrun]
        rfl
      exact @Plan.renderAll_cons_eq_ok _ (.leaf leaf) _ _ _ (Plan.render_eq_ok hdecision hinside) ih
  | @words leaf rest progress written leading trailing first words passage inside others hkind hrun
      hpassage hdecision hinside hends hrest ih =>
      refine Plan.renderAll_cons_eq_ok (Plan.render_eq_ok hdecision ?_) ih
      rw [Plan.inside, Leaf.renderWith_text_eq_ok_iff hkind, hrun]
      exact hinside
  | @atom leaf rest progress written kind separated others hkind hlegible hseparated hlaid hdecision
      hends hrest ih =>
      have hrender := (Leaf.renderWith_atom_eq_ok_iff hkind).mpr rfl
      exact Plan.renderAll_cons_eq_ok (Plan.render_eq_ok hdecision hrender) ih
  | @closed elem children rest progress written heading endTag kept others hheading hfits hkept
      hdecision hends hrest ih =>
      have hlength : heading.attributes.length = elem.tag.attributes.length :=
        hheading ▸ (settings.layoutStartTag_spec elem.tag _ _).1
      have hcontent : plan.content elem children endTag (settings.contentOf elem.tag) =
          .ok kept := by
        rcases hkept with ⟨hempty, -, -, rfl⟩ | ⟨hverbatim, rfl⟩
        · rw [hempty, Plan.content]
        · rw [hverbatim, Plan.content]
      rw [List.append_assoc (Gap.pieces _)]
      exact Plan.renderAll_cons_eq_ok
        (Plan.render_eq_ok hdecision (Plan.inside_element hlength hcontent)) ih
  | @formatted elem children rest progress written heading body inner others hheading hfits hkind
      hclose hbody hdecision hends hchildren hrest ihinner ih =>
      have hlength : heading.attributes.length = elem.tag.attributes.length :=
        hheading ▸ (settings.layoutStartTag_spec elem.tag _ _).1
      have hcontent : plan.content elem children body.endTag .formatted =
          .ok (inner ++ endPieces elem.endTag body.endTag) := by
        rw [Plan.content, ihinner]
        rfl
      rw [List.append_assoc (Gap.pieces _)]
      exact Plan.renderAll_cons_eq_ok
        (Plan.render_eq_ok hdecision (Plan.inside_element hlength hcontent)) ih

theorem Plan.render_of_renderAll {plan : Plan} {node : Node} {rest : List Node}
    {first others : List OutputPiece} (hall : plan.renderAll (node :: rest) = .ok (first ++ others))
    (hrest : plan.renderAll rest = .ok others) : plan.render node = .ok first := by
  obtain ⟨head, tail, hhead, htail, hsplit⟩ := Plan.renderAll_cons_eq_ok_iff.mp hall
  obtain rfl := Except.ok.inj (hrest.symm.trans htail)
  rwa [← List.append_cancel_right hsplit]

/-- A text that can be read is formatted step by step, from nothing on. -/
theorem formatPieces_proceeds {settings : Settings} {text : List Char} {document : Document}
    (hcheck : settings.check = .ok ()) (hparse : parse text = .ok document) :
    let plan := settings.layoutDocument document
    let start := Settings.planningStart document
    ∃ pieces, formatPieces settings text none = .ok (pieces ++ plan.ending.pieces) ∧
      settings.Proceeds plan document.children start [] pieces ∧
        plan.ending = settings.finalGap (settings.layoutNodes document.children start).blanks := by
  intro plan start
  have hends : start.draft.cursor.Ends [] := ⟨rfl, rfl, .inl ⟨rfl, rfl⟩⟩
  obtain ⟨pieces, hpieces, hproceeds⟩ := (settings.course_document hparse).proceeds _ hends
  refine ⟨pieces, ?_, hproceeds, rfl⟩
  simp only [formatPieces, hcheck, hparse, settings.plan_none hcheck, Plan.renderDocument,
    mapError_ok, bind, Except.bind]
  rw [show plan.renderAll document.children = .ok pieces from hpieces]
  rfl

end Markup
