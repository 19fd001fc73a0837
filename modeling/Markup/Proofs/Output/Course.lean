import Markup.Proofs.Output.Preservation
import Markup.Proofs.Plan.Descent
import Markup.Proofs.Plan.Splicing

/-!
# The course of planning

Planning follows the output without writing it, and where it lays out the content of an element
twice it goes back on its way. What counts is the layout that is kept. Its course goes through
spots: in front of a node, once the gap there has been decided on; behind a node, once it has been
laid out; in front of an end tag, once its gap has been decided on. Up to each of them the plan that
comes out of it all writes some text, and the cursor is where that text ends. Main statement:
`format_course`.
-/

namespace Markup

open Markup.Text

/-! ## The layout that is kept -/

namespace Settings

variable (settings : Settings)

/-- The indent and the draft with which the content of an element is laid out for good. -/
def keptStart (id : Nat) (name : List Char) (heading : Heading) (content : Nat → Draft → Body) :
    Nat × Draft :=
  let flush := heading.indent
  let stepped := heading.indent + settings.indentSize
  if (heading.ownLine || heading.block) && !settings.doesNotIndentChildrenOf name then
    match settings.isShort? heading.draft id with
    | some true => (stepped, heading.draft)
    | some false => (flush, heading.draft)
    | none =>
        let trial := content stepped heading.draft
        let fits := Nat.blt (trial.draft.cursor.lines - heading.lines) settings.heightLimit
        if fits then (stepped, heading.draft)
        else (flush, { heading.draft with short := (trial.draft.measure id fits).short })
  else (flush, heading.draft)

/-- The body of an element is its content as it is laid out for good; nothing else comes of a trial
than what is known of heights. -/
theorem layoutBody_eq_kept (id : Nat) (name : List Char) (heading : Heading)
    (content : Nat → Draft → Body) :
    let start := settings.keptStart id name heading content
    let body := content start.1 start.2
    ∃ short, settings.layoutBody id name heading content =
      { body with draft := { body.draft with short := short } } := by
  unfold keptStart layoutBody
  by_cases hsteps :
      ((heading.ownLine || heading.block) && !settings.doesNotIndentChildrenOf name) = true
  · simp only [hsteps, if_true]
    cases settings.isShort? heading.draft id with
    | some short => cases short <;> exact ⟨_, rfl⟩
    | none =>
        -- a trial that fits is what is kept, and of one that does not its measure is
        dsimp only
        generalize Nat.blt _ _ = fits
        cases fits <;> exact ⟨_, rfl⟩
  · simp only [hsteps, Bool.false_eq_true, if_false]
    exact ⟨_, rfl⟩

theorem keptStart_draft (id : Nat) (name : List Char) (heading : Heading)
    {content : Nat → Draft → Body}
    (hsize : ∀ indent draft, (content indent draft).draft.short.size = draft.short.size) :
    (settings.keptStart id name heading content).2.cursor = heading.draft.cursor ∧
      (settings.keptStart id name heading content).2.plan = heading.draft.plan ∧
        (settings.keptStart id name heading content).2.short.size = heading.draft.short.size := by
  unfold keptStart
  dsimp only
  split
  next =>
    split
    next => exact ⟨rfl, rfl, rfl⟩
    next => exact ⟨rfl, rfl, rfl⟩
    next =>
      split
      next => exact ⟨rfl, rfl, rfl⟩
      next => exact ⟨rfl, rfl, by simpa [Draft.measure] using hsize _ _⟩
  next => exact ⟨rfl, rfl, rfl⟩

/-- The state from which the children of an element are laid out for good. -/
def keptContent (elem : Element) (children : List Node) (progress : Progress) : Progress :=
  let heading := settings.layoutHeading elem.tag children progress
  let start := settings.keptStart elem.id elem.name heading fun indent draft =>
    settings.layoutEnding heading elem.endTag
      (settings.layoutNodes children ⟨draft, Flow.start indent (.start heading.block), []⟩)
  ⟨start.2, Flow.start start.1 (.start heading.block), []⟩

end Settings

/-! ## Spots on the way -/

/-- A spot that planning comes to: the first character of a node, the end of a node, or the first
character of an end tag. -/
inductive Spot where
  | before (node : Node)
  | behind (node : Node)
  | closing (elem : Element)

/-- While nodes are laid out for good from a state of planning on, it comes to a spot, with the
cursor there; and a plan writes this text up to there. -/
inductive Settings.Comes (settings : Settings) (plan : Plan) :
    List Node → Progress → Spot → Cursor → List Char → Prop
  | before {node : Node} {rest : List Node} {progress : Progress} {decision : Decision} :
      plan.get? node.id = some decision →
        settings.Comes plan (node :: rest) progress (.before node)
          (progress.draft.cursor.skip decision.before) decision.before.text
  | behind {node : Node} {rest : List Node} {progress : Progress} {pieces : List OutputPiece} :
      plan.render node = .ok pieces →
        settings.Comes plan (node :: rest) progress (.behind node)
          (settings.layoutNode node progress).draft.cursor (joinPieces pieces)
  | later {node : Node} {rest : List Node} {progress : Progress} {pieces : List OutputPiece}
      {spot : Spot} {cursor : Cursor} {written : List Char} : plan.render node = .ok pieces →
        settings.Comes plan rest (settings.layoutNode node progress) spot cursor written →
          settings.Comes plan (node :: rest) progress spot cursor (joinPieces pieces ++ written)
  | inside {elem : Element} {children rest : List Node} {progress : Progress} {decision : Decision}
      {attributes : List AttributeLayout} {tagEnd endTag : Gap} {spot : Spot} {cursor : Cursor}
      {written : List Char} : plan.get? elem.id = some decision →
        decision.layout = .element attributes tagEnd .formatted endTag →
          settings.Comes plan children (settings.keptContent elem children progress) spot cursor
            written →
            settings.Comes plan (.element elem children :: rest) progress spot cursor
              (decision.before.text ++ (joinPieces (elem.tag.pieces attributes tagEnd) ++ written))
  | closing {elem : Element} {children rest : List Node} {progress : Progress} {decision : Decision}
      {attributes : List AttributeLayout} {tagEnd endTag : Gap} {pieces : List OutputPiece} :
      plan.get? elem.id = some decision →
        decision.layout = .element attributes tagEnd .formatted endTag → elem.endTag ≠ none →
          plan.renderAll children = .ok pieces →
            settings.Comes plan (.element elem children :: rest) progress (.closing elem)
              ((settings.layoutNodes children
                (settings.keptContent elem children progress)).draft.cursor.skip endTag)
              (decision.before.text ++ (joinPieces (elem.tag.pieces attributes tagEnd) ++
                (joinPieces pieces ++ endTag.text)))

/-- Planning is where a text ends. -/
structure Cursor.Stands (cursor : Cursor) (written : List Char) : Prop where
  column : cursor.column = (lastLine written).length
  lines : cursor.lines = newlines written
  blank : cursor.blank = allBlank (lastLine written)

theorem Cursor.Stands.skip {cursor : Cursor} {written : List Char} (hstands : cursor.Stands written)
    {gap : Gap} (hblank : gap.Blank) (hfeeds : gap.Feeds) :
    (cursor.skip gap).Stands (written ++ gap.text) := by
  have hpasses := cursor.passes_skip hfeeds
  refine ⟨?_, ?_, ?_⟩
  · rw [hpasses.column, hstands.column, ← columnAfter_zero, ← columnAfter_append, columnAfter_zero]
  · rw [hpasses.lines, hstands.lines, newlines_append]
  · -- a gap on one line leaves the line as blank as it was
    have hsame : '\n' ∉ gap.text → cursor.blank = allBlank (lastLine (written ++ gap.text)) := by
      intro hnot
      have hgap : allBlank gap.text = true := hblank
      rw [lastLine_append_of_not_mem hnot, allBlank_append, hgap, Bool.and_true, hstands.blank]
    cases gap with
    | nothing => exact hsame (by simp [Gap.text])
    | space => exact hsame (by simp [Gap.text])
    | lineBreak count indent =>
        obtain ⟨more, rfl⟩ := Nat.exists_eq_succ_of_ne_zero (Nat.pos_iff_ne_zero.mp hfeeds)
        rw [Gap.text, (lastLine_append (by simp) written).1, lastLine_replicate]
        exact (allBlank_replicate rfl _).symm
    | kept text =>
        -- behind a line feed of its own, a gap is all that is on the line
        by_cases hmem : '\n' ∈ text
        · have hline : allBlank (lastLine text) = true := by
            refine List.all_eq_true.mpr fun c hc => List.all_eq_true.mp hblank c ?_
            exact List.mem_reverse.mp ((List.takeWhile_prefix _).subset (List.mem_reverse.mp hc))
          rw [Gap.text, (lastLine_append hmem written).1, hline]
          simp [Cursor.skip, hmem]
        · rw [← hsame hmem]
          simp [Cursor.skip, hmem]

/-- Planning is behind an item that ends a text: the text does not end with blanks, or there is
none. -/
structure Cursor.Ends (cursor : Cursor) (written : List Char) : Prop where
  column : cursor.column = columnAfter 0 written
  lines : cursor.lines = newlines written
  begun : written = [] ∧ cursor.blank = true ∨ written ≠ [] ∧ Trimmed written ∧ cursor.Begun

theorem Cursor.Ends.stands {cursor : Cursor} {written : List Char} (hends : cursor.Ends written) :
    cursor.Stands written := by
  refine ⟨by rw [hends.column, columnAfter_zero], hends.lines, ?_⟩
  rcases hends.begun with ⟨rfl, hblank⟩ | ⟨hne, htrimmed, -, hblank⟩
  · rw [hblank]
    rfl
  · have hline := htrimmed.not_blank_lastLine hne [] (by simp)
    rw [List.append_nil] at hline
    rw [hblank, hline]

/-- What is written next and does not end with blanks leads to another end. -/
theorem Cursor.Ends.append {before after : Cursor} {written text : List Char}
    (hends : before.Ends written) (hpasses : before.Passes text after) (hne : text ≠ [])
    (htrimmed : Trimmed text) (hbegun : after.Begun) : after.Ends (written ++ text) := by
  refine ⟨?_, ?_, .inr ⟨by simp [hne], htrimmed.append_left hne _, hbegun⟩⟩
  · rw [hpasses.column, hends.column, columnAfter_append]
  · rw [hpasses.lines, hends.lines, newlines_append]

namespace Settings

variable (settings : Settings)

/-- Arranged items end where planning is behind them. -/
theorem ends_arrangeAll {items : List Item} (hproper : Item.ProperAll StartTag.Fits items)
    {stage : Stage} {written : List Char} (hends : stage.cursor.Ends written) :
    (settings.arrangeAll items stage).2.cursor.Ends
      (written ++ Item.textOfAll (settings.arrangeAll items stage).1) := by
  have hpasses := settings.passes_arrangeAll items hproper stage
  have hreadable := settings.readable_arrangeAll hproper stage
  cases items with
  | nil => simpa [arrangeAll, Item.textOfAll] using hends
  | cons item rest =>
      have hne : Item.textOfAll (settings.arrangeAll (item :: rest) stage).1 ≠ [] := by
        simp [arrangeAll, Item.textOfAll, (Item.trimmed_text _ hreadable.1).1]
      exact hends.append hpasses.cursor hne (Item.trimmed_textOfAll _ hreadable)
        (hpasses.begun (.inr hne))

/-- What is laid out and written alike ends where planning is behind it. -/
theorem Agrees.ends {settings : Settings} {outlined : List Item × List Char} {ids : List Nat}
    {write : Plan → Except RenderError (List OutputPiece)} {before after : Progress} {plan : Plan}
    (hagrees : settings.Agrees outlined ids write before after)
    (hproper : Item.ProperAll StartTag.Fits outlined.1)
    (hplan : ∀ id ∈ ids, plan.get? id = after.draft.plan.get? id) {written : List Char}
    (hends : before.draft.cursor.Ends written) :
    ∃ pieces, write plan = .ok pieces ∧ after.draft.cursor.Ends (written ++ joinPieces pieces) := by
  obtain ⟨pieces, hpieces, htext⟩ := hagrees.written plan hplan
  have harranged := @ends_arrangeAll settings _ hproper ⟨before.draft.cursor, before.flow⟩ _ hends
  rw [hagrees.stage, ← htext] at harranged
  exact ⟨pieces, hpieces, harranged⟩

/-- A start tag ends where planning is behind it. -/
theorem ends_layoutHeading (elem : Element) (children : List Node) {progress : Progress}
    (hfits : elem.tag.Fits) {written : List Char} (hends : progress.draft.cursor.Ends written) :
    let heading := settings.layoutHeading elem.tag children progress
    heading.draft.cursor.Ends (written ++ (heading.before.text ++
      joinPieces (elem.tag.pieces heading.attributes heading.tagEnd))) := by
  intro heading
  have hshows := settings.shows_layoutHeading elem.tag children progress
  have hpasses := settings.passes_front progress.blanks hfits.newline_not_mem
    (settings.leadingWidth lookahead elem.tag children) ⟨progress.draft.cursor, progress.flow⟩
  have hbegun := settings.begun_front progress.blanks elem.tag
    (settings.leadingWidth lookahead elem.tag children) ⟨progress.draft.cursor, progress.flow⟩
  have hne : heading.before.text ++
      (elem.tag.laid heading.attributes heading.tagEnd).text ≠ [] := by
    simp [StartTag.text]
  rw [StartTag.joinPieces_pieces]
  refine hends.append ?_ hne ?_ ?_
  · rw [hshows.before, hshows.tag, hshows.draft]
    exact hpasses
  · exact (Item.trimmed_tag _).append_left (by simp [StartTag.text]) _
  · rw [hshows.draft]
    exact hbegun

/-! ## The gap in front of a node -/

theorem feeds_separate (cursor : Cursor) (flow : Flow) (blanks : List Char) (next : Following)
    (width : Nat) : (settings.separate cursor flow blanks next width).1.Feeds := by
  unfold separate
  split
  next => trivial
  next =>
    split
    next => exact Gap.feeds_keep blanks
    next => exact settings.feeds_gapBetween cursor flow blanks next width

/-- Planning goes over the gap that it has decided on. -/
theorem separate_skip (cursor : Cursor) (flow : Flow) (blanks : List Char) (next : Following)
    (width : Nat) :
    let found := settings.separate cursor flow blanks next width
    found.2.1.column = (cursor.skip found.1).column ∧ found.2.1.blank =
      (cursor.skip found.1).blank ∧ found.2.1.lines = (cursor.skip found.1).lines := by
  unfold separate
  split
  next => exact ⟨rfl, rfl, rfl⟩
  next =>
    split
    next => cases Gap.keep blanks <;> exact ⟨rfl, rfl, rfl⟩
    next => exact ⟨rfl, rfl, rfl⟩

/-- The gap in front of an end tag stands for blanks, as the blanks do whose place it takes. -/
theorem blank_layoutEnding (heading : Heading) (endTag : Option EndTag) {inner : Progress}
    (hblanks : allBlank inner.blanks = true) :
    (settings.layoutEnding heading endTag inner).endTag.Blank ∧
      (settings.layoutEnding heading endTag inner).endTag.Feeds := by
  cases endTag with
  | none => exact ⟨Gap.blank_nothing, trivial⟩
  | some close =>
      exact ⟨settings.blank_closingGap _ _ _ _ hblanks, settings.feeds_closingGap _ _ _ _ _⟩

/-- What is decided about a node as planning comes to it: the gap in front of it, and the indent
where that is the column behind the gap. -/
structure DecidedAt (progress : Progress) (node : Node) (decision : Decision) : Prop where
  blank : decision.before.Blank
  feeds : decision.before.Feeds
  atom : decision.layout = .atom →
    decision.indent = (progress.draft.cursor.skip decision.before).column
  element : ∀ elem children, node = .element elem children →
    (progress.draft.cursor.skip decision.before).blank = true →
      decision.indent = (progress.draft.cursor.skip decision.before).column

theorem exists_decidedAt_layoutLeaf (leaf : Leaf) {progress : Progress}
    (hblanks : allBlank progress.blanks = true) (hroom : Room [leaf.id] progress.draft) :
    ∃ decision, (settings.layoutLeaf leaf progress).draft.plan.get? leaf.id = some decision ∧
      DecidedAt progress (.leaf leaf) decision := by
  have hatom : ∀ kind, ∃ decision,
      (settings.layoutAtom leaf kind progress).draft.plan.get? leaf.id = some decision ∧
        DecidedAt progress (.leaf leaf) decision := fun kind =>
    ⟨_, get?_decide_self (by exact hroom) _, settings.blank_separate _ _ _ _ hblanks,
      settings.feeds_separate _ _ _ _ _, fun _ => (settings.separate_skip _ _ _ _ _).1, by simp⟩
  unfold layoutLeaf
  split
  next hkind =>
    have hproper := Run.proper_ofText leaf.raw
    unfold layoutText
    split
    next =>
      exact ⟨_, get?_decide_self (by exact hroom) _, Gap.blank_nothing, trivial, by simp, by simp⟩
    next hrun =>
      rw [hrun] at hproper
      refine ⟨_, get?_decide_self (by exact hroom) _, settings.blank_separate _ _ _ _ ?_,
        settings.feeds_separate _ _ _ _ _, by simp, by simp⟩
      rw [allBlank_append, hblanks, hproper.1, Bool.and_true]
  next => exact hatom _
  next => exact hatom _
  next => exact hatom _

/-- What is decided about an element: what its heading shows, and in front of the end tag the gap
that comes of its content as it is laid out for good. -/
theorem exists_decision_element (elem : Element) (children : List Node) {progress : Progress}
    (hroom : Room [elem.id] progress.draft) :
    let heading := settings.layoutHeading elem.tag children progress
    ∃ endTag, (settings.layoutNode (.element elem children) progress).draft.plan.get? elem.id =
        some ⟨heading.before, .nothing, heading.indent,
          .element heading.attributes heading.tagEnd (settings.contentOf elem.tag) endTag⟩ ∧
      (settings.contentOf elem.tag = .formatted → endTag =
        (settings.layoutEnding heading elem.endTag
          (settings.layoutNodes children
            (settings.keptContent elem children progress))).endTag) := by
  intro heading
  -- there is room for the decision, as laying out takes no room away
  have hkept := (settings.keeps_layoutNode (.element elem children) progress).decided
  rw [layoutNode] at hkept ⊢
  cases hcontent : settings.contentOf elem.tag with
  | empty =>
      simp only [hcontent] at hkept
      exact ⟨_, get?_finishElement_self hroom heading _ hkept, nofun⟩
  | verbatim =>
      simp only [hcontent] at hkept
      exact ⟨_, get?_finishElement_self hroom heading _ hkept, nofun⟩
  | formatted =>
      simp only [hcontent] at hkept
      refine ⟨_, get?_finishElement_self hroom heading _ hkept, fun _ => ?_⟩
      obtain ⟨short, hbody⟩ :=
        settings.layoutBody_eq_kept elem.id elem.name heading fun indent draft =>
        settings.layoutEnding heading elem.endTag
          (settings.layoutNodes children ⟨draft, Flow.start indent (.start heading.block), []⟩)
      have hclosed := congrArg Body.endTag hbody
      exact hclosed

theorem exists_decidedAt_layoutNode (node : Node) {progress : Progress}
    (hblanks : allBlank progress.blanks = true) (hroom : Room [node.id] progress.draft) :
    ∃ decision, (settings.layoutNode node progress).draft.plan.get? node.id = some decision ∧
      DecidedAt progress node decision := by
  cases node with
  | leaf leaf =>
      rw [layoutNode]
      exact settings.exists_decidedAt_layoutLeaf leaf hblanks hroom
  | element elem children =>
      obtain ⟨endTag, hdecision, -⟩ := settings.exists_decision_element elem children hroom
      refine ⟨_, hdecision, settings.blank_separate _ _ _ _ hblanks,
        settings.feeds_separate _ _ _ _ _, nofun, fun _ _ _ hblank => ?_⟩
      obtain ⟨hcolumn, hsame, -⟩ := settings.separate_skip progress.draft.cursor progress.flow
        progress.blanks (if !settings.isInline elem.tag.name then .block else .inline)
        (if !settings.isInline elem.tag.name then 0
          else settings.leadingWidth lookahead elem.tag children)
      exact (if_pos (hsame.trans hblank)).trans hcolumn

end Settings

/-! ## A run on its way -/

/-- What holds where nodes are laid out for good: they were read, there is room for them, nothing
has been decided about them so far, and the plan decides about them as it comes out of this. -/
structure Settings.Course (settings : Settings) (plan : Plan) (nodes : List Node)
    (progress : Progress) : Prop where
  legible : Node.LegibleAll nodes
  sound : Node.SoundAll nodes
  nodup : (Node.idsOfAll nodes).Nodup
  room : Settings.Room (Node.idsOfAll nodes) progress.draft
  blanks : allBlank progress.blanks = true
  open_ : ∀ id ∈ Node.idsOfAll nodes, progress.draft.plan.get? id = none
  plan : ∀ id ∈ Node.idsOfAll nodes,
    plan.get? id = (settings.layoutNodes nodes progress).draft.plan.get? id

namespace Settings.Course

variable {settings : Settings} {plan : Plan} {nodes rest children : List Node} {node : Node}
  {elem : Element} {progress : Progress}

theorem exists_agrees (hcourse : settings.Course plan nodes progress) :
    ∃ outlined, settings.Agrees outlined (Node.idsOfAll nodes) (fun plan => plan.renderAll nodes)
        progress (settings.layoutNodes nodes progress) ∧
      Item.ProperAll StartTag.Fits outlined.1 ∧ allBlank outlined.2 = true := by
  -- the notes that the items carry are those that this very layout comes to
  let judge id := ((settings.layoutNodes nodes progress).draft.short? id).getD true
  have hknows : settings.Knows judge (Node.idsOfAll nodes)
      (settings.layoutNodes nodes progress).draft := by
    intro _ id _ fits hfits
    simp [judge, hfits]
  exact ⟨_, agrees_layoutNodes nodes hcourse.legible hcourse.sound hcourse.nodup progress
    hcourse.room hknows, Node.proper_outlineAll judge nodes hcourse.legible hcourse.sound
      hcourse.blanks⟩

/-- Nodes end where planning is behind them. -/
theorem ends (hcourse : settings.Course plan nodes progress) {front : List Char}
    (hends : progress.draft.cursor.Ends front) :
    ∃ pieces, plan.renderAll nodes = .ok pieces ∧
      (settings.layoutNodes nodes progress).draft.cursor.Ends (front ++ joinPieces pieces) := by
  obtain ⟨outlined, hagrees, hproper, -⟩ := hcourse.exists_agrees
  exact hagrees.ends hproper hcourse.plan hends

theorem blank (hcourse : settings.Course plan nodes progress) :
    allBlank (settings.layoutNodes nodes progress).blanks = true := by
  obtain ⟨outlined, hagrees, -, hblank⟩ := hcourse.exists_agrees
  rwa [hagrees.left] at hblank

theorem head (hcourse : settings.Course plan (node :: rest) progress) :
    settings.Course plan [node] progress := by
  have hsingle : Node.idsOfAll [node] = node.ids := by simp
  have hsub : ∀ id ∈ node.ids, id ∈ Node.idsOfAll (node :: rest) := fun id hmem => by simp [hmem]
  have hnodup := hcourse.nodup
  rw [Node.idsOfAll_cons] at hnodup
  obtain ⟨hnode, -, hdisjoint⟩ := List.nodup_append.mp hnodup
  refine ⟨⟨hcourse.legible.1, trivial⟩, ⟨hcourse.sound.1, trivial⟩, by rwa [hsingle], ?_,
    hcourse.blanks, ?_, ?_⟩
  · rw [hsingle]
    exact fun id hmem => hcourse.room id (hsub id hmem)
  · rw [hsingle]
    exact fun id hmem => hcourse.open_ id (hsub id hmem)
  · rw [hsingle]
    intro id hmem
    -- what follows the node decides nothing about it
    have hkeeps := settings.keeps_layoutNodes rest (settings.layoutNode node progress)
    rw [hcourse.plan id (hsub id hmem)]
    exact hkeeps.plan id fun hin => hdisjoint id hmem id hin rfl

theorem tail (hcourse : settings.Course plan (node :: rest) progress) :
    settings.Course plan rest (settings.layoutNode node progress) := by
  have hsub : ∀ id ∈ Node.idsOfAll rest, id ∈ Node.idsOfAll (node :: rest) := fun id hmem => by
    simp [hmem]
  have hnodup := hcourse.nodup
  rw [Node.idsOfAll_cons] at hnodup
  obtain ⟨-, hrest, hdisjoint⟩ := List.nodup_append.mp hnodup
  have hkeeps := settings.keeps_layoutNode node progress
  refine ⟨hcourse.legible.2, hcourse.sound.2, hrest, ?_, hcourse.head.blank, fun id hmem => ?_,
    fun id hmem => hcourse.plan id (hsub id hmem)⟩
  · have hroom : Room (Node.idsOfAll rest) progress.draft := fun id hmem =>
      hcourse.room id (hsub id hmem)
    exact hroom.of_keeps hkeeps
  · rw [hkeeps.plan id fun hin => hdisjoint id hin id hmem rfl]
    exact hcourse.open_ id (hsub id hmem)

/-- A node ends where planning is behind it. -/
theorem ends_head (hcourse : settings.Course plan (node :: rest) progress) {front : List Char}
    (hends : progress.draft.cursor.Ends front) :
    ∃ pieces, plan.render node = .ok pieces ∧
      (settings.layoutNode node progress).draft.cursor.Ends (front ++ joinPieces pieces) := by
  obtain ⟨pieces, hpieces, hbehind⟩ := hcourse.head.ends hends
  exact ⟨pieces, Plan.renderAll_singleton_eq_ok_iff.mp hpieces, hbehind⟩

/-- What the plan decides about the first node. -/
theorem exists_decidedAt (hcourse : settings.Course plan (node :: rest) progress) :
    ∃ decision, plan.get? node.id = some decision ∧ DecidedAt progress node decision := by
  have hmem : node.id ∈ Node.idsOfAll [node] := by simp [Plan.id_mem_ids]
  have hroom : Room [node.id] progress.draft := fun id hid =>
    List.mem_singleton.mp hid ▸ hcourse.head.room node.id hmem
  obtain ⟨decision, hdecision, hmade⟩ :=
    settings.exists_decidedAt_layoutNode node hcourse.blanks hroom
  exact ⟨decision, (hcourse.head.plan node.id hmem).trans hdecision, hmade⟩

theorem decision_element (hcourse : settings.Course plan (.element elem children :: rest) progress)
    {decision : Decision} (hdecision : plan.get? elem.id = some decision) :
    let heading := settings.layoutHeading elem.tag children progress
    ∃ endTag, decision = ⟨heading.before, .nothing, heading.indent,
        .element heading.attributes heading.tagEnd (settings.contentOf elem.tag) endTag⟩ ∧
      (settings.contentOf elem.tag = .formatted → endTag =
        (settings.layoutEnding heading elem.endTag
          (settings.layoutNodes children
            (settings.keptContent elem children progress))).endTag) := by
  intro heading
  have hmem : elem.id ∈ Node.idsOfAll [.element elem children] := by simp
  have hroom : Room [elem.id] progress.draft := fun id hid =>
    List.mem_singleton.mp hid ▸ hcourse.head.room elem.id hmem
  obtain ⟨endTag, hfound, hclosed⟩ := settings.exists_decision_element elem children hroom
  have hsame := (hcourse.head.plan elem.id hmem).trans hfound
  exact ⟨endTag, Option.some.inj (hdecision.symm.trans hsame), hclosed⟩

/-! ## Into an element -/

/-- Trials decide nothing for good and know of the same elements. -/
theorem keptContent_draft (settings : Settings) (elem : Element) (children : List Node)
    (progress : Progress) :
    let heading := settings.layoutHeading elem.tag children progress
    let kept := settings.keptContent elem children progress
    kept.draft.cursor = heading.draft.cursor ∧ kept.draft.plan = progress.draft.plan ∧
      kept.draft.short.size = progress.draft.short.size :=
  settings.keptStart_draft elem.id elem.name (settings.layoutHeading elem.tag children progress)
    fun indent draft => (settings.keeps_layoutEnding _ elem.endTag (settings.keeps_layoutNodes
      children ⟨draft, Flow.start indent
        (.start (settings.layoutHeading elem.tag children progress).block), []⟩)).measured

/-- Of the content of an element, the plan decides as it is laid out for good. -/
theorem get?_layoutNode_inside (settings : Settings) {id : Nat} (hne : elem.id ≠ id)
    (hcontent : settings.contentOf elem.tag = .formatted) :
    (settings.layoutNode (.element elem children) progress).draft.plan.get? id =
      (settings.layoutNodes children
        (settings.keptContent elem children progress)).draft.plan.get? id := by
  have hending : ∀ (heading : Heading) (endTag : Option EndTag) (inner : Progress),
      (settings.layoutEnding heading endTag inner).draft.plan = inner.draft.plan := by
    intro heading endTag inner
    cases endTag <;> rfl
  obtain ⟨short, hbody⟩ := settings.layoutBody_eq_kept elem.id elem.name
    (settings.layoutHeading elem.tag children progress) fun indent draft =>
      settings.layoutEnding (settings.layoutHeading elem.tag children progress) elem.endTag
        (settings.layoutNodes children ⟨draft, Flow.start indent
          (.start (settings.layoutHeading elem.tag children progress).block), []⟩)
  have hplan := congrArg (fun body : Body => body.draft.plan) hbody
  dsimp only at hplan
  rw [hending] at hplan
  rw [layoutNode]
  simp only [hcontent]
  rw [get?_finishElement_of_ne hne, hplan]
  rfl

/-- Of content that is not laid out, nothing is decided. -/
theorem get?_layoutNode_outside (settings : Settings) {id : Nat} (hne : elem.id ≠ id)
    (hcontent : settings.contentOf elem.tag ≠ .formatted) :
    (settings.layoutNode (.element elem children) progress).draft.plan.get? id =
      progress.draft.plan.get? id := by
  rw [layoutNode]
  cases hkind : settings.contentOf elem.tag with
  | empty =>
      simp only
      exact get?_finishElement_of_ne hne _ _ _
  | verbatim =>
      simp only
      exact get?_finishElement_of_ne hne _ _ _
  | formatted => exact absurd hkind hcontent

theorem nodup_element (hcourse : settings.Course plan (.element elem children :: rest) progress) :
    elem.id ∉ Node.idsOfAll children ∧ (Node.idsOfAll children).Nodup := by
  have hnodup := hcourse.nodup
  rw [Node.idsOfAll_cons, Node.ids_element] at hnodup
  exact List.nodup_cons.mp (List.nodup_append.mp hnodup).1

/-- Inside an element that is laid out, planning is on its way through the children. -/
theorem content (hcourse : settings.Course plan (.element elem children :: rest) progress)
    (hcontent : settings.contentOf elem.tag = .formatted) :
    settings.Course plan children (settings.keptContent elem children progress) := by
  obtain ⟨-, hplan, hshort⟩ := keptContent_draft settings elem children progress
  obtain ⟨hfresh, hnodup⟩ := hcourse.nodup_element
  have hsub : ∀ id ∈ Node.idsOfAll children,
      id ∈ Node.idsOfAll (.element elem children :: rest) := fun id hmem => by simp [hmem]
  refine ⟨(plain_of_formatted hcourse.legible.1 hcontent).2, hcourse.sound.1.2.2, hnodup, ?_, rfl,
    ?_, ?_⟩
  · intro id hmem
    rw [hplan, hshort]
    exact hcourse.room id (hsub id hmem)
  · intro id hmem
    rw [hplan]
    exact hcourse.open_ id (hsub id hmem)
  · intro id hmem
    have hne : elem.id ≠ id := fun hsame => hfresh (hsame ▸ hmem)
    rw [← get?_layoutNode_inside settings hne hcontent]
    exact hcourse.head.plan id (by simp [hmem])

/-- Behind the start tag of an element that is laid out, planning is where it ends. -/
theorem ends_content (hcourse : settings.Course plan (.element elem children :: rest) progress)
    {front : List Char} (hends : progress.draft.cursor.Ends front) :
    let heading := settings.layoutHeading elem.tag children progress
    (settings.keptContent elem children progress).draft.cursor.Ends
      (front ++ (heading.before.text ++
        joinPieces (elem.tag.pieces heading.attributes heading.tagEnd))) := by
  intro heading
  rw [(keptContent_draft settings elem children progress).1]
  exact settings.ends_layoutHeading elem children hcourse.sound.1.1 hends

/-- Where the content of an element is laid out, the plan decides as its heading shows, and on the
gap that comes of the content. -/
theorem decision_formatted
    (hcourse : settings.Course plan (.element elem children :: rest) progress) {decision : Decision}
    {attributes : List AttributeLayout} {tagEnd endTag : Gap}
    (hdecision : plan.get? elem.id = some decision)
    (hlayout : decision.layout = .element attributes tagEnd .formatted endTag) :
    let heading := settings.layoutHeading elem.tag children progress
    settings.contentOf elem.tag = .formatted ∧ decision.before = heading.before ∧
      attributes = heading.attributes ∧ tagEnd = heading.tagEnd ∧
        endTag = (settings.layoutEnding heading elem.endTag
          (settings.layoutNodes children
            (settings.keptContent elem children progress))).endTag := by
  intro heading
  obtain ⟨found, rfl, hclosed⟩ := hcourse.decision_element hdecision
  simp only [Layout.element.injEq] at hlayout
  obtain ⟨hattributes, htagEnd, hcontent, hfound⟩ := hlayout
  exact ⟨hcontent, rfl, hattributes.symm, htagEnd.symm, hfound.symm.trans (hclosed hcontent)⟩

end Settings.Course

/-! ## Where planning is at a spot -/

section Comes

variable {settings : Settings} {plan : Plan} {nodes : List Node} {progress : Progress} {spot : Spot}
  {cursor : Cursor} {written : List Char}

/-- At each spot that planning comes to, it is where the text ends that is written up to there. -/
theorem Settings.Comes.stands (hcomes : settings.Comes plan nodes progress spot cursor written) :
    ∀ {front : List Char}, settings.Course plan nodes progress →
      progress.draft.cursor.Ends front → cursor.Stands (front ++ written) := by
  induction hcomes with
  | before hdecision =>
      intro front hcourse hends
      obtain ⟨decision, hfound, hmade⟩ := hcourse.exists_decidedAt
      obtain rfl := Option.some.inj (hdecision.symm.trans hfound)
      exact hends.stands.skip hmade.blank hmade.feeds
  | behind hrender =>
      intro front hcourse hends
      obtain ⟨pieces, hpieces, hbehind⟩ := hcourse.ends_head hends
      obtain rfl := Except.ok.inj (hrender.symm.trans hpieces)
      exact hbehind.stands
  | later hrender _ ih =>
      intro front hcourse hends
      obtain ⟨pieces, hpieces, hbehind⟩ := hcourse.ends_head hends
      obtain rfl := Except.ok.inj (hrender.symm.trans hpieces)
      rw [← List.append_assoc]
      exact ih hcourse.tail hbehind
  | inside hdecision hlayout _ ih =>
      intro front hcourse hends
      obtain ⟨hcontent, hbefore, hattributes, htagEnd, -⟩ :=
        hcourse.decision_formatted hdecision hlayout
      rw [hbefore, hattributes, htagEnd]
      simpa using ih (hcourse.content hcontent) (hcourse.ends_content hends)
  | @closing elem children rest progress _ _ _ _ pieces hdecision hlayout _ hrender =>
      intro front hcourse hends
      obtain ⟨hcontent, hbefore, hattributes, htagEnd, hending⟩ :=
        hcourse.decision_formatted hdecision hlayout
      have hinside := hcourse.content hcontent
      obtain ⟨inner, hinner, hbehind⟩ := hinside.ends (hcourse.ends_content hends)
      obtain rfl := Except.ok.inj (hrender.symm.trans hinner)
      -- the gap in front of the end tag comes of the content as it is laid out for good
      obtain ⟨hblank, hfeeds⟩ := settings.blank_layoutEnding
        (settings.layoutHeading elem.tag children progress) elem.endTag hinside.blank
      rw [← hending] at hblank hfeeds
      have hskips := hbehind.stands.skip hblank hfeeds
      rw [hbefore, hattributes, htagEnd]
      simpa using hskips

/-! ## The text up to a spot -/

/-- What the plan writes of an element whose content is laid out. -/
theorem Plan.exists_inner_of_render {elem : Element} {children : List Node} {decision : Decision}
    {attributes : List AttributeLayout} {tagEnd endTag : Gap} {pieces : List OutputPiece}
    (hdecision : plan.get? elem.id = some decision)
    (hlayout : decision.layout = .element attributes tagEnd .formatted endTag)
    (hrender : plan.render (.element elem children) = .ok pieces) :
    ∃ inner, plan.renderAll children = .ok inner ∧ pieces = decision.before.pieces ++
      (elem.tag.pieces attributes tagEnd ++
        ((inner ++ endPieces elem.endTag endTag) ++ decision.after.pieces)) := by
  rw [Plan.render, hdecision] at hrender
  simp only [hlayout] at hrender
  split at hrender
  next => cases hrender
  next =>
    obtain ⟨inside, hinside, hpieces⟩ := bind_eq_ok_iff.mp hrender
    obtain ⟨inner, hinner, hended⟩ := bind_eq_ok_iff.mp hinside
    cases hended
    cases hpieces
    exact ⟨inner, hinner, rfl⟩

/-- What is written up to a spot is the beginning of all that is written. -/
theorem Settings.Comes.isPrefix (hcomes : settings.Comes plan nodes progress spot cursor written) :
    ∀ {pieces : List OutputPiece}, plan.renderAll nodes = .ok pieces →
      written <+: joinPieces pieces := by
  induction hcomes with
  | before hdecision =>
      intro pieces hrender
      obtain ⟨first, others, hfirst, -, rfl⟩ := Plan.renderAll_cons_eq_ok_iff.mp hrender
      rw [Plan.render_of_decision hdecision] at hfirst
      obtain ⟨inside, -, rfl⟩ := map_eq_ok_iff.mp hfirst
      rw [joinPieces_append, joinPieces_append, Gap.joinPieces_pieces, List.append_assoc]
      exact List.prefix_append _ _
  | behind hrender =>
      intro pieces hall
      obtain ⟨first, others, hfirst, -, rfl⟩ := Plan.renderAll_cons_eq_ok_iff.mp hall
      obtain rfl := Except.ok.inj (hrender.symm.trans hfirst)
      rw [joinPieces_append]
      exact List.prefix_append _ _
  | later hrender _ ih =>
      intro pieces hall
      obtain ⟨first, others, hfirst, hothers, rfl⟩ := Plan.renderAll_cons_eq_ok_iff.mp hall
      obtain rfl := Except.ok.inj (hrender.symm.trans hfirst)
      rw [joinPieces_append]
      exact List.prefix_append_right_inj _ |>.mpr (ih hothers)
  | inside hdecision hlayout _ ih =>
      intro pieces hall
      obtain ⟨first, others, hfirst, -, rfl⟩ := Plan.renderAll_cons_eq_ok_iff.mp hall
      obtain ⟨inner, hinner, rfl⟩ := plan.exists_inner_of_render hdecision hlayout hfirst
      obtain ⟨more, hmore⟩ := ih hinner
      simp only [joinPieces_append, Gap.joinPieces_pieces, ← hmore, List.append_assoc]
      simp only [List.prefix_append_right_inj, List.prefix_append]
  | closing hdecision hlayout hclosed hrender =>
      intro pieces hall
      obtain ⟨first, others, hfirst, -, rfl⟩ := Plan.renderAll_cons_eq_ok_iff.mp hall
      obtain ⟨inner, hinner, rfl⟩ := plan.exists_inner_of_render hdecision hlayout hfirst
      obtain rfl := Except.ok.inj (hrender.symm.trans hinner)
      obtain ⟨close, hclose⟩ := Option.ne_none_iff_exists'.mp hclosed
      rw [hclose, endPieces]
      simp only [joinPieces_append, Gap.joinPieces_pieces, List.append_assoc]
      simp only [List.prefix_append_right_inj, List.prefix_append]

/-- The indent that the plan has for what begins at a spot, where planning is there: for a node that
cannot be laid out and for an element that begins its line, it is the column. -/
def Plan.Indents (plan : Plan) (cursor : Cursor) (spot : Spot) : Prop :=
  ∀ node decision, spot = .before node → plan.get? node.id = some decision →
    (decision.layout = .atom → decision.indent = cursor.column) ∧
      ∀ elem children, node = .element elem children → cursor.blank = true →
        decision.indent = cursor.column

theorem Settings.Comes.indents (hcomes : settings.Comes plan nodes progress spot cursor written) :
    settings.Course plan nodes progress → plan.Indents cursor spot := by
  induction hcomes with
  | before hdecision =>
      rintro hcourse node decision ⟨⟩ hsome
      obtain ⟨found, hfound, hmade⟩ := hcourse.exists_decidedAt
      obtain rfl := Option.some.inj (hdecision.symm.trans hsome)
      obtain rfl := Option.some.inj (hdecision.symm.trans hfound)
      exact ⟨hmade.atom, hmade.element⟩
  | behind _ =>
      intro _ node decision hspot
      cases hspot
  | later _ _ ih => exact fun hcourse => ih hcourse.tail
  | inside hdecision hlayout _ ih =>
      intro hcourse
      exact ih (hcourse.content (hcourse.decision_formatted hdecision hlayout).1)
  | closing _ _ _ _ =>
      intro _ node decision hspot
      cases hspot

end Comes

/-! ## Every spot is come to -/

/-- The end tag of an element that is laid out. -/
def Node.closings (node : Node) (decision : Decision) : List Spot :=
  match node, decision.layout with
  | .element elem _, .element _ _ .formatted _ =>
      if elem.endTag.isSome then [.closing elem] else []
  | _, _ => []

/-- The spots of a node that has been decided about. -/
def Node.spots (node : Node) (decision : Decision) : List Spot :=
  .before node :: .behind node :: node.closings decision

theorem Node.exists_of_mem_closings {node : Node} {decision : Decision} {spot : Spot}
    (hmem : spot ∈ node.closings decision) :
    ∃ elem children attributes tagEnd endTag, node = .element elem children ∧
      decision.layout = .element attributes tagEnd .formatted endTag ∧ elem.endTag ≠ none ∧
        spot = .closing elem := by
  unfold closings at hmem
  split at hmem
  next elem children attributes tagEnd endTag hlayout =>
    split at hmem
    next hclosed =>
      exact ⟨elem, children, attributes, tagEnd, endTag, rfl, hlayout,
        Option.isSome_iff_ne_none.mp hclosed, List.mem_singleton.mp hmem⟩
    next => cases hmem
  next => cases hmem

namespace Settings

variable {settings : Settings} {plan : Plan} {rest children : List Node} {node inner : Node}
  {elem : Element} {progress : Progress}

/-- On the way through nodes, planning comes to this one, and from there to its spots. -/
def ComesTo (settings : Settings) (plan : Plan) (nodes : List Node) (progress : Progress)
    (inner : Node) : Prop :=
  ∃ rest there, settings.Course plan (inner :: rest) there ∧
    (∃ front, there.draft.cursor.Ends front) ∧
      ∀ {spot cursor written}, settings.Comes plan (inner :: rest) there spot cursor written →
        ∃ whole, settings.Comes plan nodes progress spot cursor whole

theorem ComesTo.here (hcourse : settings.Course plan (node :: rest) progress) {front : List Char}
    (hends : progress.draft.cursor.Ends front) :
    settings.ComesTo plan (node :: rest) progress node :=
  ⟨rest, progress, hcourse, ⟨front, hends⟩, fun hcomes => ⟨_, hcomes⟩⟩

theorem ComesTo.later (hcourse : settings.Course plan (node :: rest) progress) {front : List Char}
    (hends : progress.draft.cursor.Ends front)
    (hway : settings.ComesTo plan rest (settings.layoutNode node progress) inner) :
    settings.ComesTo plan (node :: rest) progress inner := by
  obtain ⟨others, there, hthere, hfront, hcomes⟩ := hway
  obtain ⟨pieces, hpieces, -⟩ := hcourse.ends_head hends
  refine ⟨others, there, hthere, hfront, fun hinner => ?_⟩
  obtain ⟨whole, hwhole⟩ := hcomes hinner
  exact ⟨_, .later hpieces hwhole⟩

theorem ComesTo.inside (hcourse : settings.Course plan (.element elem children :: rest) progress)
    (hcontent : settings.contentOf elem.tag = .formatted)
    (hway : settings.ComesTo plan children (settings.keptContent elem children progress) inner) :
    settings.ComesTo plan (.element elem children :: rest) progress inner := by
  obtain ⟨others, there, hthere, hfront, hcomes⟩ := hway
  obtain ⟨decision, hdecision, -⟩ := hcourse.exists_decidedAt
  obtain ⟨endTag, hlayout, -⟩ := hcourse.decision_element hdecision
  refine ⟨others, there, hthere, hfront, fun hinner => ?_⟩
  obtain ⟨whole, hwhole⟩ := hcomes hinner
  exact ⟨_, .inside hdecision (by rw [hlayout, hcontent]) hwhole⟩

mutual

theorem comesTo_node (node : Node) {rest : List Node} {progress : Progress}
    (hcourse : settings.Course plan (node :: rest) progress) {front : List Char}
    (hends : progress.draft.cursor.Ends front) (hmem : inner ∈ node.preorder)
    (hdecided : plan.get? inner.id ≠ none) :
    settings.ComesTo plan (node :: rest) progress inner := by
  cases node with
  | leaf leaf =>
      rw [Node.preorder, List.mem_singleton] at hmem
      rw [hmem]
      exact .here hcourse hends
  | element elem children =>
      rw [Node.preorder] at hmem
      rcases List.mem_cons.mp hmem with hsame | hinside
      · rw [hsame]
        exact .here hcourse hends
      · have hcontent : settings.contentOf elem.tag = .formatted := by
          by_contra hnot
          have hid : inner.id ∈ Node.idsOfAll children := by
            rw [Node.idsOfAll, ← Node.map_id_preorderAll]
            exact List.mem_map_of_mem hinside
          have hne : elem.id ≠ inner.id := fun hsame => hcourse.nodup_element.1 (hsame ▸ hid)
          refine hdecided ?_
          rw [hcourse.head.plan inner.id (by simp [hid])]
          exact (Course.get?_layoutNode_outside settings hne hnot).trans
            (hcourse.open_ inner.id (by simp [hid]))
        exact .inside hcourse hcontent (comesTo_nodes children (hcourse.content hcontent)
          (hcourse.ends_content hends) hinside hdecided)

/-- Planning comes to every node that has been decided about. -/
theorem comesTo_nodes (nodes : List Node) {progress : Progress}
    (hcourse : settings.Course plan nodes progress) {front : List Char}
    (hends : progress.draft.cursor.Ends front) (hmem : inner ∈ Node.preorderAll nodes)
    (hdecided : plan.get? inner.id ≠ none) : settings.ComesTo plan nodes progress inner := by
  cases nodes with
  | nil => cases hmem
  | cons node rest =>
      rw [Node.preorderAll] at hmem
      rcases List.mem_append.mp hmem with hfirst | hlater
      · exact comesTo_node node hcourse hends hfirst hdecided
      · obtain ⟨pieces, -, hbehind⟩ := hcourse.ends_head hends
        exact .later hcourse hends (comesTo_nodes rest hcourse.tail hbehind hlater hdecided)

end

/-- Planning comes to every spot of a node that has been decided about. -/
theorem Course.exists_comes {nodes : List Node} (hcourse : settings.Course plan nodes progress)
    {front : List Char} (hends : progress.draft.cursor.Ends front)
    (hmem : inner ∈ Node.preorderAll nodes) {decision : Decision}
    (hdecision : plan.get? inner.id = some decision) {spot : Spot}
    (hspot : spot ∈ inner.spots decision) :
    ∃ cursor written, settings.Comes plan nodes progress spot cursor written := by
  have hdecided : plan.get? inner.id ≠ none := by simp [hdecision]
  obtain ⟨rest, there, hthere, ⟨before, hbefore⟩, hcomes⟩ :=
    comesTo_nodes nodes hcourse hends hmem hdecided
  -- the spots are those of the first node there, whatever way has led to it
  have hfirst : ∃ cursor written,
      settings.Comes plan (inner :: rest) there spot cursor written := by
    rw [Node.spots, List.mem_cons, List.mem_cons] at hspot
    rcases hspot with rfl | rfl | hclosing
    · exact ⟨_, _, .before hdecision⟩
    · obtain ⟨pieces, hpieces, -⟩ := hthere.ends_head hbefore
      exact ⟨_, _, .behind hpieces⟩
    · obtain ⟨elem, children, attributes, tagEnd, endTag, rfl, hlayout, hclosed, rfl⟩ :=
        Node.exists_of_mem_closings hclosing
      have hcontent := (hthere.decision_formatted hdecision hlayout).1
      obtain ⟨pieces, hpieces, -⟩ := (hthere.content hcontent).ends (hthere.ends_content hbefore)
      exact ⟨_, _, .closing hdecision hlayout hclosed hpieces⟩
  obtain ⟨cursor, written, hfound⟩ := hfirst
  obtain ⟨whole, hwhole⟩ := hcomes hfound
  exact ⟨cursor, whole, hwhole⟩

/-! ## Whole documents -/

/-- The start of planning a document. -/
def planningStart (document : Document) : Progress :=
  ⟨Draft.start .origin document.count, Flow.start 0 (.start false), []⟩

theorem course_document (settings : Settings) {text : List Char} {document : Document}
    (hparse : parse text = .ok document) :
    settings.Course (settings.layoutDocument document) document.children
      (planningStart document) := by
  refine ⟨Document.legible_of_parse hparse, Document.sound_of_parse hparse,
    Document.nodup_ids_of_parse hparse, ?_, rfl, ?_, fun _ _ => rfl⟩
  · intro id hmem
    rw [Document.ids_of_parse hparse, List.mem_range] at hmem
    simpa [planningStart, Draft.start, Plan.empty] using hmem
  · intro id hmem
    rw [Document.ids_of_parse hparse, List.mem_range] at hmem
    simp [planningStart, Draft.start, Plan.empty, Plan.get?, hmem]

end Settings

/-- Formatting a text that can be read, under settings that are accepted, gives a result, and
planning keeps to it: at each spot that it comes to, its column is the number of characters behind
the last line feed of what is written up to there, it has counted the line feeds of that, and it
takes the line for blank exactly if the line is. What cannot be laid out has the column that it
begins at for its indent, and so has an element that begins its line. Planning comes to all spots of
each node that it decides about. -/
theorem format_course {settings : Settings} {text : String} {document : Document}
    (hcheck : settings.check = .ok ()) (hparse : parse text.toList = .ok document) :
    let plan := settings.layoutDocument document
    let comes := settings.Comes plan document.children (Settings.planningStart document)
    ∃ output, format .plain settings text none = .ok output ∧
      (∀ spot cursor written, comes spot cursor written →
        written <+: output.toList ∧ cursor.column = (lastLine written).length ∧
          cursor.lines = newlines written ∧ cursor.blank = allBlank (lastLine written) ∧
            plan.Indents cursor spot) ∧
        ∀ node ∈ Node.preorderAll document.children, ∀ decision, plan.get? node.id = some decision →
          ∀ spot ∈ node.spots decision, ∃ cursor written, comes spot cursor written := by
  intro plan comes
  have hcourse := settings.course_document hparse
  -- nothing has been written at the start
  have hends : (Settings.planningStart document).draft.cursor.Ends [] := ⟨rfl, rfl, .inl ⟨rfl, rfl⟩⟩
  obtain ⟨pieces, hpieces, -⟩ := hcourse.ends hends
  have hrender : plan.renderDocument document = .ok (pieces ++ plan.ending.pieces) := by
    rw [Plan.renderDocument, hpieces]
    rfl
  have hplan : settings.plan document none = .ok plan := by
    simp only [Settings.plan, hcheck]
    rfl
  have hformat := @format_eq_ok .plain _ _ _ _ _ _ hcheck hparse hplan hrender
  refine ⟨_, hformat, fun spot cursor written hcomes => ?_,
    fun node hmem decision hdecision spot hspot => hcourse.exists_comes hends hmem hdecision hspot⟩
  obtain ⟨hcolumn, hlines, hblank⟩ := hcomes.stands hcourse hends
  refine ⟨?_, hcolumn, hlines, hblank, hcomes.indents hcourse⟩
  rw [String.toList_ofList, Palette.render_plain, joinPieces_append]
  exact (hcomes.isPrefix hpieces).trans (List.prefix_append _ _)

/-- A paragraph that turns out too tall to have its children indented: planning comes to the comment
in it with the indent of the second layout. -/
theorem format_course_flush :
    let settings : Settings := { heightLimit := 1 }
    let text := "<p>\n<!--c-->x\ny</p>"
    let output := "<p>\n<!--c-->x\ny\n</p>"
    settings.check = .ok () ∧ ∃ document comment cursor written,
      parse text.toList = .ok document ∧ format .plain settings text none = .ok output ∧
        comment ∈ Node.preorderAll document.children ∧ comment.text = "<!--c-->".toList ∧
          settings.Comes (settings.layoutDocument document) document.children
            (Settings.planningStart document) (.before comment) cursor written ∧
          written <+: output.toList ∧ cursor.column = 0 ∧ (lastLine written).length = 0 ∧
            cursor.lines = newlines written ∧ cursor.blank = allBlank (lastLine written) := by
  intro settings text output
  have hcheck : settings.check = .ok () := by with_unfolding_all rfl
  have hread : (parse text.toList).toOption.map (fun document =>
      ((Node.preorderAll document.children)[2]?.map fun node => (node.id, node.text),
        (settings.layoutDocument document).get? 2)) =
      some (some (2, "<!--c-->".toList), some ⟨.lineBreak 1 0, .nothing, 0, .atom⟩) := by
    decide +kernel
  obtain ⟨document, hdocument, hfacts⟩ := Option.map_eq_some_iff.mp hread
  obtain ⟨hnode, hdecision⟩ := Prod.mk.inj hfacts
  obtain ⟨comment, hcomment, hpair⟩ := Option.map_eq_some_iff.mp hnode
  obtain ⟨hid, htext⟩ := Prod.mk.inj hpair
  have hparse := toOption_eq_some_iff.mp hdocument
  have hformat : format .plain settings text none = .ok output := by
    rw [← toOption_eq_some_iff]
    decide +kernel
  obtain ⟨found, hfound, hstands, hcomes⟩ := format_course hcheck hparse
  obtain rfl : found = output := Except.ok.inj (hfound.symm.trans hformat)
  have hmem := List.mem_of_getElem? hcomment
  rw [← hid] at hdecision
  obtain ⟨cursor, written, hcome⟩ := hcomes comment hmem _ hdecision (.before comment)
    List.mem_cons_self
  obtain ⟨hbegins, hcolumn, hlines, hblank, hindents⟩ := hstands _ _ _ hcome
  have hindent : 0 = cursor.column := (hindents comment _ rfl hdecision).1 rfl
  exact ⟨hcheck, document, comment, cursor, written, hparse, hformat, hmem, htext, hcome, hbegins,
    hindent.symm, hcolumn.symm.trans hindent.symm, hlines, hblank⟩

end Markup
