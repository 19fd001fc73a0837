import Markup.Plan.Nodes

/-!
# Planning goes ahead

Planning never goes back to a line that it has ended, except that content which is laid out again
begins where it began before: the height of an element, taken as the number of lines that have been
ended behind its content less the number of those in front of its start tag, is never below zero.
And no anchor is set on the way, so that blanks are reproduced in front of the first item at most.
Main statement: `Settings.ahead_layoutNodes`.
-/

namespace Markup

open Markup.Text

/-- A position that is reached from another one by laying something out. -/
structure Cursor.Ahead (before after : Cursor) : Prop where
  lines : before.lines ≤ after.lines
  anchored : before.anchored = false → after.anchored = false

namespace Cursor

theorem Ahead.refl (cursor : Cursor) : cursor.Ahead cursor :=
  ⟨Nat.le_refl _, fun hfree => hfree⟩

theorem Ahead.trans {before between after : Cursor} (hfirst : before.Ahead between)
    (hsecond : between.Ahead after) : before.Ahead after :=
  ⟨Nat.le_trans hfirst.lines hsecond.lines, fun hfree => hsecond.anchored (hfirst.anchored hfree)⟩

theorem ahead_skip (cursor : Cursor) (gap : Gap) : cursor.Ahead (cursor.skip gap) := by
  cases gap with
  | nothing => exact .refl _
  | space => exact ⟨Nat.le_refl _, fun hfree => hfree⟩
  | lineBreak newlines indent => exact ⟨Nat.le_add_right _ _, fun hfree => hfree⟩
  | kept text => exact ⟨Nat.le_add_right _ _, fun hfree => hfree⟩

theorem ahead_place (cursor : Cursor) (width : Nat) : cursor.Ahead (cursor.place width) :=
  ⟨Nat.le_refl _, fun hfree => hfree⟩

theorem ahead_write (cursor : Cursor) (text : List Char) : cursor.Ahead (cursor.write text) := by
  cases text with
  | nil => exact .refl _
  | cons c rest => exact ⟨Nat.le_add_right _ _, fun hfree => hfree⟩

end Cursor

namespace Settings

variable (settings : Settings)

open Cursor (Ahead ahead_skip ahead_place ahead_write)

theorem ahead_separate (cursor : Cursor) (flow : Flow) (blanks : List Char) (next : Following)
    (width : Nat) : cursor.Ahead (settings.separate cursor flow blanks next width).2.1 := by
  unfold separate
  split
  next => exact .refl _
  next =>
    split
    next =>
      have hloose : cursor.Ahead { cursor with anchored := false } := ⟨Nat.le_refl _, fun _ => rfl⟩
      exact hloose.trans (ahead_skip _ _)
    next => exact ahead_skip cursor _

/-! ## Texts and start tags -/

theorem ahead_placeWords (continuation : Nat) (breaks : List Nat) (index : Nat) (cursor : Cursor)
    (widths : List Nat) :
    cursor.Ahead (placeWords continuation breaks index cursor widths).2.1 := by
  induction widths generalizing index cursor with
  | nil => exact .refl _
  | cons width rest ih =>
      have hgap :=
        ahead_skip cursor (if breaks.contains index then .lineBreak 1 continuation else .space)
      exact (hgap.trans (ahead_place _ width)).trans (ih (index + 1) _)

theorem ahead_layoutWords (continuation : Nat) (cursor : Cursor) (first : Nat)
    (rest : List (List Char × Nat)) :
    cursor.Ahead (settings.layoutWords continuation cursor first rest).2.1 := by
  fun_induction layoutWords settings continuation cursor first rest with
  | case1 cursor first rest soft widths breaks gaps after broken hplaced hrest =>
      have hsegment := ahead_placeWords continuation breaks 1 (cursor.place first) widths
      rw [hplaced] at hsegment
      exact (ahead_place cursor first).trans hsegment
  | case2 cursor first rest soft widths breaks gaps after broken hplaced blanks width more hrest gap
      others final later hothers ih =>
      have hsegment := ahead_placeWords continuation breaks 1 (cursor.place first) widths
      rw [hplaced] at hsegment
      rw [hothers] at ih
      exact (ahead_place cursor first).trans (hsegment.trans ((ahead_skip after gap).trans ih))

theorem ahead_writeAttribute (cursor : Cursor) (attr : Attribute) (quote : Option Quote) :
    cursor.Ahead (writeAttribute cursor attr quote) := by
  unfold writeAttribute
  have hname := ahead_write cursor attr.name
  split
  next => exact hname
  next value hvalue =>
    have hquoted := (ahead_place (cursor.write attr.name) 1).trans
      (ahead_place _ (quoteText quote).length)
    exact (hname.trans hquoted).trans ((ahead_write _ value.raw).trans (ahead_place _ _))

theorem ahead_layoutAttribute (cursor : Cursor) (attr : Attribute) (broken : Bool) (aligned : Nat) :
    cursor.Ahead (settings.layoutAttribute cursor attr broken aligned).2 :=
  (ahead_skip cursor _).trans (ahead_writeAttribute _ _ _)

theorem ahead_layoutFurther (wrapped : Bool) (aligned : Nat) (cursor : Cursor)
    (attributes : List Attribute) :
    cursor.Ahead (settings.layoutFurther wrapped aligned cursor attributes).2 := by
  induction attributes generalizing cursor with
  | nil => exact .refl _
  | cons attr rest ih => exact (settings.ahead_layoutAttribute cursor attr _ aligned).trans (ih _)

theorem ahead_layoutAttributes (wrapped : Bool) (indent : Nat) (cursor : Cursor)
    (attributes : List Attribute) :
    cursor.Ahead (settings.layoutAttributes wrapped indent cursor attributes).2 := by
  cases attributes with
  | nil => exact .refl _
  | cons attr rest =>
      exact (settings.ahead_layoutAttribute cursor attr _ _).trans
        (settings.ahead_layoutFurther wrapped _ _ rest)

theorem ahead_layoutStartTag (tag : StartTag) (indent : Nat) (cursor : Cursor) :
    cursor.Ahead (settings.layoutStartTag tag indent cursor).2.2 :=
  ((ahead_place cursor _).trans (settings.ahead_layoutAttributes _ indent _ tag.attributes)).trans
    ((ahead_skip _ (settings.tagEndGap tag indent)).trans (ahead_place _ tag.ending.text.length))

/-! ## Nodes -/

theorem ahead_layoutLeaf (leaf : Leaf) (progress : Progress) :
    progress.draft.cursor.Ahead (settings.layoutLeaf leaf progress).draft.cursor := by
  have hatom : ∀ kind, progress.draft.cursor.Ahead
      (settings.layoutAtom leaf kind progress).draft.cursor := fun kind =>
    (settings.ahead_separate _ _ _ kind _).trans (ahead_write _ leaf.raw)
  unfold layoutLeaf
  split
  next =>
    unfold layoutText
    split
    next => exact .refl _
    next =>
      exact (settings.ahead_separate _ _ _ .inline _).trans (settings.ahead_layoutWords _ _ _ _)
  next => exact hatom .comment
  next => exact hatom .inline
  next => exact hatom .block

/-- The number of lines that is noted in front of a start tag. -/
theorem lines_layoutHeading (tag : StartTag) (children : List Node) (progress : Progress) :
    progress.draft.cursor.lines ≤ (settings.layoutHeading tag children progress).lines ∧
      (settings.layoutHeading tag children progress).lines ≤
        (settings.layoutHeading tag children progress).draft.cursor.lines :=
  ⟨(settings.ahead_separate _ _ _ _ _).lines, (settings.ahead_layoutStartTag tag _ _).lines⟩

theorem ahead_layoutHeading (tag : StartTag) (children : List Node) (progress : Progress) :
    progress.draft.cursor.Ahead (settings.layoutHeading tag children progress).draft.cursor :=
  (settings.ahead_separate _ _ _ _ _).trans (settings.ahead_layoutStartTag tag _ _)

theorem ahead_layoutEnding (heading : Heading) (endTag : Option EndTag) (inner : Progress) :
    inner.draft.cursor.Ahead (settings.layoutEnding heading endTag inner).draft.cursor := by
  cases endTag with
  | none => exact .refl _
  | some tag => exact (ahead_skip inner.draft.cursor _).trans (ahead_place _ _)

theorem ahead_layoutBody (id : Nat) (name : List Char) (heading : Heading)
    {content : Nat → Draft → Body}
    (hcontent : ∀ indent (draft : Draft), draft.cursor.Ahead (content indent draft).draft.cursor) :
    heading.draft.cursor.Ahead
      (settings.layoutBody id name heading content).draft.cursor := by
  have hagain : ∀ short, heading.draft.cursor.Ahead
      (content heading.indent { heading.draft with short := short }).draft.cursor :=
    fun short => hcontent heading.indent { heading.draft with short := short }
  unfold layoutBody
  dsimp only
  split
  next =>
    split
    next => exact hcontent _ _
    next => exact hcontent _ _
    next =>
      split
      next => exact hcontent _ heading.draft
      next => exact hagain _
  next => exact hcontent _ _

mutual

theorem ahead_layoutNode (node : Node) (progress : Progress) :
    progress.draft.cursor.Ahead (settings.layoutNode node progress).draft.cursor := by
  cases node with
  | leaf leaf =>
      rw [layoutNode]
      exact settings.ahead_layoutLeaf leaf progress
  | element elem children =>
      have hheading := settings.ahead_layoutHeading elem.tag children progress
      rw [layoutNode]
      split
      next => exact hheading
      next => exact hheading.trans (ahead_write _ _)
      next =>
        refine hheading.trans (settings.ahead_layoutBody elem.id elem.name _ ?_)
        intro indent draft
        have hchildren := ahead_layoutNodes children
          ⟨draft, Flow.start indent
            (.start (settings.layoutHeading elem.tag children progress).block), []⟩
        exact hchildren.trans (settings.ahead_layoutEnding _ _ _)

/-- Laying out nodes ends lines and takes none back, and sets no anchor. -/
theorem ahead_layoutNodes (nodes : List Node) (progress : Progress) :
    progress.draft.cursor.Ahead (settings.layoutNodes nodes progress).draft.cursor := by
  cases nodes with
  | nil => exact .refl _
  | cons node rest =>
      exact (ahead_layoutNode node progress).trans (ahead_layoutNodes rest _)

end

end Settings

end Markup
