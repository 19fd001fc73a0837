import Markup.Proofs.Plan.Arrangement
import Markup.Proofs.Reading.Uniqueness

/-!
# Arranged items stay as they are

Items that have been arranged are arranged the same when they are arranged again. Every gap is
decided anew from the blanks that the first pass left: a line break is kept where line breaks are
kept, and comes about again where they are not. Only the note that a line was broken can be lost on
the way, and no gap depends on it that was not a line break before. Main statement:
`Settings.arrangeAll_again`.
-/

namespace Markup

open Markup.Text

/-! ## Line breaks -/

namespace Gap

@[simp]
theorem newlines_lineBreak (count indent : Nat) :
    newlines (lineBreak count indent).text = count := by
  simp [newlines, text, List.count_replicate]

@[simp]
theorem isEmpty_lineBreak {count indent : Nat} (hcount : 0 < count) :
    (lineBreak count indent).text.isEmpty = false := by
  obtain ⟨more, rfl⟩ := Nat.exists_eq_succ_of_ne_zero hcount.ne'
  rfl

theorem keep_text_keep (blanks : List Char) : keep (keep blanks).text = keep blanks := by
  rw [text_keep]

end Gap

namespace Settings

variable (settings : Settings)

/-- A line is broken in the second pass only if it was in the first, and is broken again where line
breaks of the source are not kept. -/
def BrokenAgain (first second : Bool) : Prop :=
  (second = true → first = true) ∧ (settings.keepLineBreaks = false → second = first)

theorem BrokenAgain.refl (broken : Bool) : settings.BrokenAgain broken broken :=
  ⟨id, fun _ => rfl⟩

variable {settings} in
theorem BrokenAgain.or {first second other another : Bool}
    (hfirst : settings.BrokenAgain first second) (hother : settings.BrokenAgain other another) :
    settings.BrokenAgain (first || other) (second || another) := by
  refine ⟨fun hbroken => ?_, fun hkeep => by rw [hfirst.2 hkeep, hother.2 hkeep]⟩
  rcases Bool.or_eq_true_iff.mp hbroken with hbroken | hbroken
  · rw [hfirst.1 hbroken, Bool.true_or]
  · rw [hother.1 hbroken, Bool.or_true]

/-! ## Gaps -/

theorem breakGap_one (indent : Nat) : settings.breakGap 1 indent = .lineBreak 1 indent := by
  rw [breakGap, Nat.max_eq_left (Nat.min_le_left 1 _)]

/-- A line break is not taken for more or fewer lines than it has. -/
theorem breakGap_again (lines indent : Nat) :
    settings.breakGap (newlines (settings.breakGap lines indent).text) indent =
      settings.breakGap lines indent := by
  simp only [breakGap, Gap.newlines_lineBreak, Gap.lineBreak.injEq, and_true]
  omega

theorem newlines_breakGap_pos (lines indent : Nat) :
    0 < newlines (settings.breakGap lines indent).text := by
  simp only [breakGap, Gap.newlines_lineBreak]
  omega

theorem isEmpty_breakGap (lines indent : Nat) :
    (settings.breakGap lines indent).text.isEmpty = false :=
  Gap.isEmpty_lineBreak (Nat.le_max_left _ _)

/-- Whether a line break is due between two items whatever the settings are: one of them is a block,
and the next one is no comment that is glued to it. -/
def forces (flow : Flow) (next : Following) (spaced : Bool) : Bool :=
  decide (next = .block) || (flow.preceding == .block && !(next == .comment && !spaced))

/-- Whether the next item does not fit on the line, where the line may be broken in front of it. -/
def overflows (settings : Settings) (cursor : Cursor) (flow : Flow) (spaced : Bool) (width : Nat) :
    Bool :=
  (spaced || flow.preceding == .start true) && settings.wrapsText && !cursor.blank &&
    decide (settings.rightMargin < cursor.column + (if spaced then 1 else 0) + width)

section Between

variable (cursor : Cursor) (flow : Flow) (blanks : List Char) (next : Following) (width : Nat)

theorem gapBetween_eq :
    settings.gapBetween cursor flow blanks next width =
      if forces flow next (!blanks.isEmpty) then
        (settings.breakGap (newlines blanks) flow.indent, false)
      else if decide (0 < newlines blanks) && settings.keepLineBreaks then
        (settings.breakGap (newlines blanks) flow.indent, false)
      else if settings.overflows cursor flow (!blanks.isEmpty) width then
        (.lineBreak 1 flow.indent, true)
      else (if !blanks.isEmpty then .space else .nothing, false) :=
  rfl

/-- With blanks in front, a line break that was due stays due. -/
theorem forces_spaced {spaced : Bool} (hforces : forces flow next spaced = true) :
    forces flow next true = true := by
  unfold forces at *
  simp_all only [Bool.or_eq_true, Bool.and_eq_true, Bool.not_true, Bool.and_false, Bool.not_false,
    and_true]
  exact hforces.imp_right And.left

theorem forces_of_overflows {flow : Flow} {next : Following} {spaced : Bool}
    (hoverflows : settings.overflows cursor flow spaced width = true) :
    forces flow next true = forces flow next spaced := by
  unfold overflows forces at *
  cases spaced with
  | true => rfl
  | false =>
      have hstart : flow.preceding = .start true := by simp_all
      rw [hstart]
      rfl

theorem overflows_spaced {spaced : Bool}
    (hoverflows : settings.overflows cursor flow spaced width = true) :
    settings.overflows cursor flow true width = true := by
  unfold overflows at *
  simp only [Bool.and_eq_true, decide_eq_true_eq] at *
  obtain ⟨⟨⟨-, hwraps⟩, hmidline⟩, hwide⟩ := hoverflows
  refine ⟨⟨⟨by simp, hwraps⟩, hmidline⟩, ?_⟩
  rw [if_true]
  split at hwide <;> omega

/-- A gap between two items is decided the same from what it left of the blanks. -/
theorem gapBetween_again :
    (settings.gapBetween cursor flow (settings.gapBetween cursor flow blanks next width).1.text next
        width).1 = (settings.gapBetween cursor flow blanks next width).1 ∧
      settings.BrokenAgain (settings.gapBetween cursor flow blanks next width).2
        (settings.gapBetween cursor flow (settings.gapBetween cursor flow blanks next width).1.text
          next width).2 := by
  have hlines := settings.newlines_breakGap_pos (newlines blanks) flow.indent
  have hspaced := settings.isEmpty_breakGap (newlines blanks) flow.indent
  have hagain := settings.breakGap_again (newlines blanks) flow.indent
  rw [settings.gapBetween_eq cursor flow blanks next width]
  split
  next hforces =>
    -- a line break that was due is due again
    rw [gapBetween_eq, hspaced, Bool.not_false, if_pos (forces_spaced flow next hforces), hagain]
    exact ⟨rfl, .refl settings false⟩
  next hfree =>
    split
    next hkept =>
      have hkeep := (Bool.and_eq_true_iff.mp hkept).2
      rw [gapBetween_eq, hspaced, hagain]
      simp only [hlines, decide_true, hkeep, Bool.and_self, if_true, ite_self]
      exact ⟨trivial, .refl settings false⟩
    next hlost =>
      split
      next hover =>
        -- a line break that was made is kept, or else made again
        have hwrapped : newlines (Gap.lineBreak 1 flow.indent).text = 1 := by simp
        have hbehind : (Gap.lineBreak 1 flow.indent).text.isEmpty = false := by simp
        rw [gapBetween_eq, hwrapped, hbehind, Bool.not_false,
          settings.forces_of_overflows cursor width hover, if_neg hfree, breakGap_one]
        cases hkeep : settings.keepLineBreaks with
        | true => simp [BrokenAgain, hkeep]
        | false =>
            rw [Bool.and_false, if_neg Bool.false_ne_true,
              if_pos (settings.overflows_spaced cursor flow width hover)]
            exact ⟨rfl, .refl settings true⟩
      next hfits =>
        cases hblanks : blanks.isEmpty with
        | true =>
            obtain rfl : blanks = [] := List.isEmpty_iff.mp hblanks
            have hsame : settings.gapBetween cursor flow Gap.nothing.text next width =
                (.nothing, false) := by
              rw [Gap.text, gapBetween_eq, if_neg hfree, if_neg hlost, if_neg hfits]
              rfl
            simp only [Bool.not_true, Bool.false_eq_true, if_false, hsame]
            exact ⟨trivial, .refl settings false⟩
        | false =>
            rw [hblanks] at hfree hfits
            have hsame : settings.gapBetween cursor flow Gap.space.text next width =
                (.space, false) := by
              rw [Gap.text, gapBetween_eq, List.isEmpty_cons, if_neg hfree, if_neg hfits]
              rfl
            simp only [Bool.not_false, if_true, hsame]
            exact ⟨trivial, .refl settings false⟩

end Between

/-! ## Flows -/

/-- The second pass is where the first one was, up to the note that a line was broken. -/
structure FlowAgain (settings : Settings) (first second : Flow) : Prop where
  indent : second.indent = first.indent
  preceding : second.preceding = first.preceding
  blocks : second.blocks = first.blocks
  broken : settings.BrokenAgain first.broken second.broken

variable {settings}

theorem FlowAgain.refl (flow : Flow) : settings.FlowAgain flow flow :=
  ⟨rfl, rfl, rfl, .refl settings _⟩

theorem FlowAgain.break {first second : Flow} (hagain : settings.FlowAgain first second)
    {broken another : Bool} (hbroken : settings.BrokenAgain broken another) :
    settings.FlowAgain { first with broken := first.broken || broken }
      { second with broken := second.broken || another } :=
  ⟨hagain.indent, hagain.preceding, hagain.blocks, hagain.broken.or hbroken⟩

theorem FlowAgain.follow {first second : Flow} (hagain : settings.FlowAgain first second)
    (kind : Following) : settings.FlowAgain (first.follow kind) (second.follow kind) := by
  cases kind with
  | block => exact ⟨hagain.indent, rfl, rfl, hagain.broken⟩
  | inline => exact ⟨hagain.indent, rfl, hagain.blocks, hagain.broken⟩
  | comment => exact ⟨hagain.indent, rfl, hagain.blocks, hagain.broken⟩

theorem FlowAgain.gapBetween {first second : Flow} (hagain : settings.FlowAgain first second)
    (cursor : Cursor) (blanks : List Char) (next : Following) (width : Nat) :
    settings.gapBetween cursor second blanks next width =
      settings.gapBetween cursor first blanks next width := by
  unfold Settings.gapBetween
  rw [hagain.indent, hagain.preceding]

/-- The gap in front of an item is decided again as it was. -/
theorem FlowAgain.separate {first second : Flow} (hagain : settings.FlowAgain first second)
    (cursor : Cursor) (blanks : List Char) (next : Following) (width : Nat) :
    let found := settings.separate cursor first blanks next width
    let again := settings.separate cursor second found.1.text next width
    again.1 = found.1 ∧ again.2.1 = found.2.1 ∧ settings.FlowAgain found.2.2 again.2.2 := by
  intro found again
  simp only [found, again]
  unfold Settings.separate
  split
  next hfresh => exact ⟨rfl, rfl, hagain⟩
  next hbegun =>
    split
    next hkeeps =>
      simp only [Gap.keep_text_keep]
      exact ⟨trivial, trivial, hagain⟩
    next hdecides =>
      obtain ⟨hgap, hbroken⟩ := settings.gapBetween_again cursor first blanks next width
      dsimp only
      rw [hagain.gapBetween, hgap]
      exact ⟨rfl, rfl, hagain.break hbroken⟩

theorem closingGap_eq (hkeeps : settings.keepWhitespaces = false) (inner : Flow)
    (blanks : List Char) (indent : Nat) (ownLine block : Bool) :
    settings.closingGap inner blanks indent ownLine block =
      if ownLine && (inner.blocks || inner.broken) then settings.breakGap (newlines blanks) indent
      else if decide (0 < newlines blanks) && settings.keepLineBreaks then
        settings.breakGap (newlines blanks) indent
      else if !blanks.isEmpty && !block then .space
      else .nothing := by
  simp only [closingGap, hkeeps, Bool.false_eq_true, if_false]

/-- The gap in front of an end tag is decided again as it was. -/
theorem FlowAgain.closingGap {first second : Flow} (hagain : settings.FlowAgain first second)
    (blanks : List Char) (indent : Nat) (ownLine block : Bool) :
    settings.closingGap second (settings.closingGap first blanks indent ownLine block).text indent
      ownLine block = settings.closingGap first blanks indent ownLine block := by
  cases hkeeps : settings.keepWhitespaces with
  | true => simp only [Settings.closingGap, hkeeps, if_true, Gap.keep_text_keep]
  | false =>
      have hlines := settings.newlines_breakGap_pos (newlines blanks) indent
      rw [closingGap_eq hkeeps first blanks]
      split
      next hforced =>
        rw [closingGap_eq hkeeps, settings.breakGap_again]
        split
        next => rfl
        next hlost =>
          -- the note is lost only where line breaks are kept
          have hkeep : settings.keepLineBreaks = true := by
            by_contra hkeep
            rw [hagain.blocks, hagain.broken.2 (by simpa using hkeep)] at hlost
            exact hlost hforced
          rw [if_pos (by simp [hlines, hkeep])]
      next hfree =>
        have hstill : ¬(ownLine && (second.blocks || second.broken)) = true := by
          rw [hagain.blocks]
          simp only [Bool.and_eq_true, Bool.or_eq_true, not_and, not_or] at hfree ⊢
          exact fun hown =>
            ⟨(hfree hown).1, fun hbroken => (hfree hown).2 (hagain.broken.1 hbroken)⟩
        rw [closingGap_eq hkeeps, if_neg hstill]
        split
        next hkept =>
          have hkeep := (Bool.and_eq_true_iff.mp hkept).2
          rw [if_pos (by simp [hlines, hkeep]), settings.breakGap_again]
        next hlost =>
          split
          next hspaced =>
            have hblock := (Bool.and_eq_true_iff.mp hspaced).2
            simp [Gap.text, newlines, hblock]
          next => simp [Gap.text, newlines]

/-! ## Words -/

/-- The gap in front of a word is decided again as it was. -/
theorem wordGap_again (continuation : Nat) (cursor : Cursor) (blanks : List Char) (width : Nat) :
    settings.wordGap continuation cursor (settings.wordGap continuation cursor blanks width).1.text
      width = settings.wordGap continuation cursor blanks width := by
  cases hkeeps : settings.keepWhitespaces with
  | true => simp [wordGap, isSoft, hardGap, hkeeps, Gap.text]
  | false =>
      by_cases hsoft : settings.isSoft blanks = true
      · by_cases hover : (settings.wrapsText &&
            decide (settings.rightMargin < cursor.column + 1 + width)) = true
        · -- a line break that was made is kept, or else made again
          have hfound : settings.wordGap continuation cursor blanks width =
              (.lineBreak 1 continuation, true) := by
            rw [wordGap, if_pos hsoft, if_pos hover]
          rw [hfound]
          cases hbreaks : settings.keepLineBreaksInText with
          | true =>
              have hhard : settings.isSoft (Gap.lineBreak 1 continuation).text = false := by
                simp [isSoft, hbreaks]
              simp [wordGap, hhard, hardGap, hkeeps, breakGap_one]
          | false =>
              have hagain : settings.isSoft (Gap.lineBreak 1 continuation).text = true := by
                simp [isSoft, hkeeps, hbreaks]
              rw [wordGap, if_pos hagain, if_pos hover]
        · have hspace : settings.isSoft Gap.space.text = true := by
            simp [isSoft, hkeeps, Gap.text, newlines]
          simp only [wordGap, if_pos hsoft, if_neg hover, if_pos hspace]
      · have hbreaks : settings.keepLineBreaksInText = true := by
          simp_all [isSoft]
        have hlines := settings.newlines_breakGap_pos (newlines blanks) continuation
        have hhard : settings.isSoft (settings.breakGap (newlines blanks) continuation).text =
            false := by
          simp [isSoft, hbreaks, hlines]
        simp [wordGap, hsoft, hhard, hardGap, hkeeps, breakGap_again]

/-- Words with the gaps that they were given. -/
def parted (gaps : List Gap) (rest : List (List Char × List Char)) : List (List Char × List Char) :=
  gaps.zipWith (fun gap parted => (gap.text, parted.2)) rest

theorem parted_parted (gaps : List Gap) (rest : List (List Char × List Char)) :
    parted gaps (parted gaps rest) = parted gaps rest := by
  induction gaps generalizing rest with
  | nil => rfl
  | cons gap more ih =>
      cases rest with
      | nil => rfl
      | cons head others => exact congrArg ((gap.text, head.2) :: ·) (ih others)

/-- Words that have been filled are filled again as they were. -/
theorem fill_again (continuation : Nat) (cursor : Cursor) (rest : List (List Char × List Char)) :
    settings.fill continuation cursor ((parted (settings.fill continuation cursor
        (rest.map fun (blanks, word) => (blanks, word.length))).1 rest).map
          fun (blanks, word) => (blanks, word.length)) =
      settings.fill continuation cursor (rest.map fun (blanks, word) => (blanks, word.length)) := by
  induction rest generalizing cursor with
  | nil => rfl
  | cons head others ih =>
      simp only [List.map_cons, fill, parted, List.zipWith_cons_cons, wordGap_again]
      rw [← parted, ih]

/-! ## Start tags -/

theorem quoteFor_laid {attr : Attribute} {layout : AttributeLayout}
    (hlay : settings.Lays attr layout) :
    settings.quoteFor (attr.laid layout) = settings.quoteFor attr := by
  have hquote := hlay.quote
  unfold quoteFor at hquote ⊢
  cases hvalue : attr.value with
  | none => simp [Attribute.laid, hvalue]
  | some value =>
      simp only [hvalue] at hquote
      simp only [Attribute.laid, hvalue, Option.map_some, hquote]
      split
      next =>
        split
        next => rfl
        next target _ => by_cases hin : target.char ∈ value.raw <;> simp [hin]
      next => rfl

theorem attributeWidth_laid {attr : Attribute} {layout : AttributeLayout}
    (hlay : settings.Lays attr layout) :
    settings.attributeWidth (attr.laid layout) = settings.attributeWidth attr := by
  unfold attributeWidth
  rw [quoteFor_laid hlay]
  cases hvalue : attr.value <;> simp [Attribute.laid, hvalue]

/-- An attribute is laid out again as it was. -/
theorem layoutAttribute_again (cursor : Cursor) {attr : Attribute} {layout : AttributeLayout}
    (hlay : settings.Lays attr layout) (broken : Bool) (aligned : Nat) :
    settings.layoutAttribute cursor (attr.laid layout) broken aligned =
      settings.layoutAttribute cursor attr broken aligned := by
  simp only [layoutAttribute, quoteFor_laid hlay]
  cases hvalue : attr.value <;> simp [writeAttribute, Attribute.laid, hvalue]

theorem keepsBreakInTag_attributeGap (broken : Bool) (aligned : Nat) :
    settings.keepsBreakInTag (attributeGap broken aligned).text =
      (broken && (settings.keepLineBreaks || settings.attributeWrap == .never)) := by
  cases broken <;> simp [keepsBreakInTag, attributeGap, Gap.text]

theorem keepsBreakInTag_again (blanks : List Char) (aligned : Nat) :
    settings.keepsBreakInTag (attributeGap (settings.keepsBreakInTag blanks) aligned).text =
      settings.keepsBreakInTag blanks := by
  rw [keepsBreakInTag_attributeGap]
  unfold keepsBreakInTag
  rw [Bool.and_assoc, Bool.and_self]

theorem layoutFurther_again (wrapped : Bool) (aligned : Nat) (cursor : Cursor)
    (attributes : List Attribute) :
    settings.layoutFurther wrapped aligned cursor (attributes.zipWith Attribute.laid
        (settings.layoutFurther wrapped aligned cursor attributes).1) =
      settings.layoutFurther wrapped aligned cursor attributes := by
  induction attributes generalizing cursor with
  | nil => rfl
  | cons attr rest ih =>
      have hlay := settings.lays_layoutAttribute cursor attr
        (settings.keepsBreakInTag attr.gap || wrapped) aligned
      have hbroken : (settings.keepsBreakInTag (attributeGap (settings.keepsBreakInTag attr.gap ||
          wrapped) aligned).text || wrapped) = (settings.keepsBreakInTag attr.gap || wrapped) := by
        cases wrapped with
        | true => simp
        | false => simp only [Bool.or_false, keepsBreakInTag_again]
      have hgap : (attr.laid (settings.layoutAttribute cursor attr
          (settings.keepsBreakInTag attr.gap || wrapped) aligned).1).gap =
            (attributeGap (settings.keepsBreakInTag attr.gap || wrapped) aligned).text := rfl
      simp only [layoutFurther, List.zipWith_cons_cons, hgap, hbroken, layoutAttribute_again _ hlay,
        ih]

theorem layoutAttributes_again (wrapped : Bool) (indent : Nat) (cursor : Cursor)
    (attributes : List Attribute) :
    settings.layoutAttributes wrapped indent cursor (attributes.zipWith Attribute.laid
        (settings.layoutAttributes wrapped indent cursor attributes).1) =
      settings.layoutAttributes wrapped indent cursor attributes := by
  cases attributes with
  | nil => rfl
  | cons attr rest =>
      simp only [layoutAttributes, List.zipWith_cons_cons]
      generalize haligned : (if (settings.alignAttributes && !settings.keepsBreakInTag attr.gap) =
        true then cursor.column + 1 else indent + settings.continuationIndentSize) = aligned
      have hlay := settings.lays_layoutAttribute cursor attr
        (settings.keepsBreakInTag attr.gap) aligned
      have hgap : (attr.laid (settings.layoutAttribute cursor attr
          (settings.keepsBreakInTag attr.gap) aligned).1).gap =
            (attributeGap (settings.keepsBreakInTag attr.gap) aligned).text := rfl
      simp only [hgap, keepsBreakInTag_again, haligned, layoutAttribute_again _ hlay,
        layoutFurther_again]

theorem foldr_attributeWidth_laid {attributes : List Attribute} {layouts : List AttributeLayout}
    (hlays : List.Forall₂ settings.Lays attributes layouts) (ending : Nat) :
    (attributes.zipWith Attribute.laid layouts).foldr
        (fun attr width => 1 + settings.attributeWidth attr + width) ending =
      attributes.foldr (fun attr width => 1 + settings.attributeWidth attr + width) ending := by
  induction hlays with
  | nil => rfl
  | cons hlay _ ih =>
      rw [List.zipWith_cons_cons, List.foldr_cons, List.foldr_cons, ih, attributeWidth_laid hlay]

theorem restOfTagWidth_layTag (tag : StartTag) (indent : Nat) (cursor : Cursor) :
    settings.restOfTagWidth (settings.layTag tag indent cursor) = settings.restOfTagWidth tag := by
  have hlays := settings.lays_layoutStartTag tag indent cursor
  simp only [restOfTagWidth, layTag, StartTag.laid, foldr_attributeWidth_laid hlays]

theorem tagWidth_layTag (tag : StartTag) (indent : Nat) (cursor : Cursor) :
    settings.tagWidth (settings.layTag tag indent cursor) = settings.tagWidth tag := by
  simp only [tagWidth, layTag_name, restOfTagWidth_layTag]

theorem tagEndGap_again (tag : StartTag) (indent : Nat) {other : StartTag}
    (hending : other.ending = tag.ending)
    (htrailing : other.trailing = (settings.tagEndGap tag indent).text) :
    settings.tagEndGap other indent = settings.tagEndGap tag indent := by
  unfold tagEndGap at htrailing ⊢
  rw [hending, htrailing]
  by_cases hkeeps : settings.keepsBreakInTag tag.trailing = true
  · have hagain : settings.keepsBreakInTag (Gap.lineBreak 1 indent).text = true := by
      simp only [keepsBreakInTag, Bool.and_eq_true] at hkeeps ⊢
      exact ⟨by simp [Gap.text], hkeeps.2⟩
    rw [if_pos hkeeps, if_pos hagain]
  · rw [if_neg hkeeps]
    have hagain : ∀ gap : Gap, gap = .space ∨ gap = .nothing →
        ¬settings.keepsBreakInTag gap.text = true := by
      rintro gap (rfl | rfl) <;> simp [keepsBreakInTag, Gap.text]
    split
    next => rw [if_neg (hagain _ (.inl rfl))]
    next => rw [if_neg (hagain _ (.inr rfl))]

/-- A start tag is laid out again as it was. -/
theorem layoutStartTag_again (tag : StartTag) (indent : Nat) (cursor : Cursor) :
    settings.layoutStartTag (settings.layTag tag indent cursor) indent cursor =
      settings.layoutStartTag tag indent cursor := by
  have hattributes : (settings.layTag tag indent cursor).attributes =
      tag.attributes.zipWith Attribute.laid (settings.layoutStartTag tag indent cursor).1 := rfl
  have htagEnd := settings.tagEndGap_again tag indent
    (settings.layTag_ending tag indent cursor) rfl
  unfold layoutStartTag at hattributes ⊢
  dsimp only at hattributes ⊢
  rw [layTag_name, layTag_ending, restOfTagWidth_layTag, hattributes, layoutAttributes_again,
    htagEnd]

theorem layTag_again (tag : StartTag) (indent : Nat) (cursor : Cursor) :
    settings.layTag (settings.layTag tag indent cursor) indent cursor =
      settings.layTag tag indent cursor := by
  have hlaid : ∀ (attributes : List Attribute) (layouts : List AttributeLayout),
      (attributes.zipWith Attribute.laid layouts).zipWith Attribute.laid layouts =
        attributes.zipWith Attribute.laid layouts := by
    intro attributes
    induction attributes with
    | nil => intro layouts; rfl
    | cons attr rest ih =>
        intro layouts
        cases layouts with
        | nil => rfl
        | cons layout more => simp [ih, Attribute.laid, Function.comp_def]
  rw [layTag, layoutStartTag_again, layTag, StartTag.laid, StartTag.laid, hlaid]

/-! ## Items -/

/-- The second pass is where the first one was. -/
structure StageAgain (settings : Settings) (first second : Stage) : Prop where
  cursor : second.cursor = first.cursor
  flow : settings.FlowAgain first.flow second.flow

theorem StageAgain.refl (stage : Stage) : settings.StageAgain stage stage :=
  ⟨rfl, .refl _⟩

/-- A gap in front of an inline item at the start of an inline element is left open or closed. -/
theorem separate_eq_nil_iff {cursor : Cursor} {flow : Flow} (hbegun : cursor.fresh = false)
    (hstart : flow.preceding = .start false) (blanks : List Char) (width : Nat) :
    (settings.separate cursor flow blanks .inline width).1.text = [] ↔ blanks = [] := by
  unfold separate
  rw [hbegun, if_neg Bool.false_ne_true]
  split
  next => rw [Gap.text_keep]
  next =>
    cases blanks with
    | nil => simp [gapBetween, hstart, Gap.text, newlines]
    | cons c rest =>
        have hbreak := settings.isEmpty_breakGap (newlines (c :: rest)) flow.indent
        simp only [List.isEmpty_eq_false_iff] at hbreak
        simp only [gapBetween_eq, reduceCtorEq, iff_false, List.isEmpty_cons, Bool.not_false]
        split
        next => exact hbreak
        next =>
          split
          next => exact hbreak
          next => split <;> simp [Gap.text]

theorem leadingItems_congr (depth : Nat) {tag other : StartTag} (hname : other.name = tag.name)
    (hwidth : settings.tagWidth other = settings.tagWidth tag) (children : List Item) :
    settings.leadingItems depth other children = settings.leadingItems depth tag children := by
  cases depth with
  | zero => exact hwidth
  | succ depth => simp only [leadingItems, hname, hwidth]

section Front

variable (before : List Char) (tag : StartTag) (width : Nat) (stage : Stage)

@[simp]
theorem front_fresh : (settings.front before tag width stage).stage.cursor.fresh = false := rfl

@[simp]
theorem front_tag_name : (settings.front before tag width stage).tag.name = tag.name := rfl

@[simp]
theorem contentOf_front_tag :
    settings.contentOf (settings.front before tag width stage).tag = settings.contentOf tag := rfl

@[simp]
theorem front_block :
    (settings.front before tag width stage).block = !settings.isInline tag.name := rfl

@[simp]
theorem tagWidth_front_tag :
    settings.tagWidth (settings.front before tag width stage).tag = settings.tagWidth tag :=
  settings.tagWidth_layTag tag _ _

@[simp]
theorem leadingItems_front_tag (depth : Nat) (children : List Item) :
    settings.leadingItems depth (settings.front before tag width stage).tag children =
      settings.leadingItems depth tag children :=
  leadingItems_congr depth (front_tag_name before tag width stage)
    (tagWidth_front_tag before tag width stage) children

end Front

/-- What an item at the start of an inline element adds to its leading part. -/
def leadingPart (settings : Settings) (depth : Nat) : Item → Nat
  | .words before first _ => if before = [] then first.length else 0
  | .leaf _ _ _ => 0
  | .rawText before child _ _ =>
      if before = [] ∧ settings.isInline child.name = true then settings.tagWidth child else 0
  | .element _ before child inner _ =>
      if before = [] ∧ settings.isInline child.name = true then
        settings.leadingItems depth child inner
      else 0

theorem leadingItems_cons (depth : Nat) (tag : StartTag) (item : Item) (rest : List Item) :
    settings.leadingItems (depth + 1) tag (item :: rest) = settings.tagWidth tag +
      if settings.preserves tag.name then 0 else settings.leadingPart depth item := by
  cases item with
  | words before first others => cases before <;> simp [leadingItems, leadingPart]
  | leaf before kind content => simp [leadingItems, leadingPart]
  | rawText before child content close => cases before <;> simp [leadingItems, leadingPart]
  | element short before child inner close => cases before <;> simp [leadingItems, leadingPart]

/-- The leading part of an inline element is as wide as it was, once its items are arranged. -/
theorem leadingItems_arrangeAll (depth : Nat) (tag : StartTag) (children : List Item)
    (stage : Stage) (hbegun : stage.cursor.fresh = false)
    (hstart : stage.flow.preceding = .start false) :
    settings.leadingItems depth tag (settings.arrangeAll children stage).1 =
      settings.leadingItems depth tag children := by
  induction depth generalizing tag children stage with
  | zero => rfl
  | succ depth ih =>
      cases children with
      | nil => rfl
      | cons item rest =>
          suffices hpart : settings.leadingPart depth (settings.arrange item stage).1 =
              settings.leadingPart depth item by
            rw [arrangeAll, leadingItems_cons, leadingItems_cons, hpart]
          have hfront : ∀ before (child : StartTag) width, settings.isInline child.name = true →
              ((settings.front before child width stage).before.text = [] ↔ before = []) := by
            intro before child width hinline
            simp only [front, hinline, Bool.not_true, Bool.false_eq_true, if_false]
            exact separate_eq_nil_iff hbegun hstart _ _
          cases item with
          | words before first others =>
              simp only [arrange, arrangeWords, leadingPart, separate_eq_nil_iff hbegun hstart]
          | leaf before kind content => rfl
          | rawText before child content close =>
              simp only [arrange, leadingPart, front_tag_name, tagWidth_front_tag]
              by_cases hinline : settings.isInline child.name = true
              · simp only [hfront _ _ _ hinline]
              · simp only [hinline, Bool.false_eq_true, and_false, if_false]
          | element short before child inner close =>
              rw [arrange]
              by_cases hinline : settings.isInline child.name = true
              · cases settings.contentOf child with
                | empty => simp only [leadingPart, front_tag_name, leadingItems_front_tag,
                    hfront _ _ _ hinline]
                | verbatim => simp only [leadingPart, front_tag_name, leadingItems_front_tag,
                    hfront _ _ _ hinline]
                | formatted =>
                    simp only [leadingPart, front_tag_name, leadingItems_front_tag,
                      hfront _ _ _ hinline]
                    rw [ih child inner _ rfl (by simp [Flow.start, hinline])]
              · cases settings.contentOf child with
                | empty => simp [leadingPart, hinline]
                | verbatim => simp [leadingPart, hinline]
                | formatted => simp [leadingPart, hinline]

/-- The second pass begins an element as the first one did. -/
structure FrontAgain (settings : Settings) (first second : Front) : Prop where
  before : second.before = first.before
  indent : second.indent = first.indent
  ownLine : second.ownLine = first.ownLine
  block : second.block = first.block
  tag : second.tag = first.tag
  stage : settings.StageAgain first.stage second.stage

/-- An element begins again as it did, if its leading part is as wide as it was. The width does not
matter to a block. -/
theorem StageAgain.front {first second : Stage} (hagain : settings.StageAgain first second)
    (before : List Char) (tag : StartTag) (width other : Nat)
    (hwidth : settings.isInline tag.name = true → other = width) :
    settings.FrontAgain (settings.front before tag width first)
      (settings.front (settings.front before tag width first).before.text
        (settings.front before tag width first).tag other second) := by
  have hsame : (if (!settings.isInline tag.name) = true then 0 else other) =
      if (!settings.isInline tag.name) = true then 0 else width := by
    split
    next => rfl
    next hinline => exact hwidth (by simpa using hinline)
  obtain ⟨hgap, hcursor, hflow⟩ := hagain.flow.separate first.cursor before
    (if (!settings.isInline tag.name) = true then .block else .inline)
    (if (!settings.isInline tag.name) = true then 0 else width)
  unfold Settings.front
  dsimp only
  rw [layTag_name, hagain.cursor, hsame, hgap, hcursor, hflow.indent]
  exact ⟨rfl, rfl, rfl, rfl, layTag_again _ _ _, by rw [layoutStartTag_again], hflow⟩

theorem FrontAgain.behind {first second : Front} (hagain : settings.FrontAgain first second)
    (cursor : Cursor) {broken another : Bool} (hbroken : settings.BrokenAgain broken another) :
    settings.StageAgain (first.behind cursor broken) (second.behind cursor another) := by
  have hinside : settings.BrokenAgain (!first.block && broken) (!first.block && another) := by
    cases first.block with
    | true => exact .refl settings false
    | false => exact hbroken
  unfold Front.behind Front.kind
  rw [hagain.block]
  exact ⟨rfl, (hagain.stage.flow.break hinside).follow _⟩

theorem FrontAgain.childIndent {first second : Front} (hagain : settings.FrontAgain first second)
    (short : Bool) (name : List Char) :
    settings.childIndent second short name = settings.childIndent first short name := by
  simp only [Settings.childIndent, hagain.ownLine, hagain.block, hagain.indent]

/-- An element ends again as it did. -/
theorem FrontAgain.arrangeClose {first second : Front} (hagain : settings.FrontAgain first second)
    {inner again : Stage} (hinner : settings.StageAgain inner again)
    (close : Option (List Char × EndTag)) :
    settings.arrangeClose second again (settings.arrangeClose first inner close).1 =
      settings.arrangeClose first inner close := by
  cases close with
  | none => simp only [Settings.arrangeClose, hinner.cursor]
  | some parted =>
      simp only [Settings.arrangeClose, hagain.indent, hagain.ownLine, hagain.block,
        hinner.flow.closingGap, hinner.cursor, EndTag.plain]

theorem arrangeWords_eq (before word : List Char) (rest : List (List Char × List Char))
    (stage : Stage) :
    settings.arrangeWords before word rest stage =
      let found := settings.separate stage.cursor stage.flow before .inline word.length
      let filled :=
        settings.fill (if settings.alignText then found.2.1.column else found.2.2.indent)
          (found.2.1.place word.length) (rest.map fun (blanks, word) => (blanks, word.length))
      (.words found.1.text word (parted filled.1 rest),
        ⟨filled.2.1, { found.2.2 with broken := found.2.2.broken || filled.2.2 }.follow .inline⟩) :=
  rfl

/-- Running text is arranged again as it was. -/
theorem StageAgain.words {first second : Stage} (hagain : settings.StageAgain first second)
    (before word : List Char) (rest : List (List Char × List Char)) :
    (settings.arrange (settings.arrangeWords before word rest first).1 second).1 =
        (settings.arrangeWords before word rest first).1 ∧
      settings.StageAgain (settings.arrangeWords before word rest first).2
        (settings.arrange (settings.arrangeWords before word rest first).1 second).2 := by
  obtain ⟨hgap, hcursor, hflow⟩ :=
    hagain.flow.separate first.cursor before .inline word.length
  simp only [arrange, arrangeWords_eq, hagain.cursor, hgap, hcursor, hflow.indent, fill_again,
    parted_parted]
  exact ⟨trivial, rfl, rfl, rfl, hflow.blocks, hflow.broken.or (.refl settings _)⟩

/-- A leaf is arranged again as it was. -/
theorem StageAgain.leaf {first second : Stage} (hagain : settings.StageAgain first second)
    (before : List Char) (kind : LeafKind) (content : List Char) :
    (settings.arrange (settings.arrangeLeaf before kind content first).1 second).1 =
        (settings.arrangeLeaf before kind content first).1 ∧
      settings.StageAgain (settings.arrangeLeaf before kind content first).2
        (settings.arrange (settings.arrangeLeaf before kind content first).1 second).2 := by
  obtain ⟨hgap, hcursor, hflow⟩ :=
    hagain.flow.separate first.cursor before kind.following (firstLine content).length
  simp only [arrange, Settings.arrangeLeaf, hagain.cursor, hgap, hcursor]
  exact ⟨trivial, rfl, hflow.follow _⟩

mutual

theorem arrange_again (item : Item) {first second : Stage}
    (hagain : settings.StageAgain first second) :
    (settings.arrange (settings.arrange item first).1 second).1 = (settings.arrange item first).1 ∧
      settings.StageAgain (settings.arrange item first).2
        (settings.arrange (settings.arrange item first).1 second).2 := by
  cases item with
  | words before word rest => exact hagain.words before word rest
  | leaf before kind content => exact hagain.leaf before kind content
  | rawText before tag content close =>
      have hfront :=
        hagain.front before tag (settings.tagWidth tag) (settings.tagWidth tag) fun _ => rfl
      simp only [arrange, tagWidth_front_tag, hfront.before, hfront.tag, hfront.stage.cursor]
      exact ⟨trivial, hfront.behind _ (.refl settings false)⟩
  | element short before tag children close =>
      cases hcontent : settings.contentOf tag with
      | empty =>
          have hfront := hagain.front before tag (settings.leadingItems lookahead tag children)
            (settings.leadingItems lookahead tag children) fun _ => rfl
          simp only [arrange, hcontent, contentOf_front_tag, leadingItems_front_tag, hfront.before,
            hfront.tag, hfront.stage.cursor]
          exact ⟨trivial, hfront.behind _ (.refl settings false)⟩
      | verbatim =>
          have hfront := hagain.front before tag (settings.leadingItems lookahead tag children)
            (settings.leadingItems lookahead tag children) fun _ => rfl
          simp only [arrange, hcontent, contentOf_front_tag, leadingItems_front_tag, hfront.before,
            hfront.tag, hfront.stage.cursor]
          exact ⟨trivial, hfront.behind _ (.refl settings false)⟩
      | formatted =>
          let front :=
            settings.front before tag (settings.leadingItems lookahead tag children) first
          let inner : Stage := ⟨front.stage.cursor,
            Flow.start (settings.childIndent front short tag.name) (.start front.block)⟩
          have hfront := hagain.front before tag (settings.leadingItems lookahead tag children)
            (settings.leadingItems lookahead tag (settings.arrangeAll children inner).1)
            fun hinline => leadingItems_arrangeAll _ _ _ _ rfl
              (by simp [inner, front, hinline, Flow.start])
          obtain ⟨hchildren, hinner⟩ := arrangeAll_again children (StageAgain.refl inner)
          have hbegun : ∀ other : Front, settings.FrontAgain front other →
              (⟨other.stage.cursor, Flow.start (settings.childIndent other short tag.name)
                (.start other.block)⟩ : Stage) = inner := by
            intro other hother
            simp only [inner, hother.stage.cursor, hother.block, hother.childIndent]
          have harranged : settings.arrange (.element short before tag children close) first =
              (.element short front.before.text front.tag (settings.arrangeAll children inner).1
                (settings.arrangeClose front (settings.arrangeAll children inner).2 close).1,
              front.behind
                (settings.arrangeClose front (settings.arrangeAll children inner).2 close).2
                (settings.arrangeAll children inner).2.flow.broken) := by
            rw [arrange]
            simp only [hcontent]
            rfl
          rw [harranged]
          simp only [arrange, contentOf_front_tag, hcontent, front_tag_name, leadingItems_front_tag,
            front]
          rw [hbegun _ hfront, hchildren, hfront.arrangeClose hinner, hfront.before, hfront.tag]
          exact ⟨rfl, hfront.behind _ hinner.flow.broken⟩

/-- Items that have been arranged are arranged again as they were. -/
theorem arrangeAll_again (items : List Item) {first second : Stage}
    (hagain : settings.StageAgain first second) :
    (settings.arrangeAll (settings.arrangeAll items first).1 second).1 =
        (settings.arrangeAll items first).1 ∧
      settings.StageAgain (settings.arrangeAll items first).2
        (settings.arrangeAll (settings.arrangeAll items first).1 second).2 := by
  cases items with
  | nil => exact ⟨rfl, hagain⟩
  | cons item rest =>
      obtain ⟨hitem, hbehind⟩ := arrange_again item hagain
      obtain ⟨hrest, hfinal⟩ := arrangeAll_again rest hbehind
      exact ⟨by rw [arrangeAll, arrangeAll, hitem, hrest], hfinal⟩

end

/-! ## Notes that do not matter -/

theorem leadingItems_unnotedAll (depth : Nat) (tag : StartTag) (children : List Item) :
    settings.leadingItems depth tag (Item.unnotedAll children) =
      settings.leadingItems depth tag children := by
  induction depth generalizing tag children with
  | zero => rfl
  | succ depth ih =>
      cases children with
      | nil => rfl
      | cons item rest =>
          rw [Item.unnotedAll, leadingItems_cons, leadingItems_cons]
          cases item with
          | words before first others => rfl
          | leaf before kind content => rfl
          | rawText before child content close => rfl
          | element short before child inner close => simp only [Item.unnoted, leadingPart, ih]

theorem childIndent_of_unlimited (hlimit : settings.heightLimit = 0) (front : Front)
    (short other : Bool) (name : List Char) :
    settings.childIndent front short name = settings.childIndent front other name := by
  simp [childIndent, hlimit]

mutual

theorem arrange_unnoted (hlimit : settings.heightLimit = 0) (item : Item) (stage : Stage) :
    settings.arrange item.unnoted stage =
      ((settings.arrange item stage).1.unnoted, (settings.arrange item stage).2) := by
  cases item with
  | words before first rest => rfl
  | leaf before kind content => rfl
  | rawText before tag content close => rfl
  | element short before tag children close =>
      rw [Item.unnoted, arrange, arrange, leadingItems_unnotedAll]
      cases settings.contentOf tag with
      | empty => rfl
      | verbatim =>
          dsimp only
          rw [Item.textOfAll_unnotedAll, Item.unnoted]
      | formatted =>
          dsimp only
          rw [childIndent_of_unlimited hlimit _ true short, arrangeAll_unnotedAll hlimit children,
            Item.unnoted]

/-- Where the height of elements is not limited, items are arranged alike whatever is noted of
them. -/
theorem arrangeAll_unnotedAll (hlimit : settings.heightLimit = 0) (items : List Item)
    (stage : Stage) :
    settings.arrangeAll (Item.unnotedAll items) stage =
      (Item.unnotedAll (settings.arrangeAll items stage).1,
        (settings.arrangeAll items stage).2) := by
  cases items with
  | nil => rfl
  | cons item rest =>
      simp only [Item.unnotedAll, arrangeAll, arrange_unnoted hlimit item,
        arrangeAll_unnotedAll hlimit rest]

end

end Settings

end Markup
