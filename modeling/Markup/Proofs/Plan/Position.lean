import Markup.Proofs.Plan.Arrangement
import Markup.Proofs.Text.Splitting

/-!
# Where items stand

What is arranged depends on where the arranging begins only through the column, the indent and what
stands in front: how many lines have been ended so far and what has been noted of the flow do not
matter. The column that is followed on the way is the one that the written text really ends at. Main
statements: `Settings.arrangeAll_congr` and `Settings.passes_arrangeAll`.
-/

namespace Markup

open Markup.Text

/-! ## Elsewhere in the output -/

/-- The same position, so many lines further down. -/
def Cursor.down (cursor : Cursor) (lines : Nat) : Cursor :=
  { cursor with lines := cursor.lines + lines }

/-- The same flow, with this noted of it as well. -/
def Flow.mark (flow : Flow) (broken blocks : Bool) : Flow :=
  { flow with broken := broken || flow.broken, blocks := blocks || flow.blocks }

namespace Stage

/-- The same stage elsewhere in the output. -/
def shift (stage : Stage) (lines : Nat) (broken blocks : Bool) : Stage :=
  ⟨stage.cursor.down lines, stage.flow.mark broken blocks⟩

/-- A stage as if nothing had been arranged so far. -/
def bare (stage : Stage) : Stage :=
  ⟨{ stage.cursor with lines := 0 }, { stage.flow with broken := false, blocks := false }⟩

theorem shift_bare (stage : Stage) :
    stage.bare.shift stage.cursor.lines stage.flow.broken stage.flow.blocks = stage := by
  simp [shift, bare, Cursor.down, Flow.mark]

end Stage

/-- The front of an element that begins elsewhere in the output. -/
def Front.shift (front : Front) (lines : Nat) (broken blocks : Bool) : Front :=
  { front with stage := front.stage.shift lines broken blocks }

section Shift

variable (settings : Settings) (cursor : Cursor) (flow : Flow) (lines : Nat) (broken blocks : Bool)

theorem Cursor.skip_down (gap : Gap) :
    (cursor.down lines).skip gap = (cursor.skip gap).down lines := by
  cases gap <;> simp [skip, down, Nat.add_right_comm]

theorem Cursor.place_down (width : Nat) :
    (cursor.down lines).place width = (cursor.place width).down lines :=
  rfl

theorem Cursor.write_down (text : List Char) :
    (cursor.down lines).write text = (cursor.write text).down lines := by
  cases text <;> simp [write, down, Nat.add_right_comm]

theorem Flow.follow_mark (kind : Following) :
    (flow.mark broken blocks).follow kind = (flow.follow kind).mark broken blocks := by
  cases kind <;> simp [follow, mark]

namespace Settings

theorem separate_shift (blanks : List Char) (next : Following) (width : Nat) :
    settings.separate (cursor.down lines) (flow.mark broken blocks) blanks next width =
      ((settings.separate cursor flow blanks next width).1,
        (settings.separate cursor flow blanks next width).2.1.down lines,
        (settings.separate cursor flow blanks next width).2.2.mark broken blocks) := by
  have hgap : settings.gapBetween (cursor.down lines) (flow.mark broken blocks) blanks next width =
      settings.gapBetween cursor flow blanks next width := rfl
  unfold separate
  rw [hgap]
  by_cases hfresh : cursor.fresh = true
  · rw [if_pos hfresh, if_pos (by exact hfresh)]
  · rw [if_neg hfresh, if_neg (by exact hfresh)]
    by_cases hkeeps : (cursor.anchored || settings.keepWhitespaces) = true
    · have hreleased : ({ cursor.down lines with anchored := false } : Cursor) =
          Cursor.down { cursor with anchored := false } lines := rfl
      rw [if_pos hkeeps, if_pos (by exact hkeeps), hreleased]
      simp only [Cursor.skip_down]
    · rw [if_neg hkeeps, if_neg (by exact hkeeps)]
      simp [Cursor.skip_down, Flow.mark, Bool.or_assoc]

theorem fill_down (continuation : Nat) (rest : List (List Char × Nat)) :
    settings.fill continuation (cursor.down lines) rest =
      ((settings.fill continuation cursor rest).1,
        (settings.fill continuation cursor rest).2.1.down lines,
        (settings.fill continuation cursor rest).2.2) := by
  induction rest generalizing cursor with
  | nil => rfl
  | cons head others ih =>
      have hgap : settings.wordGap continuation (cursor.down lines) head.1 head.2 =
          settings.wordGap continuation cursor head.1 head.2 := rfl
      simp only [fill, hgap, Cursor.skip_down, Cursor.place_down, ih]

/-! ## Start tags -/

theorem layoutAttribute_down (attr : Attribute) (broken : Bool) (aligned : Nat) :
    settings.layoutAttribute (cursor.down lines) attr broken aligned =
      ((settings.layoutAttribute cursor attr broken aligned).1,
        (settings.layoutAttribute cursor attr broken aligned).2.down lines) := by
  simp only [layoutAttribute, writeAttribute, Cursor.skip_down, Cursor.write_down]
  cases attr.value with
  | none => rfl
  | some value => simp only [Cursor.place_down, Cursor.write_down]

theorem layoutFurther_down (wrapped : Bool) (aligned : Nat) (attributes : List Attribute) :
    settings.layoutFurther wrapped aligned (cursor.down lines) attributes =
      ((settings.layoutFurther wrapped aligned cursor attributes).1,
        (settings.layoutFurther wrapped aligned cursor attributes).2.down lines) := by
  induction attributes generalizing cursor with
  | nil => rfl
  | cons attr rest ih => simp only [layoutFurther, layoutAttribute_down, ih]

theorem layoutStartTag_down (tag : StartTag) (indent : Nat) :
    settings.layoutStartTag tag indent (cursor.down lines) =
      ((settings.layoutStartTag tag indent cursor).1,
        (settings.layoutStartTag tag indent cursor).2.1,
          (settings.layoutStartTag tag indent cursor).2.2.down lines) := by
  have hattributes : ∀ (wrapped : Bool) (cursor : Cursor),
      settings.layoutAttributes wrapped indent (cursor.down lines) tag.attributes =
        ((settings.layoutAttributes wrapped indent cursor tag.attributes).1,
          (settings.layoutAttributes wrapped indent cursor tag.attributes).2.down lines) := by
    intro wrapped cursor
    have hcolumn : (cursor.down lines).column = cursor.column := rfl
    cases tag.attributes with
    | nil => rfl
    | cons attr rest =>
        simp only [layoutAttributes, hcolumn, layoutAttribute_down, layoutFurther_down]
  simp only [layoutStartTag, Cursor.place_down, hattributes, Cursor.skip_down]
  rfl

/-! ## Items -/

variable (stage : Stage)

theorem front_shift (before : List Char) (tag : StartTag) (width : Nat) :
    settings.front before tag width (stage.shift lines broken blocks) =
      (settings.front before tag width stage).shift lines broken blocks := by
  simp only [front, Stage.shift, separate_shift, layTag, layoutStartTag_down]
  rfl

theorem behind_shift (front : Front) (inside : Bool) :
    (front.shift lines broken blocks).behind (cursor.down lines) inside =
      (front.behind cursor inside).shift lines broken blocks := by
  have hkind : (front.shift lines broken blocks).kind = front.kind := rfl
  simp only [Front.behind, hkind, Stage.shift, ← Flow.follow_mark]
  simp [Front.shift, Stage.shift, Flow.mark, Bool.or_assoc]

theorem arrangeClose_shift (front : Front) (inner : Stage) (close : Option (List Char × EndTag)) :
    settings.arrangeClose (front.shift lines broken blocks) (inner.shift lines false false) close =
      ((settings.arrangeClose front inner close).1,
        (settings.arrangeClose front inner close).2.down lines) := by
  have hflow : (inner.shift lines false false).flow = inner.flow := by
    simp [Stage.shift, Flow.mark]
  cases close with
  | none => rfl
  | some parted =>
      simp only [arrangeClose, hflow]
      exact congrArg (Prod.mk _)
        (congrArg (Cursor.place · _) (Cursor.skip_down inner.cursor lines _))

mutual

theorem arrange_shift (item : Item) (stage : Stage) (lines : Nat) (broken blocks : Bool) :
    settings.arrange item (stage.shift lines broken blocks) =
      ((settings.arrange item stage).1,
        (settings.arrange item stage).2.shift lines broken blocks) := by
  cases item with
  | words before first rest =>
      have hcolumn : ∀ cursor : Cursor, (cursor.down lines).column = cursor.column := fun _ => rfl
      have hindent : ∀ flow : Flow, (flow.mark broken blocks).indent = flow.indent := fun _ => rfl
      simp only [arrange, arrangeWords, Stage.shift, separate_shift, Cursor.place_down, hcolumn,
        hindent, fill_down]
      refine congrArg (Prod.mk _) (congrArg (Stage.mk _) ?_)
      rw [← Flow.follow_mark]
      simp [Flow.mark, Bool.or_assoc]
  | leaf before kind content =>
      simp only [arrange, arrangeLeaf, Stage.shift, separate_shift, Cursor.write_down,
        Flow.follow_mark]
  | rawText before tag content close =>
      have hcursor : ∀ front : Front, (front.shift lines broken blocks).stage.cursor =
          front.stage.cursor.down lines := fun _ => rfl
      simp only [arrange, front_shift, hcursor, Cursor.write_down, behind_shift]
      rfl
  | element short before tag children close =>
      have hcursor : ∀ front : Front, (front.shift lines broken blocks).stage.cursor =
          front.stage.cursor.down lines := fun _ => rfl
      rw [arrange, arrange, front_shift]
      cases settings.contentOf tag with
      | empty =>
          simp only [hcursor, behind_shift]
          rfl
      | verbatim =>
          simp only [hcursor, Cursor.write_down, behind_shift]
          rfl
      | formatted =>
          generalize settings.front before tag (settings.leadingItems lookahead tag children)
            stage = front
          have hinner := arrangeAll_shift children ⟨front.stage.cursor, Flow.start
            (settings.childIndent front short tag.name) (.start front.block)⟩ lines false false
          have hthere : Stage.shift ⟨front.stage.cursor, Flow.start
              (settings.childIndent front short tag.name) (.start front.block)⟩ lines false false =
            ⟨(front.shift lines broken blocks).stage.cursor, Flow.start (settings.childIndent
              (front.shift lines broken blocks) short tag.name)
                (.start (front.shift lines broken blocks).block)⟩ := rfl
          rw [hthere] at hinner
          dsimp only
          rw [hinner, arrangeClose_shift, behind_shift]
          simp [Stage.shift, Flow.mark, Front.shift]

/-- Items are arranged alike wherever they stand in the output. -/
theorem arrangeAll_shift (items : List Item) (stage : Stage) (lines : Nat) (broken blocks : Bool) :
    settings.arrangeAll items (stage.shift lines broken blocks) =
      ((settings.arrangeAll items stage).1,
        (settings.arrangeAll items stage).2.shift lines broken blocks) := by
  cases items with
  | nil => rfl
  | cons item rest =>
      simp only [arrangeAll, arrange_shift item, arrangeAll_shift rest]

end

theorem arrange_congr (item : Item) {first second : Stage} (hsame : first.bare = second.bare) :
    (settings.arrange item first).1 = (settings.arrange item second).1 ∧
      (settings.arrange item first).2.bare = (settings.arrange item second).2.bare := by
  rw [← first.shift_bare, ← second.shift_bare, hsame, arrange_shift, arrange_shift]
  exact ⟨rfl, rfl⟩

theorem arrangeAll_congr (items : List Item) {first second : Stage}
    (hsame : first.bare = second.bare) :
    (settings.arrangeAll items first).1 = (settings.arrangeAll items second).1 := by
  rw [← first.shift_bare, ← second.shift_bare, hsame, arrangeAll_shift, arrangeAll_shift]

end Settings

end Shift

/-! ## Line feeds of a gap -/

/-- A line break has a line feed. -/
def Gap.Feeds : Gap → Prop
  | .lineBreak newlines _ => 0 < newlines
  | _ => True

theorem Gap.Feeds.ite {condition : Prop} [Decidable condition] {first second : Gap}
    (hfirst : first.Feeds) (hsecond : second.Feeds) :
    (if condition then first else second).Feeds := by
  split
  next => exact hfirst
  next => exact hsecond

theorem Gap.feeds_keep (blanks : List Char) : (keep blanks).Feeds := by
  cases blanks <;> trivial

/-- Between two positions, this text has been written. -/
structure Cursor.Passes (before : Cursor) (text : List Char) (after : Cursor) : Prop where
  column : after.column = columnAfter before.column text
  lines : after.lines = before.lines + newlines text
  anchored : before.anchored = false → after.anchored = false

/-- Something has been written on the current line. -/
def Cursor.Begun (cursor : Cursor) : Prop :=
  cursor.fresh = false ∧ cursor.blank = false

namespace Cursor

variable {before between after : Cursor} {first second : List Char}

theorem Passes.refl (cursor : Cursor) : cursor.Passes [] cursor :=
  ⟨rfl, rfl, id⟩

theorem Passes.trans (hfirst : before.Passes first between)
    (hsecond : between.Passes second after) :
    before.Passes (first ++ second) after :=
  ⟨by rw [hsecond.column, hfirst.column, columnAfter_append],
    by rw [hsecond.lines, hfirst.lines, newlines_append, Nat.add_assoc],
    fun hanchored => hsecond.anchored (hfirst.anchored hanchored)⟩

theorem passes_skip (cursor : Cursor) {gap : Gap} (hfeeds : gap.Feeds) :
    cursor.Passes gap.text (cursor.skip gap) := by
  refine ⟨?_, ?_, ?_⟩
  · cases gap with
    | nothing => rfl
    | space => rfl
    | kept text => rfl
    | lineBreak newlines indent =>
        obtain ⟨more, rfl⟩ := Nat.exists_eq_succ_of_ne_zero (Nat.pos_iff_ne_zero.mp hfeeds)
        have hfeed : columnAfter cursor.column (List.replicate more.succ '\n') = 0 := by
          rw [List.replicate_succ', columnAfter_append]
          rfl
        have hspaces : '\n' ∉ List.replicate indent ' ' := by simp
        rw [Gap.text, columnAfter_append, hfeed, columnAfter_of_not_mem hspaces]
        simp [skip]
  · cases gap with
    | nothing => rfl
    | space => rfl
    | kept text => rfl
    | lineBreak count indent =>
        have hcount : newlines (Gap.text (.lineBreak count indent)) = count := by
          simp [Gap.text, newlines, List.count_replicate]
        rw [hcount]
        rfl
  · cases gap <;> exact id

theorem passes_place (cursor : Cursor) {text : List Char} {width : Nat} (hnot : '\n' ∉ text)
    (hwidth : width = text.length) : cursor.Passes text (cursor.place width) :=
  ⟨by rw [columnAfter_of_not_mem hnot, hwidth]; rfl,
    by rw [newlines, List.count_eq_zero.mpr hnot]; rfl, id⟩

theorem passes_write (cursor : Cursor) (text : List Char) :
    cursor.Passes text (cursor.write text) := by
  cases text with
  | nil => exact .refl cursor
  | cons c rest => exact ⟨rfl, rfl, id⟩

theorem begun_place (cursor : Cursor) (width : Nat) : (cursor.place width).Begun :=
  ⟨rfl, rfl⟩

theorem Begun.write {cursor : Cursor} (hbegun : cursor.Begun) (text : List Char) :
    (cursor.write text).Begun := by
  cases text with
  | nil => exact hbegun
  | cons c rest => exact ⟨rfl, rfl⟩

end Cursor

theorem Text.Solid.newline_not_mem {text : List Char} (hsolid : Solid text) : '\n' ∉ text := by
  intro hmem
  have hblank := hsolid.2 _ hmem
  simp [isBlank] at hblank

namespace Settings

open Cursor Gap

variable (settings : Settings)

theorem feeds_breakGap (lines indent : Nat) : (settings.breakGap lines indent).Feeds :=
  Nat.lt_of_lt_of_le Nat.zero_lt_one (Nat.le_max_left _ _)

theorem feeds_gapBetween (cursor : Cursor) (flow : Flow) (blanks : List Char) (next : Following)
    (width : Nat) : (settings.gapBetween cursor flow blanks next width).1.Feeds := by
  have hbreak := settings.feeds_breakGap (newlines blanks) flow.indent
  have hwrapped : (lineBreak 1 flow.indent).Feeds := Nat.zero_lt_one
  have hspaced : (if (!blanks.isEmpty) = true then space else nothing : Gap).Feeds := by
    split <;> trivial
  unfold gapBetween
  simp only [apply_ite Prod.fst]
  exact hbreak.ite (hbreak.ite (hwrapped.ite hspaced))

theorem feeds_closingGap (inner : Flow) (blanks : List Char) (indent : Nat) (ownLine block : Bool) :
    (settings.closingGap inner blanks indent ownLine block).Feeds := by
  have hbreak := settings.feeds_breakGap (newlines blanks) indent
  have hspaced : (if (!blanks.isEmpty && !block) = true then space else nothing : Gap).Feeds := by
    split <;> trivial
  unfold closingGap
  exact (feeds_keep blanks).ite (hbreak.ite (hbreak.ite hspaced))

/-- The gap in front of an item leads to the item. -/
theorem passes_separate (cursor : Cursor) (flow : Flow) (blanks : List Char) (next : Following)
    (width : Nat) :
    cursor.Passes (settings.separate cursor flow blanks next width).1.text
      (settings.separate cursor flow blanks next width).2.1 := by
  unfold separate
  split
  next => exact .refl cursor
  next =>
    split
    next =>
      have hskip := Cursor.passes_skip { cursor with anchored := false } (feeds_keep blanks)
      exact ⟨hskip.column, hskip.lines, fun _ => hskip.anchored rfl⟩
    next => exact cursor.passes_skip (settings.feeds_gapBetween cursor flow blanks next width)

theorem indent_separate (cursor : Cursor) (flow : Flow) (blanks : List Char) (next : Following)
    (width : Nat) :
    (settings.separate cursor flow blanks next width).2.2.indent = flow.indent := by
  unfold separate
  split
  next => rfl
  next => split <;> rfl

/-! ## The column behind an item -/

theorem passes_fill (continuation : Nat) (cursor : Cursor) {rest : List (List Char × List Char)}
    (hrest : Parted rest) :
    cursor.Passes (((settings.fill continuation cursor
        (rest.map fun (blanks, word) => (blanks, word.length))).1.zipWith
          (fun gap parted => (gap.text, parted.2)) rest).flatMap fun (gap, word) => gap ++ word)
      (settings.fill continuation cursor
        (rest.map fun (blanks, word) => (blanks, word.length))).2.1 := by
  induction rest generalizing cursor with
  | nil => exact .refl cursor
  | cons head others ih =>
      obtain ⟨⟨-, -, hsolid⟩, hothers⟩ := List.forall_mem_cons.mp hrest
      have hfeeds : (settings.wordGap continuation cursor head.1 head.2.length).1.Feeds := by
        have hwrapped : (lineBreak 1 continuation).Feeds := Nat.zero_lt_one
        unfold wordGap hardGap
        simp only [apply_ite Prod.fst]
        exact (hwrapped.ite (by trivial)).ite (Feeds.ite (by trivial) (settings.feeds_breakGap _ _))
      have hgap := cursor.passes_skip hfeeds
      have hword := passes_place (cursor.skip (settings.wordGap continuation cursor head.1
        head.2.length).1) hsolid.newline_not_mem rfl
      exact (hgap.trans hword).trans (ih _ hothers)

theorem begun_fill (continuation : Nat) {cursor : Cursor} (hbegun : cursor.Begun)
    (rest : List (List Char × Nat)) : (settings.fill continuation cursor rest).2.1.Begun := by
  induction rest generalizing cursor with
  | nil => exact hbegun
  | cons head others ih => exact ih (begun_place _ _)

theorem passes_layoutAttribute (cursor : Cursor) (attr : Attribute) (broken : Bool)
    (aligned : Nat) :
    cursor.Passes (attr.laid (settings.layoutAttribute cursor attr broken aligned).1).text
      (settings.layoutAttribute cursor attr broken aligned).2 := by
  have hfeeds : (attributeGap broken aligned).Feeds :=
    Feeds.ite (show (lineBreak 1 aligned).Feeds from Nat.zero_lt_one) (by trivial)
  have hnamed := (cursor.passes_skip hfeeds).trans
    ((cursor.skip (attributeGap broken aligned)).passes_write attr.name)
  unfold layoutAttribute writeAttribute Attribute.laid Attribute.text Attribute.body
  dsimp only
  rw [← List.append_assoc]
  cases attr.value with
  | none => simpa [valueText] using hnamed
  | some value =>
      have hquote : ∀ cursor : Cursor, cursor.Passes (quoteText (settings.quoteFor attr))
          (cursor.place (quoteText (settings.quoteFor attr)).length) := by
        intro cursor
        refine cursor.passes_place ?_ rfl
        cases settings.quoteFor attr with
        | none => simp [quoteText]
        | some quote => cases quote <;> simp [quoteText, Quote.char]
      have hequals : ∀ cursor : Cursor, cursor.Passes ['='] (cursor.place 1) := fun cursor =>
        cursor.passes_place (by simp) rfl
      exact hnamed.trans
        ((((hequals _).trans (hquote _)).trans (passes_write _ value.raw)).trans (hquote _))

theorem passes_layoutFurther (wrapped : Bool) (aligned : Nat) (cursor : Cursor)
    (attributes : List Attribute) :
    cursor.Passes ((attributes.zipWith Attribute.laid
        (settings.layoutFurther wrapped aligned cursor attributes).1).flatMap Attribute.text)
      (settings.layoutFurther wrapped aligned cursor attributes).2 := by
  induction attributes generalizing cursor with
  | nil => exact .refl cursor
  | cons attr rest ih =>
      exact (settings.passes_layoutAttribute cursor attr
        (settings.keepsBreakInTag attr.gap || wrapped) aligned).trans (ih _)

theorem passes_layoutAttributes (wrapped : Bool) (indent : Nat) (cursor : Cursor)
    (attributes : List Attribute) :
    cursor.Passes ((attributes.zipWith Attribute.laid
        (settings.layoutAttributes wrapped indent cursor attributes).1).flatMap Attribute.text)
      (settings.layoutAttributes wrapped indent cursor attributes).2 := by
  cases attributes with
  | nil => exact .refl cursor
  | cons attr rest =>
      exact (settings.passes_layoutAttribute cursor attr (settings.keepsBreakInTag attr.gap)
        (if (settings.alignAttributes && !settings.keepsBreakInTag attr.gap) = true then
          cursor.column + 1 else indent + settings.continuationIndentSize)).trans
        (settings.passes_layoutFurther wrapped _ _ rest)

/-- A start tag leads to where it ends. -/
theorem passes_layoutStartTag {tag : StartTag} (hname : '\n' ∉ tag.name) (indent : Nat)
    (cursor : Cursor) : cursor.Passes (settings.layTag tag indent cursor).text
      (settings.layoutStartTag tag indent cursor).2.2 := by
  have hstart : cursor.Passes ('<' :: tag.name) (cursor.place (1 + tag.name.length)) :=
    cursor.passes_place (by simp [hname]) (by simp [Nat.add_comm])
  have hfeeds : (settings.tagEndGap tag indent).Feeds :=
    Feeds.ite (show (lineBreak 1 indent).Feeds from Nat.zero_lt_one)
      (Feeds.ite (by trivial) (by trivial))
  have hending : ∀ cursor : Cursor, cursor.Passes tag.ending.text
      (cursor.place tag.ending.text.length) := by
    intro cursor
    refine cursor.passes_place ?_ rfl
    cases tag.ending <;> simp [Ending.text]
  have hattributes := fun wrapped cursor =>
    settings.passes_layoutAttributes wrapped indent cursor tag.attributes
  unfold layTag layoutStartTag StartTag.laid StartTag.text StartTag.body
  dsimp only
  rw [← List.cons_append, ← List.append_assoc, ← List.append_assoc]
  exact ((hstart.trans (hattributes _ _)).trans (passes_skip _ hfeeds)).trans (hending _)

theorem passes_front (before : List Char) {tag : StartTag} (hname : '\n' ∉ tag.name) (width : Nat)
    (stage : Stage) :
    stage.cursor.Passes ((settings.front before tag width stage).before.text ++
        (settings.front before tag width stage).tag.text)
      (settings.front before tag width stage).stage.cursor :=
  (settings.passes_separate _ _ _ _ _).trans (settings.passes_layoutStartTag hname _ _)

theorem begun_front (before : List Char) (tag : StartTag) (width : Nat) (stage : Stage) :
    (settings.front before tag width stage).stage.cursor.Begun :=
  begun_place _ _

theorem indent_front (before : List Char) (tag : StartTag) (width : Nat) (stage : Stage) :
    (settings.front before tag width stage).stage.flow.indent = stage.flow.indent :=
  settings.indent_separate _ _ _ _ _

theorem indent_behind (front : Front) (cursor : Cursor) (broken : Bool) :
    (front.behind cursor broken).flow.indent = front.stage.flow.indent := by
  unfold Front.behind Flow.follow
  split <;> rfl

theorem passes_arrangeClose (front : Front) (inner : Stage) {close : Option (List Char × EndTag)}
    (hclose : ∀ parted ∈ close, parted.2.Legible) :
    inner.cursor.Passes (Item.closeText (settings.arrangeClose front inner close).1)
      (settings.arrangeClose front inner close).2 := by
  cases close with
  | none => exact .refl _
  | some parted =>
      have hsolid : '\n' ∉ '<' :: '/' :: (parted.2.name ++ ['>']) := by
        obtain ⟨⟨body, -, htag⟩, -⟩ := hclose parted rfl
        have hname : ∀ c ∈ parted.2.name, Attribute.inTagName c = true := by
          rw [htag]
          exact fun c hmem => List.mem_takeWhile_imp hmem
        have hnot : '\n' ∉ parted.2.name := fun hmem => by
          have hin := hname _ hmem
          simp [Attribute.inTagName, isBlank] at hin
        simp [hnot]
      have hlength : 3 + parted.2.name.length =
          ('<' :: '/' :: (parted.2.name ++ ['>'])).length := by
        simp only [List.length_cons, List.length_append, List.length_nil]
        omega
      exact (passes_skip _ (settings.feeds_closingGap inner.flow parted.1 front.indent
        (front.ownLine || front.block) front.block)).trans (passes_place _ hsolid hlength)

theorem begun_arrangeClose (front : Front) {inner : Stage} (hbegun : inner.cursor.Begun)
    (close : Option (List Char × EndTag)) : (settings.arrangeClose front inner close).2.Begun := by
  cases close with
  | none => exact hbegun
  | some parted => exact begun_place _ _

end Settings

/-- Between two stages this text has been written, in lines of the same indent. -/
structure Stage.Passes (before : Stage) (text : List Char) (after : Stage) : Prop where
  cursor : before.cursor.Passes text after.cursor
  begun : before.cursor.Begun ∨ text ≠ [] → after.cursor.Begun
  indent : after.flow.indent = before.flow.indent

theorem Stage.Passes.refl (stage : Stage) : stage.Passes [] stage :=
  ⟨.refl _, fun hbegun => hbegun.resolve_right fun hne => hne rfl, rfl⟩

theorem Stage.Passes.trans {before between after : Stage} {first second : List Char}
    (hfirst : before.Passes first between) (hsecond : between.Passes second after) :
    before.Passes (first ++ second) after := by
  refine ⟨hfirst.cursor.trans hsecond.cursor, fun hbegun => ?_, hsecond.indent.trans hfirst.indent⟩
  rcases hbegun with hbegun | hne
  · exact hsecond.begun (.inl (hfirst.begun (.inl hbegun)))
  · by_cases hnil : second = []
    · exact hsecond.begun (.inl (hfirst.begun (.inr (by simpa [hnil] using hne))))
    · exact hsecond.begun (.inr hnil)

theorem StartTag.Fits.newline_not_mem {tag : StartTag} (hfits : tag.Fits) : '\n' ∉ tag.name := by
  intro hmem
  have hin := hfits.name _ hmem
  simp [Attribute.inTagName, isBlank] at hin

namespace Settings

variable (settings : Settings)

/-- An element leads to where it ends, given how its content does. -/
theorem passes_behind (before : List Char) {tag : StartTag} (hfits : tag.Fits) (width : Nat)
    (stage : Stage) {inside : List Char} {cursor : Cursor} (broken : Bool)
    (hinside : (settings.front before tag width stage).stage.cursor.Passes inside cursor)
    (hbegun : cursor.Begun) :
    stage.Passes ((settings.front before tag width stage).before.text ++
        ((settings.front before tag width stage).tag.text ++ inside))
      ((settings.front before tag width stage).behind cursor broken) := by
  rw [← List.append_assoc]
  exact ⟨(settings.passes_front before hfits.newline_not_mem width stage).trans hinside,
    fun _ => hbegun, (indent_behind _ _ _).trans (settings.indent_front before tag width stage)⟩

theorem passes_arrangeWords (before : List Char) {first : List Char}
    {rest : List (List Char × List Char)} (hfirst : Solid first) (hrest : Parted rest)
    (stage : Stage) :
    stage.Passes (settings.arrangeWords before first rest stage).1.text
      (settings.arrangeWords before first rest stage).2 := by
  have hgap := settings.passes_separate stage.cursor stage.flow before .inline first.length
  have hindent := settings.indent_separate stage.cursor stage.flow before .inline first.length
  unfold arrangeWords
  generalize settings.separate stage.cursor stage.flow before .inline first.length = found
    at hgap hindent
  have hword := found.2.1.passes_place hfirst.newline_not_mem rfl
  exact ⟨hgap.trans (hword.trans (settings.passes_fill _ _ hrest)),
    fun _ => settings.begun_fill _ (Cursor.begun_place _ _) _, hindent⟩

mutual

theorem passes_arrange (item : Item) (hproper : item.Proper StartTag.Fits) (stage : Stage) :
    stage.Passes (settings.arrange item stage).1.text (settings.arrange item stage).2 := by
  cases item with
  | words before first rest =>
      exact settings.passes_arrangeWords before hproper.2.1 hproper.2.2 stage
  | leaf before kind content =>
      have hne : content ≠ [] := by
        have hlast := Token.getLast?_of_fits hproper.2.1 hproper.2.2
        rintro rfl
        simp at hlast
      refine ⟨(settings.passes_separate _ _ _ _ _).trans (Cursor.passes_write _ _), fun _ => ?_, ?_⟩
      · obtain ⟨c, rest, rfl⟩ := List.exists_cons_of_ne_nil hne
        exact ⟨rfl, rfl⟩
      · have hfollow : ∀ (flow : Flow) kind, (flow.follow kind).indent = flow.indent := by
          intro flow kind
          cases kind <;> rfl
        exact (hfollow _ _).trans (settings.indent_separate _ _ _ _ _)
  | rawText before tag content close =>
      exact settings.passes_behind before hproper.2.1 _ stage false (Cursor.passes_write _ _)
        ((settings.begun_front _ _ _ _).write _)
  | element short before tag children close =>
      obtain ⟨-, hfits, -, -, halone, hchildren, hclose⟩ := hproper
      have hbegun :=
        settings.begun_front before tag (settings.leadingItems lookahead tag children) stage
      have hpasses := fun inside cursor => @passes_behind settings before tag hfits
        (settings.leadingItems lookahead tag children) stage inside cursor
      rw [arrange]
      cases hcontent : settings.contentOf tag with
      | empty =>
          obtain ⟨rfl, rfl⟩ := halone (contentOf_eq_empty_iff.mp hcontent)
          exact hpasses _ _ false (.refl _) hbegun
      | verbatim =>
          exact hpasses _ _ false (Cursor.passes_write _ _) (hbegun.write _)
      | formatted =>
          generalize settings.front before tag (settings.leadingItems lookahead tag children)
            stage = front at hbegun hpasses
          have hinner := passes_arrangeAll children hchildren ⟨front.stage.cursor, Flow.start
            (settings.childIndent front short tag.name) (.start front.block)⟩
          exact hpasses _ _ _ (hinner.cursor.trans (settings.passes_arrangeClose front _
              fun parted hparted => (hclose parted hparted).2))
            (settings.begun_arrangeClose front (hinner.begun (.inl hbegun)) close)

/-- Arranged items lead to where their text ends. -/
theorem passes_arrangeAll (items : List Item) (hproper : Item.ProperAll StartTag.Fits items)
    (stage : Stage) :
    stage.Passes (Item.textOfAll (settings.arrangeAll items stage).1)
      (settings.arrangeAll items stage).2 := by
  cases items with
  | nil => exact .refl stage
  | cons item rest =>
      exact (passes_arrange item hproper.1 stage).trans (passes_arrangeAll rest hproper.2 _)

end

end Settings

end Markup
