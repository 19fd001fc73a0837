import Mathlib.Algebra.GroupWithZero.Nat
import Markup.Plan.Nodes
import Markup.Proofs.Offsets.Words

/-!
# Gaps, words and start tags by byte offsets

While items are laid out, the blanks between them wait as a pair of byte offsets and are cut out of
the source when the next item comes, and the words of a text are reached by their indices. Main
statements: `Settings.separate?_eq`, `Settings.layoutSegments?_eq` and
`Settings.layoutStartTag?_eq`, by which all of this goes right.
-/

namespace Markup

open Markup.Text

/-! ## Blanks that wait -/

/-- Blanks of the source that wait for the next item, as the offsets they lie between if there are
any. -/
structure Pending where
  span : Option Span := none
  deriving DecidableEq, Repr, Inhabited

namespace Pending

/-- The blanks that wait, together with those between two offsets. -/
def extend (pending : Pending) (start stop : Nat) : Pending :=
  if start = stop then pending
  else
    match pending.span with
    | none => ⟨some ⟨start, stop⟩⟩
    | some span => ⟨some ⟨min span.start start, max span.stop stop⟩⟩

/-- The blanks themselves. -/
def text? (source : List Char) (pending : Pending) : Option (List Char) :=
  match pending.span with
  | none => some []
  | some span => slice? source span.start span.stop

/-- Blanks that stand behind the front of the source. -/
def behind (front blanks : List Char) : Pending :=
  if blanks = [] then {} else ⟨some ⟨byteSize front, byteSize (front ++ blanks)⟩⟩

@[simp]
theorem behind_nil (front : List Char) : behind front [] = {} := rfl

variable {source front blanks after : List Char}

theorem text?_behind (hsource : source = front ++ blanks ++ after) :
    (behind front blanks).text? source = some blanks := by
  unfold behind text?
  split_ifs with hnil
  · rw [hnil]
  · exact slice?_of_eq hsource

theorem byteSize_lt_append (front : List Char) {text : List Char} (hne : text ≠ []) :
    byteSize front < byteSize (front ++ text) := by
  obtain ⟨c, rest, rfl⟩ := List.exists_cons_of_ne_nil hne
  have hpos := c.utf8Size_pos
  rw [byteSize_append, byteSize_cons]
  omega

/-- More blanks wait behind those that wait already. -/
theorem extend_behind (front blanks more : List Char) :
    (behind front blanks).extend (byteSize (front ++ blanks)) (byteSize (front ++ blanks ++ more)) =
      behind front (blanks ++ more) := by
  unfold extend
  by_cases hmore : more = []
  · rw [hmore, List.append_nil, List.append_nil, if_pos rfl]
  · have hlt := byteSize_lt_append (front ++ blanks) hmore
    have hne : blanks ++ more ≠ [] := by simp [hmore]
    rw [if_neg (Nat.ne_of_lt hlt)]
    unfold behind
    rw [if_neg hne, ← List.append_assoc]
    by_cases hblanks : blanks = []
    · simp [hblanks]
    · have hle := byteSize_lt_append front hblanks
      rw [if_neg hblanks]
      simp only [Nat.min_eq_left (Nat.le_of_lt hle), Nat.max_eq_right (Nat.le_of_lt hlt)]

/-- Blanks that stand behind the front of the source, and none in front of them. -/
theorem extend_empty (front blanks : List Char) :
    ({} : Pending).extend (byteSize front) (byteSize (front ++ blanks)) = behind front blanks := by
  have hextend := extend_behind front [] blanks
  rwa [List.append_nil, behind_nil] at hextend

end Pending

/-! ## Gaps -/

namespace Cursor

/-- The position behind a gap, of which only what follows the last line feed is cut out. -/
def skip? (cursor : Cursor) : Gap → Option Cursor
  | .kept text => do
      let column ← columnAfter? cursor.column text
      return { cursor with
        column := column
        blank := cursor.blank || text.contains '\n'
        lines := cursor.lines + newlines text }
  | gap => some (cursor.skip gap)

/-- The position behind literal content, of which only what follows the last line feed is cut
out. -/
def write? (cursor : Cursor) : List Char → Option Cursor
  | [] => some cursor
  | c :: rest => do
      let column ← columnAfter? cursor.column (c :: rest)
      return { cursor with
        column := column
        blank := false
        fresh := false
        lines := cursor.lines + newlines (c :: rest) }

@[simp]
theorem skip?_eq (cursor : Cursor) (gap : Gap) : cursor.skip? gap = some (cursor.skip gap) := by
  cases gap with
  | nothing => rfl
  | space => rfl
  | lineBreak newlines indent => rfl
  | kept text =>
      rw [skip?, columnAfter?_eq]
      rfl

@[simp]
theorem write?_eq (cursor : Cursor) (text : List Char) :
    cursor.write? text = some (cursor.write text) := by
  cases text with
  | nil => rfl
  | cons c rest =>
      rw [write?, columnAfter?_eq]
      rfl

end Cursor

/-- The number after this one, if it is a word of 64 bits. -/
def next? (number : Nat) : Option Nat :=
  if number < 2 ^ 64 - 1 then some (number + 1) else none

namespace Settings

variable {settings : Settings}

/-- A line break in place of so many line feeds of the source, if the limit on them can be told. -/
def breakGap? (settings : Settings) (lines indent : Nat) : Option Gap := do
  let limit ← next? settings.keepBlankLines
  return .lineBreak (max 1 (min lines limit)) indent

/-- What goes between two items where blanks of the source are not simply kept. -/
def gapBetween? (settings : Settings) (cursor : Cursor) (flow : Flow) (blanks : List Char)
    (next : Following) (width : Nat) : Option (Gap × Bool) :=
  let lines := newlines blanks
  let spaced := !blanks.isEmpty
  let glued := next == .comment && !spaced
  let opportunity := spaced || flow.preceding == .start true
  if next = .block || (flow.preceding == .block && !glued) then do
    let gap ← settings.breakGap? lines flow.indent
    return (gap, false)
  else if 0 < lines && settings.keepLineBreaks then do
    let gap ← settings.breakGap? lines flow.indent
    return (gap, false)
  else if opportunity && settings.wrapsText && !cursor.blank &&
      decide (settings.rightMargin < cursor.column + (if spaced then 1 else 0) + width) then
    return (.lineBreak 1 flow.indent, true)
  else return (if spaced then .space else .nothing, false)

/-- Decides what goes in front of the next item, in place of the blanks that wait. -/
def separate? (settings : Settings) (source : List Char) (cursor : Cursor) (flow : Flow)
    (pending : Pending) (next : Following) (width : Nat) : Option (Gap × Cursor × Flow) := do
  let blanks ← pending.text? source
  if cursor.fresh then return (.nothing, cursor, flow)
  else if cursor.anchored || settings.keepWhitespaces then do
    let gap := Gap.keep blanks
    let moved ← { cursor with anchored := false }.skip? gap
    return (gap, moved, flow)
  else do
    let (gap, broken) ← settings.gapBetween? cursor flow blanks next width
    let moved ← cursor.skip? gap
    return (gap, moved, { flow with broken := flow.broken || broken })

/-- What goes in front of an end tag, in place of the blanks that wait. -/
def closingGap? (settings : Settings) (source : List Char) (inner : Flow) (pending : Pending)
    (indent : Nat) (ownLine block : Bool) : Option Gap := do
  let blanks ← pending.text? source
  let lines := newlines blanks
  if settings.keepWhitespaces then return Gap.keep blanks
  else if ownLine && (inner.blocks || inner.broken) then settings.breakGap? lines indent
  else if 0 < lines && settings.keepLineBreaks then settings.breakGap? lines indent
  else return if !blanks.isEmpty && !block then .space else .nothing

section

variable (hlimit : settings.keepBlankLines < 2 ^ 64 - 1)

include hlimit

theorem breakGap?_eq (lines indent : Nat) :
    settings.breakGap? lines indent = some (settings.breakGap lines indent) := by
  rw [breakGap?, next?, if_pos hlimit, breakGap, feedLimit_eq (Nat.lt_of_lt_of_eq hlimit rfl)]
  rfl

theorem gapBetween?_eq (cursor : Cursor) (flow : Flow) (blanks : List Char) (next : Following)
    (width : Nat) :
    settings.gapBetween? cursor flow blanks next width =
      some (settings.gapBetween cursor flow blanks next width) := by
  unfold gapBetween? gapBetween
  simp only [breakGap?_eq hlimit, Option.bind_eq_bind, Option.bind_some, Option.pure_def]
  split_ifs <;> rfl

variable {source front blanks after : List Char}

/-- The gap in front of an item is decided for the blanks that the source has there. -/
theorem separate?_eq (hsource : source = front ++ blanks ++ after) (cursor : Cursor) (flow : Flow)
    (next : Following) (width : Nat) :
    settings.separate? source cursor flow (.behind front blanks) next width =
      some (settings.separate cursor flow blanks next width) := by
  unfold separate? separate
  simp only [Pending.text?_behind hsource, gapBetween?_eq hlimit, Cursor.skip?_eq,
    Option.bind_eq_bind, Option.bind_some, Option.pure_def]
  split_ifs <;> rfl

theorem closingGap?_eq (hsource : source = front ++ blanks ++ after) (inner : Flow) (indent : Nat)
    (ownLine block : Bool) :
    settings.closingGap? source inner (.behind front blanks) indent ownLine block =
      some (settings.closingGap inner blanks indent ownLine block) := by
  unfold closingGap? closingGap
  simp only [Pending.text?_behind hsource, breakGap?_eq hlimit, Option.bind_eq_bind,
    Option.bind_some, Option.pure_def]
  split_ifs <;> rfl

end

/-! ## Words -/

/-- Index of the last word of a segment, found from a word of it on by the gaps behind the words. No
more words are looked at than the limit. -/
def lastOfSegment? (settings : Settings) (gaps : List (List Char)) (count : Nat) :
    Nat → Nat → Option Nat
  | 0, _ => none
  | limit + 1, last =>
      if last + 1 < count then do
        let blanks ← gaps[last]?
        if settings.isSoft blanks then settings.lastOfSegment? gaps count limit (last + 1)
        else return last
      else return last

/-- What a hard gap becomes. -/
def hardGap? (settings : Settings) (continuation : Nat) (blanks : List Char) : Option Gap :=
  if settings.keepWhitespaces then some (.kept blanks)
  else settings.breakGap? (newlines blanks) continuation

/-- Lays out the words of a segment that has been cut out. -/
def layoutSegment? (settings : Settings) (continuation : Nat) (cursor : Cursor) :
    List Nat → Option (List Gap × Cursor × Bool)
  | [] => none
  | first :: rest =>
      let breaks := settings.segmentBreaks cursor.column continuation (first :: rest)
      some (placeWords continuation breaks 1 (cursor.place first) rest)

/-- Lays out words from the start of a segment on, which the first index is that of: the widths of
all words, and the gaps behind them. No more segments are laid out than the limit. -/
def layoutSegments? (settings : Settings) (continuation : Nat) (widths : List Nat)
    (gaps : List (List Char)) : Nat → Nat → Cursor → Option (List Gap × Cursor × Bool)
  | 0, _, _ => none
  | limit + 1, first, cursor => do
      let last ← settings.lastOfSegment? gaps widths.length (widths.length + 1) first
      let segment ← range? widths first (last + 1)
      let (laid, after, broken) ← settings.layoutSegment? continuation cursor segment
      if widths.length ≤ last + 1 then return (laid, after, broken)
      else do
        let blanks ← gaps[last]?
        let gap ← settings.hardGap? continuation blanks
        let moved ← after.skip? gap
        let (others, final, later) ←
          settings.layoutSegments? continuation widths gaps limit (last + 1) moved
        return (laid ++ gap :: others, final, broken || !settings.keepWhitespaces || later)

/-- The last word of a segment is found where the soft gaps end. -/
theorem lastOfSegment?_eq {gaps : List (List Char)} (rest : List (List Char × Nat)) :
    ∀ {front : List (List Char)} {limit : Nat}, gaps = front ++ rest.map (·.1) →
      rest.length < limit →
      settings.lastOfSegment? gaps (front.length + 1 + rest.length) limit front.length =
        some (front.length +
          (rest.takeWhile fun (blanks, _) => settings.isSoft blanks).length) := by
  induction rest with
  | nil =>
      intro front limit hgaps hlimit
      obtain ⟨limit, rfl⟩ := Nat.exists_eq_add_one_of_ne_zero (Nat.ne_zero_of_lt hlimit)
      rw [lastOfSegment?, if_neg (by simp)]
      rfl
  | cons part rest ih =>
      intro front limit hgaps hlimit
      obtain ⟨blanks, width⟩ := part
      obtain ⟨limit, rfl⟩ := Nat.exists_eq_add_one_of_ne_zero (Nat.ne_zero_of_lt hlimit)
      have hblanks : gaps[front.length]? = some blanks := by simp [hgaps]
      have hnext : gaps = (front ++ [blanks]) ++ rest.map (·.1) := by simp [hgaps]
      have hshorter : rest.length < limit := by simpa using hlimit
      have hrest := ih hnext hshorter
      rw [List.length_append, List.length_singleton] at hrest
      have hcount : front.length + 1 + ((blanks, width) :: rest).length =
          front.length + 1 + 1 + rest.length := by
        rw [List.length_cons]
        omega
      rw [lastOfSegment?, hcount, if_pos (by omega), hblanks, hrest]
      simp only [Option.bind_eq_bind, Option.bind_some, List.takeWhile_cons]
      split
      next =>
        rw [List.length_cons]
        congr 1
        omega
      next => rfl

theorem hardGap?_eq (hlimit : settings.keepBlankLines < 2 ^ 64 - 1) (continuation : Nat)
    (blanks : List Char) :
    settings.hardGap? continuation blanks = some (settings.hardGap continuation blanks) := by
  unfold hardGap? hardGap
  rw [breakGap?_eq hlimit]
  split_ifs <;> rfl

/-- A segment is found and cut out by the indices of its words. -/
theorem exists_segment {widths frontWidths : List Nat} {gaps frontGaps : List (List Char)}
    {first : Nat} {rest soft : List (List Char × Nat)}
    (hwidths : widths = frontWidths ++ first :: rest.map (·.2))
    (hgaps : gaps = frontGaps ++ rest.map (·.1)) (hlength : frontGaps.length = frontWidths.length)
    (hsoft : (rest.takeWhile fun (blanks, _) => settings.isSoft blanks) = soft) :
    settings.lastOfSegment? gaps widths.length (widths.length + 1) frontWidths.length =
        some (frontWidths.length + soft.length) ∧
      range? widths frontWidths.length (frontWidths.length + soft.length + 1) =
        some (first :: soft.map (·.2)) := by
  have htotal : widths.length = frontGaps.length + 1 + rest.length := by
    rw [hwidths, hlength, List.length_append, List.length_cons, List.length_map]
    omega
  have hmany : rest.length < widths.length + 1 := by omega
  have hlast := @lastOfSegment?_eq settings gaps rest _ _ hgaps hmany
  rw [← htotal, hlength, hsoft] at hlast
  refine ⟨hlast, ?_⟩
  have hrange := range?_append frontWidths (first :: soft.map (·.2))
    ((rest.dropWhile fun (blanks, _) => settings.isSoft blanks).map (·.2))
  rw [List.cons_append, ← List.map_append, ← hsoft, List.takeWhile_append_dropWhile, hsoft,
    ← hwidths, List.length_cons, List.length_map, ← Nat.add_assoc] at hrange
  exact hrange

/-- Words that are reached by their indices are laid out as those that are taken off one by one. -/
theorem layoutSegments?_eq (hlimit : settings.keepBlankLines < 2 ^ 64 - 1) (continuation : Nat)
    {widths : List Nat} {gaps : List (List Char)} (cursor : Cursor) (first : Nat)
    (rest : List (List Char × Nat)) :
    ∀ {frontWidths : List Nat} {frontGaps : List (List Char)} {limit : Nat},
      widths = frontWidths ++ first :: rest.map (·.2) → gaps = frontGaps ++ rest.map (·.1) →
        frontGaps.length = frontWidths.length → rest.length < limit →
          settings.layoutSegments? continuation widths gaps limit frontWidths.length cursor =
            some (settings.layoutWords continuation cursor first rest) := by
  -- the induction is on segments: words up to the next gap at which the line has to end
  fun_induction layoutWords settings continuation cursor first rest with
  | case1 cursor first rest soft segment breaks =>
      rename_i hplaced hrest
      intro frontWidths frontGaps limit hwidths hgaps hlength hcount
      obtain ⟨limit, rfl⟩ := Nat.exists_eq_add_one_of_ne_zero (Nat.ne_zero_of_lt hcount)
      obtain ⟨hlast, hsegment⟩ := exists_segment hwidths hgaps hlength (rfl : _ = soft)
      have hwhole : soft = rest := by
        have hparts := List.takeWhile_append_dropWhile
          (p := fun (x : List Char × Nat) => settings.isSoft x.1) (l := rest)
        rwa [hrest, List.append_nil] at hparts
      have hend : widths.length ≤ frontWidths.length + soft.length + 1 := by
        rw [hwhole, hwidths, List.length_append, List.length_cons, List.length_map]
        omega
      rw [layoutSegments?, hlast]
      simp only [Option.bind_eq_bind, Option.bind_some, hsegment, layoutSegment?]
      rw [if_pos hend]
      exact congrArg some hplaced
  | case2 cursor first rest soft segment breaks laid after broken hplaced blanks width more
      hrest gap =>
      rename_i hothers ih
      intro frontWidths frontGaps limit hwidths hgaps hlength hcount
      obtain ⟨limit, rfl⟩ := Nat.exists_eq_add_one_of_ne_zero (Nat.ne_zero_of_lt hcount)
      obtain ⟨hlast, hsegment⟩ := exists_segment hwidths hgaps hlength (rfl : _ = soft)
      have hwhole : rest = soft ++ (blanks, width) :: more := by
        have hparts := List.takeWhile_append_dropWhile
          (p := fun (x : List Char × Nat) => settings.isSoft x.1) (l := rest)
        rw [hrest] at hparts
        exact hparts.symm
      have hmore : ¬widths.length ≤ frontWidths.length + soft.length + 1 := by
        rw [hwidths, hwhole]
        simp only [List.length_append, List.length_cons, List.length_map]
        omega
      have hblanks : gaps[frontWidths.length + soft.length]? = some blanks := by
        rw [hgaps, hwhole, ← hlength]
        simp
      have hnext : settings.layoutSegments? continuation widths gaps limit
          (frontWidths.length + soft.length + 1) (after.skip gap) =
            some (settings.layoutWords continuation (after.skip gap) width more) := by
        have hwidths' : widths = frontWidths ++ first :: soft.map (·.2) ++
            width :: more.map (·.2) := by
          simp [hwidths, hwhole]
        have hgaps' : gaps = frontGaps ++ (soft.map (·.1) ++ [blanks]) ++ more.map (·.1) := by
          simp [hgaps, hwhole]
        have hcount' : more.length < limit := by
          rw [hwhole, List.length_append, List.length_cons] at hcount
          omega
        have hsegments := ih hwidths' hgaps' (by simp [hlength]) hcount'
        rwa [List.length_append, List.length_cons, List.length_map, ← Nat.add_assoc] at hsegments
      rw [layoutSegments?, hlast]
      simp only [Option.bind_eq_bind, Option.bind_some, hsegment, layoutSegment?]
      rw [if_neg hmore, hplaced, hblanks]
      simp only [Option.bind_some, hardGap?_eq hlimit, Cursor.skip?_eq]
      rw [hnext, hothers]
      rfl

/-! ## Start tags -/

/-- The position behind an attribute that is written with the given quotes. -/
def writeAttribute? (cursor : Cursor) (attr : Attribute) (quote : Option Quote) :
    Option Cursor := do
  let named ← cursor.write? attr.name
  match attr.value with
  | none => return named
  | some value => do
      let width := (quoteText quote).length
      let written ← ((named.place 1).place width).write? value.raw
      return written.place width

/-- Lays out one attribute at the given column of alignment. -/
def layoutAttribute? (settings : Settings) (cursor : Cursor) (attr : Attribute) (broken : Bool)
    (aligned : Nat) : Option (AttributeLayout × Cursor) := do
  let gap := attributeGap broken aligned
  let quote := settings.quoteFor attr
  let moved ← cursor.skip? gap
  let written ← writeAttribute? moved attr quote
  return (⟨gap, quote⟩, written)

/-- Lays out the attributes behind the first one. -/
def layoutFurther? (settings : Settings) (wrapped : Bool) (aligned : Nat) :
    Cursor → List Attribute → Option (List AttributeLayout × Cursor)
  | cursor, [] => some ([], cursor)
  | cursor, attr :: rest => do
      let broken := settings.keepsBreakInTag attr.gap || wrapped
      let (layout, after) ← settings.layoutAttribute? cursor attr broken aligned
      let (layouts, final) ← settings.layoutFurther? wrapped aligned after rest
      return (layout :: layouts, final)

/-- Lays out the attributes of a tag. -/
def layoutAttributes? (settings : Settings) (wrapped : Bool) (indent : Nat) (cursor : Cursor) :
    List Attribute → Option (List AttributeLayout × Cursor)
  | [] => some ([], cursor)
  | attr :: rest => do
      let broken := settings.keepsBreakInTag attr.gap
      let aligned :=
        if settings.alignAttributes && !broken then cursor.column + 1
        else indent + settings.continuationIndentSize
      let (layout, after) ← settings.layoutAttribute? cursor attr broken aligned
      let (layouts, final) ← settings.layoutFurther? wrapped aligned after rest
      return (layout :: layouts, final)

/-- Lays out a start tag that begins at the cursor. -/
def layoutStartTag? (settings : Settings) (tag : StartTag) (indent : Nat) (cursor : Cursor) :
    Option (List AttributeLayout × Gap × Cursor) := do
  let named := cursor.place (1 + tag.name.length)
  let overflow := decide (settings.rightMargin < named.column + settings.restOfTagWidth tag)
  let (layouts, attributed) ←
    settings.layoutAttributes? (settings.wrapsAttributes overflow) indent named tag.attributes
  let gap := settings.tagEndGap tag indent
  let moved ← attributed.skip? gap
  return (layouts, gap, moved.place tag.ending.text.length)

theorem writeAttribute?_eq (cursor : Cursor) (attr : Attribute) (quote : Option Quote) :
    writeAttribute? cursor attr quote = some (writeAttribute cursor attr quote) := by
  unfold writeAttribute? writeAttribute
  cases attr.value with
  | none => simp
  | some value => simp

theorem layoutAttribute?_eq (cursor : Cursor) (attr : Attribute) (broken : Bool) (aligned : Nat) :
    settings.layoutAttribute? cursor attr broken aligned =
      some (settings.layoutAttribute cursor attr broken aligned) := by
  simp [layoutAttribute?, layoutAttribute, writeAttribute?_eq]

theorem layoutFurther?_eq (wrapped : Bool) (aligned : Nat) (cursor : Cursor)
    (attributes : List Attribute) :
    settings.layoutFurther? wrapped aligned cursor attributes =
      some (settings.layoutFurther wrapped aligned cursor attributes) := by
  induction attributes generalizing cursor with
  | nil => rfl
  | cons attr rest ih => simp [layoutFurther?, layoutFurther, layoutAttribute?_eq, ih]

theorem layoutAttributes?_eq (wrapped : Bool) (indent : Nat) (cursor : Cursor)
    (attributes : List Attribute) :
    settings.layoutAttributes? wrapped indent cursor attributes =
      some (settings.layoutAttributes wrapped indent cursor attributes) := by
  cases attributes with
  | nil => rfl
  | cons attr rest =>
      simp [layoutAttributes?, layoutAttributes, layoutAttribute?_eq, layoutFurther?_eq]

/-- Every cut that following the column through a start tag makes goes right. -/
theorem layoutStartTag?_eq (tag : StartTag) (indent : Nat) (cursor : Cursor) :
    settings.layoutStartTag? tag indent cursor =
      some (settings.layoutStartTag tag indent cursor) := by
  simp [layoutStartTag?, layoutStartTag, layoutAttributes?_eq]

end Settings

end Markup
