import Markup.Text.Blank
import Markup.Settings.Basic
import Markup.Plan.Cursor

/-!
# Gaps between items

The children of an element, or of the document, flow one after the other. The gap between two items
depends on their kinds, on the blanks that the source has between them, and on whether the next
item still fits.
-/

namespace Markup

open Markup.Text

/-- What precedes an item: the start of its container, which is a block or is not, or another
item. -/
inductive Preceding where
  | start (block : Bool)
  | block
  | inline
  deriving DecidableEq, Repr, Inhabited

/-- The kind of an item as far as the gap in front of it is concerned. -/
inductive Following where
  | block
  | inline
  | comment
  deriving DecidableEq, Repr, Inhabited

/-- A sequence of items being laid out: the indent of its lines, the item laid out last, whether a
line was broken inside it, by wrapping or by a line break within text, and whether a block appeared
in it. -/
structure Flow where
  indent : Nat
  preceding : Preceding
  broken : Bool
  blocks : Bool
  deriving DecidableEq, Repr, Inhabited

namespace Flow

def start (indent : Nat) (preceding : Preceding) : Flow :=
  ⟨indent, preceding, false, false⟩

/-- The flow behind one more item. -/
def follow (flow : Flow) : Following → Flow
  | .block => { flow with preceding := .block, blocks := true }
  | _ => { flow with preceding := .inline }

end Flow

namespace Settings

/-- The most line feeds that a break keeps: one more than blank lines are kept. The sum is one of
machine words, so the greatest number of blank lines leaves room for no line feed. -/
def feedLimit (settings : Settings) : Nat :=
  (settings.keepBlankLines + 1) % UInt64.size

theorem feedLimit_le (settings : Settings) : settings.feedLimit ≤ settings.keepBlankLines + 1 :=
  Nat.mod_le _ _

theorem feedLimit_eq {settings : Settings} (hlimit : settings.keepBlankLines < UInt64.size - 1) :
    settings.feedLimit = settings.keepBlankLines + 1 :=
  Nat.mod_eq_of_lt (Nat.add_lt_of_lt_sub hlimit)

/-- A line break in place of so many line feeds of the source: at least one, and no more blank
lines than are kept. -/
def breakGap (settings : Settings) (lines indent : Nat) : Gap :=
  .lineBreak (max 1 (min lines settings.feedLimit)) indent

/-- What goes between two items where blanks of the source are not simply kept, and whether a line
was broken to make the next item fit. The width is that of the leading part of the next item. -/
def gapBetween (settings : Settings) (cursor : Cursor) (flow : Flow) (blanks : List Char)
    (next : Following) (width : Nat) : Gap × Bool :=
  let lines := newlines blanks
  let spaced := !blanks.isEmpty
  let glued := next == .comment && !spaced
  let opportunity := spaced || flow.preceding == .start true
  if next = .block || (flow.preceding == .block && !glued) then
    (settings.breakGap lines flow.indent, false)
  else if 0 < lines && settings.keepLineBreaks then
    (settings.breakGap lines flow.indent, false)
  else if opportunity && settings.wrapsText && !cursor.blank &&
      decide (settings.rightMargin < cursor.column + (if spaced then 1 else 0) + width) then
    (.lineBreak 1 flow.indent, true)
  else (if spaced then .space else .nothing, false)

/-- Decides what goes in front of the next item, and moves to it. Nothing goes in front of the very
first item, and blanks are kept behind an anchor or where the settings keep them. -/
def separate (settings : Settings) (cursor : Cursor) (flow : Flow) (blanks : List Char)
    (next : Following) (width : Nat) : Gap × Cursor × Flow :=
  if cursor.fresh then (.nothing, cursor, flow)
  else if cursor.anchored || settings.keepWhitespaces then
    let gap := Gap.keep blanks
    (gap, { cursor with anchored := false }.skip gap, flow)
  else
    let (gap, broken) := settings.gapBetween cursor flow blanks next width
    (gap, cursor.skip gap, { flow with broken := flow.broken || broken })

/-- What goes in front of an end tag, given the flow of the content. -/
def closingGap (settings : Settings) (inner : Flow) (blanks : List Char) (indent : Nat)
    (ownLine block : Bool) : Gap :=
  let lines := newlines blanks
  if settings.keepWhitespaces then Gap.keep blanks
  else if ownLine && (inner.blocks || inner.broken) then settings.breakGap lines indent
  else if 0 < lines && settings.keepLineBreaks then settings.breakGap lines indent
  else if !blanks.isEmpty && !block then .space
  else .nothing

end Settings

end Markup
