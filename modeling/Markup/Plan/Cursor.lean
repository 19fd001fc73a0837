import Markup.Text.Blank
import Markup.Plan.Basic

/-!
# The output position

Planning follows the output without writing it. The cursor holds all that decisions depend on: the
column, whether the line has only blanks so far, whether anything has been written at all, and how
many lines have been ended.
-/

namespace Markup

open Markup.Text

structure Cursor where
  column : Nat
  /-- Nothing but indentation on the current line. -/
  blank : Bool
  /-- Nothing written at all yet. -/
  fresh : Bool
  /-- The next gap has to reproduce the source. -/
  anchored : Bool
  lines : Nat
  deriving DecidableEq, Repr, Inhabited

namespace Cursor

/-- The start of the output. -/
def origin : Cursor :=
  ⟨0, true, true, false, 0⟩

/-- The position after a gap. -/
def skip (cursor : Cursor) : Gap → Cursor
  | .nothing => cursor
  | .space => { cursor with column := cursor.column + 1 }
  | .lineBreak newlines indent =>
      { cursor with column := indent, blank := true, lines := cursor.lines + newlines }
  | .kept text =>
      { cursor with
        column := columnAfter cursor.column text
        blank := cursor.blank || text.contains '\n'
        lines := cursor.lines + newlines text }

/-- The position after content that takes so many columns. -/
def place (cursor : Cursor) (width : Nat) : Cursor :=
  { cursor with column := cursor.column + width, blank := false, fresh := false }

/-- The position after literal content, which may have several lines. -/
def write (cursor : Cursor) : List Char → Cursor
  | [] => cursor
  | c :: rest =>
      { cursor with
        column := columnAfter cursor.column (c :: rest)
        blank := false
        fresh := false
        lines := cursor.lines + newlines (c :: rest) }

end Cursor

end Markup
