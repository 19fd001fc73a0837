import Markup.Text.Words
import Markup.Plan.Line
import Markup.Plan.Flow

/-!
# Laying out the words of a text

The gaps between words are soft or hard. Hard gaps are kept as they are, or as line breaks; they
part the text into segments, and each segment is filled by itself.
-/

namespace Markup

open Markup.Text

namespace Settings

/-- Whether blanks between two words may become a space or a line break as it fits. -/
def isSoft (settings : Settings) (blanks : List Char) : Bool :=
  !settings.keepWhitespaces && !(settings.keepLineBreaksInText && 0 < newlines blanks)

/-- Which of the words of a segment begin a new line. -/
def segmentBreaks (settings : Settings) (start continuation : Nat) (widths : List Nat) : List Nat :=
  if settings.wrapsText then breakPoints widths start settings.rightMargin continuation else []

/-- Lays out the words of a segment behind the first one, given the index of the next word and the
indices of those that begin a new line. The last result tells whether a line was broken. -/
def placeWords (continuation : Nat) (breaks : List Nat) :
    Nat → Cursor → List Nat → List Gap × Cursor × Bool
  | _, cursor, [] => ([], cursor, false)
  | index, cursor, width :: rest =>
      let broken := breaks.contains index
      let gap : Gap := if broken then .lineBreak 1 continuation else .space
      let (gaps, after, more) :=
        placeWords continuation breaks (index + 1) ((cursor.skip gap).place width) rest
      (gap :: gaps, after, broken || more)

/-- What a hard gap becomes. -/
def hardGap (settings : Settings) (continuation : Nat) (blanks : List Char) : Gap :=
  if settings.keepWhitespaces then .kept blanks
  else settings.breakGap (newlines blanks) continuation

/-- Lays out words from the start of a segment on: the width of its first word, and the blanks in
front of each further word with the width of that word. -/
def layoutWords (settings : Settings) (continuation : Nat) (cursor : Cursor) (first : Nat)
    (rest : List (List Char × Nat)) : List Gap × Cursor × Bool :=
  let soft := rest.takeWhile fun (blanks, _) => settings.isSoft blanks
  let widths := soft.map (·.2)
  let breaks := settings.segmentBreaks cursor.column continuation (first :: widths)
  let (gaps, after, broken) := placeWords continuation breaks 1 (cursor.place first) widths
  match _hrest : rest.dropWhile fun (blanks, _) => settings.isSoft blanks with
  | [] => (gaps, after, broken)
  | (blanks, width) :: more =>
      let gap := settings.hardGap continuation blanks
      let (others, final, later) :=
        settings.layoutWords continuation (after.skip gap) width more
      (gaps ++ gap :: others, final, broken || !settings.keepWhitespaces || later)
termination_by rest.length
decreasing_by
  have hwhole := congrArg List.length (List.takeWhile_append_dropWhile
    (p := fun x : List Char × Nat => settings.isSoft x.1) (l := rest))
  have hdrop := congrArg List.length _hrest
  simp only [List.length_append, List.length_cons] at hwhole hdrop
  omega

end Settings

end Markup
