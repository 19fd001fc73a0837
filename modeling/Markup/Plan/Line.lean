/-!
# Greedy line filling

Words are laid down from left to right with one column between them, and a line is broken before a
word that would end beyond the margin. A word at the start of a line is laid down however wide it
is. Columns are numbers of any size where texts are laid out, and machine words, whose sums wrap
around, for whoever gives widths of their own.
-/

namespace Markup

/-- A line being filled: the column reached, the margin, the column at which further lines start,
and whether nothing has been laid down on this line yet. -/
structure Line (α : Type := Nat) where
  position : α
  margin : α
  continuation : α
  empty : Bool
  deriving DecidableEq, Repr, Inhabited

namespace Line

section

variable {α : Type} [Add α] [OfNat α 0] [OfNat α 1] [LE α] [DecidableLE α]

def start (position margin continuation : α) : Line α :=
  ⟨position, margin, continuation, true⟩

/-- Whether a word of this width still fits, behind a gap of so many columns. -/
def fits (line : Line α) (gap width : α) : Bool :=
  decide (line.position + gap + width ≤ line.margin)

/-- Lays down a word that is glued to what precedes it. -/
def addAtomic (line : Line α) (width : α) : Line α :=
  { line with position := line.position + width, empty := false }

/-- Goes to a new line. -/
def wrapLine (line : Line α) : Line α :=
  { line with position := line.continuation, empty := true }

/-- Whether the line has to be broken before a word of this width. -/
def breaksBefore (line : Line α) (width : α) : Bool :=
  !line.empty && !line.fits 1 width

/-- Lays down a word with a space in front of it, on a new line if it does not fit. -/
def addWord (line : Line α) (width : α) : Line α :=
  if line.breaksBefore width then line.wrapLine.addAtomic width
  else { line with position := line.position + if line.empty then 0 else 1 }.addAtomic width

/-- For each of the words that follow on a line, whether the line is broken before it. -/
def breaks (line : Line α) : List α → List Bool
  | [] => []
  | width :: rest => line.breaksBefore width :: (line.addWord width).breaks rest

/-- The indices of the words in front of which the line is broken, where the first of the words that
follow has the index `index`. -/
def breakIndices (line : Line α) (index : Nat) (rest : List α) : List Nat :=
  ((line.breaks rest).zipIdx index).filterMap fun (broken, index) =>
    if broken then some index else none

variable {line : Line α} {width : α}

@[simp]
theorem addWord_margin : (line.addWord width).margin = line.margin := by
  unfold addWord
  split <;> rfl

@[simp]
theorem addWord_continuation : (line.addWord width).continuation = line.continuation := by
  unfold addWord
  split <;> rfl

@[simp]
theorem addWord_empty : (line.addWord width).empty = false := by
  unfold addWord
  split <;> rfl

theorem addWord_position_of_break (hbreak : line.breaksBefore width = true) :
    (line.addWord width).position = line.continuation + width := by
  rw [addWord, if_pos hbreak]
  rfl

theorem addWord_position (hbegun : line.empty = false) (hfits : line.breaksBefore width ≠ true) :
    (line.addWord width).position = line.position + 1 + width := by
  rw [addWord, if_neg hfits, hbegun]
  rfl

end

theorem breaksBefore_iff {line : Line} {width : Nat} (hbegun : line.empty = false) :
    line.breaksBefore width = true ↔ line.margin < line.position + 1 + width := by
  simp [breaksBefore, fits, hbegun]

end Line

/-- For words of the given widths, of which the first is laid down at column `start` in any case,
the indices of those that begin a new line. -/
def breakPoints {α : Type} [Add α] [OfNat α 0] [OfNat α 1] [LE α] [DecidableLE α]
    (widths : List α) (start margin continuation : α) : List Nat :=
  match widths with
  | [] => []
  | first :: rest => ((Line.start start margin continuation).addAtomic first).breakIndices 1 rest

/-- The same for widths and columns that are machine words. -/
def wrap (widths : List Nat) (start margin continuation : Nat) : List Nat :=
  breakPoints (widths.map UInt64.ofNat) (.ofNat start) (.ofNat margin) (.ofNat continuation)

end Markup
