import Markup.Proofs.Plan.Filling

/-!
# Gaps that layout makes

Where blanks are not kept, every gap is of the layout's own making: nothing, a space, or a line
break, with no more blank lines than are kept, to an indent that is known beforehand. Main
statements: `Settings.regular_separate` and `Settings.regular_layoutWords`.
-/

namespace Markup

open Markup.Text

namespace Settings

/-- Nothing, a space, or a line break to this indent with no more blank lines than are kept. -/
def Regular (settings : Settings) (indent : Nat) : Gap → Prop
  | .nothing => True
  | .space => True
  | .lineBreak newlines column =>
      1 ≤ newlines ∧ newlines ≤ settings.keepBlankLines + 1 ∧ column = indent
  | .kept _ => False

variable {settings : Settings} {indent : Nat}

theorem Regular.ite {condition : Prop} [Decidable condition] {first second : Gap}
    (hfirst : settings.Regular indent first) (hsecond : settings.Regular indent second) :
    settings.Regular indent (if condition then first else second) := by
  split
  next => exact hfirst
  next => exact hsecond

/-- The indent of a line break. -/
theorem Regular.indent_eq {gap : Gap} (hregular : settings.Regular indent gap)
    {newlines column : Nat} (hgap : gap = .lineBreak newlines column) : column = indent := by
  subst hgap
  exact hregular.2.2

theorem Regular.blank {gap : Gap} (hregular : settings.Regular indent gap) : gap.Blank := by
  cases gap with
  | nothing => exact Gap.blank_nothing
  | space => exact Gap.blank_space
  | lineBreak newlines column => exact Gap.blank_lineBreak newlines column
  | kept text => exact hregular.elim

variable (settings)

theorem regular_lineBreak (indent : Nat) : settings.Regular indent (.lineBreak 1 indent) :=
  ⟨Nat.le_refl 1, Nat.le_add_left 1 _, rfl⟩

theorem regular_breakGap (lines indent : Nat) :
    settings.Regular indent (settings.breakGap lines indent) :=
  ⟨Nat.le_max_left 1 _, Nat.max_le.mpr ⟨Nat.le_add_left 1 _,
    Nat.le_trans (Nat.min_le_right _ _) settings.feedLimit_le⟩, rfl⟩

/-! ## Between items -/

theorem regular_gapBetween (cursor : Cursor) (flow : Flow) (blanks : List Char) (next : Following)
    (width : Nat) :
    settings.Regular flow.indent (settings.gapBetween cursor flow blanks next width).1 := by
  unfold gapBetween
  simp only [apply_ite Prod.fst]
  have hbreak := settings.regular_breakGap (newlines blanks) flow.indent
  exact hbreak.ite (hbreak.ite ((settings.regular_lineBreak _).ite (.ite trivial trivial)))

/-- The gap in front of an item breaks the line to the indent of the flow. -/
theorem regular_separate (hkeep : settings.keepWhitespaces = false) {cursor : Cursor}
    (hanchored : cursor.anchored = false) (flow : Flow) (blanks : List Char) (next : Following)
    (width : Nat) :
    settings.Regular flow.indent (settings.separate cursor flow blanks next width).1 := by
  unfold separate
  rw [hanchored, hkeep]
  split
  next => trivial
  next => exact settings.regular_gapBetween cursor flow blanks next width

theorem regular_closingGap (hkeep : settings.keepWhitespaces = false) (inner : Flow)
    (blanks : List Char) (indent : Nat) (ownLine block : Bool) :
    settings.Regular indent (settings.closingGap inner blanks indent ownLine block) := by
  unfold closingGap
  rw [hkeep]
  have hbreak := settings.regular_breakGap (newlines blanks) indent
  exact hbreak.ite (hbreak.ite (.ite trivial trivial))

theorem regular_layoutEnding (hkeep : settings.keepWhitespaces = false) (heading : Heading)
    (endTag : Option EndTag) (inner : Progress) :
    settings.Regular heading.indent (settings.layoutEnding heading endTag inner).endTag := by
  cases endTag with
  | none => trivial
  | some tag => exact settings.regular_closingGap hkeep _ _ _ _ _

theorem finalGap_eq (hkeep : settings.keepWhitespaces = false) (blanks : List Char) :
    settings.finalGap blanks = .nothing ∨ settings.finalGap blanks = .lineBreak 1 0 := by
  unfold finalGap
  rw [hkeep]
  split
  next hkept => cases hkept
  next =>
    split
    next => exact .inr rfl
    next => exact .inl rfl

/-! ## In start tags -/

theorem regular_attributeGap (broken : Bool) (aligned : Nat) :
    settings.Regular aligned (attributeGap broken aligned) :=
  (settings.regular_lineBreak aligned).ite trivial

theorem regular_tagEndGap (tag : StartTag) (indent : Nat) :
    settings.Regular indent (settings.tagEndGap tag indent) :=
  (settings.regular_lineBreak indent).ite (.ite trivial trivial)

/-- In front of every attribute there is a gap that is regular for some indent. -/
theorem regular_layoutStartTag (tag : StartTag) (indent : Nat) (cursor : Cursor) :
    ∀ layout ∈ (settings.layoutStartTag tag indent cursor).1,
      ∃ aligned, settings.Regular aligned layout.gap := by
  have hfurther : ∀ (wrapped : Bool) (aligned : Nat) (cursor : Cursor)
      (attributes : List Attribute),
        ∀ layout ∈ (settings.layoutFurther wrapped aligned cursor attributes).1,
        settings.Regular aligned layout.gap := by
    intro wrapped aligned cursor attributes
    induction attributes generalizing cursor with
    | nil => simp [layoutFurther]
    | cons attr rest ih =>
        intro layout hmem
        rcases List.mem_cons.mp hmem with rfl | hmore
        · exact settings.regular_attributeGap _ aligned
        · exact ih _ layout hmore
  unfold layoutStartTag layoutAttributes
  cases tag.attributes with
  | nil => simp
  | cons attr rest =>
      intro layout hmem
      rcases List.mem_cons.mp hmem with rfl | hmore
      · exact ⟨_, settings.regular_attributeGap _ _⟩
      · exact ⟨_, hfurther _ _ _ _ layout hmore⟩

/-! ## Between words -/

theorem regular_wordGap (hkeep : settings.keepWhitespaces = false) (continuation : Nat)
    (cursor : Cursor) (blanks : List Char) (width : Nat) :
    settings.Regular continuation (settings.wordGap continuation cursor blanks width).1 := by
  unfold wordGap hardGap
  rw [hkeep]
  split
  next =>
    split
    next => exact settings.regular_lineBreak continuation
    next => trivial
  next => exact settings.regular_breakGap (newlines blanks) continuation

/-- The gaps between words break lines to the indent of the further lines. -/
theorem regular_layoutWords (hkeep : settings.keepWhitespaces = false) (continuation : Nat)
    (cursor : Cursor) (first : Nat) (rest : List (List Char × Nat)) :
    ∀ gap ∈ (settings.layoutWords continuation cursor first rest).1,
      settings.Regular continuation gap := by
  rw [layoutWords_eq_fill]
  generalize cursor.place first = cursor
  induction rest generalizing cursor with
  | nil => simp [fill]
  | cons head others ih =>
      obtain ⟨blanks, width⟩ := head
      intro gap hmem
      rcases List.mem_cons.mp hmem with rfl | hmore
      · exact settings.regular_wordGap hkeep continuation cursor blanks width
      · exact ih _ gap hmore

end Settings

end Markup
