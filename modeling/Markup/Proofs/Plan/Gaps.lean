import Markup.Proofs.Text.Blank
import Markup.Plan.Nodes

/-!
# Gaps are blank

Every gap that is planned stands for blanks: for a space or a line break of its own making, or for
blanks that the source has there. There is one gap in front of each attribute, and one between any
two words.
-/

namespace Markup

open Markup.Text

namespace Gap

/-- A gap that stands for blanks, or for nothing. -/
def Blank (gap : Gap) : Prop :=
  allBlank gap.text = true

/-- Whether a gap is a line break of the layout's own. -/
def breaksLine : Gap → Bool
  | lineBreak _ _ => true
  | _ => false

theorem blank_nothing : nothing.Blank := rfl

theorem blank_space : space.Blank := rfl

theorem blank_lineBreak (newlines indent : Nat) : (lineBreak newlines indent).Blank := by
  simp [Blank, text, allBlank_replicate, isBlank]

theorem Blank.ite {condition : Prop} [Decidable condition] {first second : Gap}
    (hfirst : first.Blank) (hsecond : second.Blank) :
    (if condition then first else second).Blank := by
  split
  next => exact hfirst
  next => exact hsecond

theorem blank_kept {blanks : List Char} (hblank : allBlank blanks = true) : (kept blanks).Blank :=
  hblank

theorem text_keep (blanks : List Char) : (keep blanks).text = blanks := by
  cases blanks <;> rfl

theorem blank_keep {blanks : List Char} (hblank : allBlank blanks = true) :
    (keep blanks).Blank := by
  rw [Blank, text_keep]
  exact hblank

end Gap

namespace Settings

open Gap

variable (settings : Settings)

/-! ## Between items -/

theorem blank_gapBetween (cursor : Cursor) (flow : Flow) (blanks : List Char) (next : Following)
    (width : Nat) : (settings.gapBetween cursor flow blanks next width).1.Blank := by
  unfold gapBetween breakGap
  simp only [apply_ite Prod.fst]
  have hspaced : (if (!blanks.isEmpty) = true then space else nothing : Gap).Blank :=
    blank_space.ite blank_nothing
  exact (blank_lineBreak _ _).ite
    ((blank_lineBreak _ _).ite ((blank_lineBreak _ _).ite hspaced))

theorem blank_separate (cursor : Cursor) (flow : Flow) {blanks : List Char} (next : Following)
    (width : Nat) (hblank : allBlank blanks = true) :
    (settings.separate cursor flow blanks next width).1.Blank := by
  unfold separate
  split
  next => exact blank_nothing
  next =>
    split
    next => exact blank_keep hblank
    next => exact settings.blank_gapBetween _ _ _ _ _

theorem blank_closingGap (inner : Flow) {blanks : List Char} (indent : Nat) (ownLine block : Bool)
    (hblank : allBlank blanks = true) :
    (settings.closingGap inner blanks indent ownLine block).Blank := by
  unfold closingGap breakGap
  exact (blank_keep hblank).ite ((blank_lineBreak _ _).ite
    ((blank_lineBreak _ _).ite (blank_space.ite blank_nothing)))

theorem blank_finalGap {blanks : List Char} (hblank : allBlank blanks = true) :
    (settings.finalGap blanks).Blank := by
  unfold finalGap
  exact (blank_keep hblank).ite ((blank_lineBreak _ _).ite blank_nothing)

/-! ## In start tags -/

theorem blank_attributeGap (broken : Bool) (aligned : Nat) :
    (attributeGap broken aligned).Blank := by
  unfold attributeGap
  exact (blank_lineBreak _ _).ite blank_space

theorem blank_tagEndGap (tag : StartTag) (indent : Nat) :
    (settings.tagEndGap tag indent).Blank := by
  unfold tagEndGap
  exact (blank_lineBreak _ _).ite (blank_space.ite blank_nothing)

/-- There is a layout for each attribute, with a blank gap. -/
theorem layoutFurther_spec (wrapped : Bool) (aligned : Nat) (cursor : Cursor)
    (attributes : List Attribute) :
    (settings.layoutFurther wrapped aligned cursor attributes).1.length = attributes.length ∧
      ∀ layout ∈ (settings.layoutFurther wrapped aligned cursor attributes).1,
        layout.gap.Blank := by
  induction attributes generalizing cursor with
  | nil => simp [layoutFurther]
  | cons attr rest ih =>
      obtain ⟨hlength, hblank⟩ := ih (settings.layoutAttribute cursor attr
        (settings.keepsBreakInTag attr.gap || wrapped) aligned).2
      refine ⟨by simp [layoutFurther, hlength], fun layout hmem => ?_⟩
      rcases List.mem_cons.mp hmem with rfl | hmem
      · exact blank_attributeGap _ _
      · exact hblank layout hmem

theorem layoutAttributes_spec (wrapped : Bool) (indent : Nat) (cursor : Cursor)
    (attributes : List Attribute) :
    (settings.layoutAttributes wrapped indent cursor attributes).1.length = attributes.length ∧
      ∀ layout ∈ (settings.layoutAttributes wrapped indent cursor attributes).1,
        layout.gap.Blank := by
  cases attributes with
  | nil => simp [layoutAttributes]
  | cons attr rest =>
      unfold layoutAttributes
      dsimp only
      generalize (if (settings.alignAttributes && !settings.keepsBreakInTag attr.gap) = true then
        cursor.column + 1 else indent + settings.continuationIndentSize) = aligned
      obtain ⟨hlength, hblank⟩ := settings.layoutFurther_spec wrapped aligned
        (settings.layoutAttribute cursor attr (settings.keepsBreakInTag attr.gap) aligned).2 rest
      refine ⟨by simp [hlength], fun layout hmem => ?_⟩
      rcases List.mem_cons.mp hmem with rfl | hmem
      · exact blank_attributeGap _ _
      · exact hblank layout hmem

theorem layoutStartTag_spec (tag : StartTag) (indent : Nat) (cursor : Cursor) :
    (settings.layoutStartTag tag indent cursor).1.length = tag.attributes.length ∧
      (∀ layout ∈ (settings.layoutStartTag tag indent cursor).1, layout.gap.Blank) ∧
        (settings.layoutStartTag tag indent cursor).2.1.Blank := by
  unfold layoutStartTag
  dsimp only
  obtain ⟨hlength, hblank⟩ := settings.layoutAttributes_spec
    (settings.wrapsAttributes (decide (settings.rightMargin <
      (cursor.place (1 + tag.name.length)).column + settings.restOfTagWidth tag)))
    indent (cursor.place (1 + tag.name.length)) tag.attributes
  exact ⟨hlength, hblank, settings.blank_tagEndGap tag indent⟩

/-! ## Between words -/

theorem placeWords_spec (continuation : Nat) (breaks : List Nat) (index : Nat) (cursor : Cursor)
    (widths : List Nat) :
    (placeWords continuation breaks index cursor widths).1.length = widths.length ∧
      ∀ gap ∈ (placeWords continuation breaks index cursor widths).1, gap.Blank := by
  induction widths generalizing index cursor with
  | nil => simp [placeWords]
  | cons width rest ih =>
      unfold placeWords
      dsimp only
      obtain ⟨hlength, hblank⟩ := ih (index + 1) ((cursor.skip (if breaks.contains index = true then
        .lineBreak 1 continuation else .space)).place width)
      refine ⟨by rw [List.length_cons, hlength, List.length_cons], fun gap hmem => ?_⟩
      rcases List.mem_cons.mp hmem with rfl | hmem
      · exact (blank_lineBreak _ _).ite blank_space
      · exact hblank gap hmem

theorem blank_hardGap (continuation : Nat) {blanks : List Char} (hblank : allBlank blanks = true) :
    (settings.hardGap continuation blanks).Blank := by
  unfold hardGap breakGap
  exact (blank_kept hblank).ite (blank_lineBreak _ _)

/-- There is a blank gap in front of each word behind the first one. -/
theorem layoutWords_spec (continuation : Nat) (cursor : Cursor) (first : Nat)
    (rest : List (List Char × Nat)) (hrest : ∀ parted ∈ rest, allBlank parted.1 = true) :
    (settings.layoutWords continuation cursor first rest).1.length = rest.length ∧
      ∀ gap ∈ (settings.layoutWords continuation cursor first rest).1, gap.Blank := by
  fun_induction layoutWords settings continuation cursor first rest with
  | case1 cursor first rest soft widths breaks gaps after broken hplace hdropped =>
      obtain ⟨hlength, hblank⟩ := placeWords_spec continuation breaks 1 (cursor.place first) widths
      rw [hplace] at hlength hblank
      have hwhole := congrArg List.length (List.takeWhile_append_dropWhile
        (p := fun x : List Char × Nat => settings.isSoft x.1) (l := rest))
      rw [hdropped] at hwhole
      refine ⟨?_, hblank⟩
      dsimp only at hlength ⊢
      rw [hlength, ← hwhole]
      simp [widths, soft]
  | case2 cursor first rest soft widths breaks gaps after broken hplace blanks width more hdropped
      gap others final later hlater ih =>
      have hwhole := List.takeWhile_append_dropWhile
        (p := fun x : List Char × Nat => settings.isSoft x.1) (l := rest)
      rw [hdropped] at hwhole
      have hmore : ∀ parted ∈ (blanks, width) :: more, allBlank parted.1 = true :=
        fun parted hmem =>
        hrest parted (hwhole ▸ List.mem_append_right _ hmem)
      obtain ⟨hlength, hblank⟩ := placeWords_spec continuation breaks 1 (cursor.place first) widths
      rw [hplace] at hlength hblank
      obtain ⟨hothers, hlaterBlank⟩ := ih fun parted hmem =>
        hmore parted (List.mem_cons_of_mem _ hmem)
      rw [hlater] at hothers hlaterBlank
      refine ⟨?_, fun other hmem => ?_⟩
      · dsimp only at hlength hothers ⊢
        rw [List.length_append, List.length_cons, hlength, hothers, ← hwhole]
        simp [widths, soft]
      · rcases List.mem_append.mp hmem with hmem | hmem
        · exact hblank other hmem
        · rcases List.mem_cons.mp hmem with rfl | hmem
          · exact settings.blank_hardGap _ (hmore (blanks, width) List.mem_cons_self)
          · exact hlaterBlank other hmem

end Settings

end Markup
