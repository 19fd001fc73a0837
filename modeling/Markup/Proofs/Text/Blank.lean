import Mathlib.Data.List.TakeWhile
import Markup.Text.Words

/-!
# What remains when blanks are left out

Formatting moves blanks about and nothing else. Two notions say so: the text that is left when all
blanks are deleted, and pieces that stand in a text one behind the other, each as a whole. Both put
together along a text put together from parts.
-/

namespace Markup.Text

/-! ## Blank texts -/

@[simp]
theorem allBlank_nil : allBlank [] = true := rfl

@[simp]
theorem allBlank_cons (c : Char) (rest : List Char) :
    allBlank (c :: rest) = (isBlank c && allBlank rest) := rfl

@[simp]
theorem allBlank_append (first second : List Char) :
    allBlank (first ++ second) = (allBlank first && allBlank second) :=
  List.all_append

theorem isBlank_of_mem {text : List Char} (hblank : allBlank text = true) {c : Char}
    (hmem : c ∈ text) : isBlank c = true :=
  List.all_eq_true.mp hblank c hmem

theorem allBlank_takeWhile (text : List Char) : allBlank (text.takeWhile isBlank) = true :=
  List.all_takeWhile

theorem allBlank_replicate {c : Char} (hblank : isBlank c = true) (count : Nat) :
    allBlank (List.replicate count c) = true := by
  simp [allBlank, hblank]

/-- Splitting off the blank tail leaves nothing exactly of blank texts. -/
theorem splitTail_fst_eq_nil_iff (text : List Char) :
    (splitTail text).1 = [] ↔ allBlank text = true := by
  constructor
  · intro hnil
    have hwhole := splitTail_append text
    rw [hnil, List.nil_append] at hwhole
    rw [← hwhole]
    exact splitTail_blank text
  · intro hblank
    induction text with
    | nil => rfl
    | cons c rest ih =>
        simp only [allBlank_cons, Bool.and_eq_true] at hblank
        have hrest := ih hblank.2
        unfold splitTail
        split
        next tail hsplit => simp [hblank.1]
        next kept tail hkept hsplit => exact absurd (hsplit ▸ hrest) (by simpa using hkept)

/-- Blanks at the end belong to the blank tail. -/
theorem splitTail_append_blank {blanks : List Char} (hblank : allBlank blanks = true)
    (text : List Char) :
    splitTail (text ++ blanks) = ((splitTail text).1, (splitTail text).2 ++ blanks) := by
  induction text with
  | nil =>
      have hnil := (splitTail_fst_eq_nil_iff blanks).mpr hblank
      have hwhole := splitTail_append blanks
      rw [hnil, List.nil_append] at hwhole
      exact Prod.ext hnil hwhole
  | cons c rest ih =>
      rw [List.cons_append, splitTail, splitTail, ih]
      cases splitTail rest with
      | mk kept tail =>
          cases kept with
          | nil => cases hc : isBlank c <;> simp
          | cons d others => rfl

/-- There is no blank tail left to split off. -/
theorem splitTail_splitTail (text : List Char) : (splitTail (splitTail text).1).2 = [] := by
  induction text with
  | nil => rfl
  | cons c rest ih =>
      cases hsplit : splitTail rest with
      | mk kept tail =>
          rw [hsplit] at ih
          cases kept with
          | nil => cases hc : isBlank c <;> simp [splitTail, hsplit, hc]
          | cons d others =>
              have hwhole := splitTail_append (d :: others)
              rw [ih, List.append_nil] at hwhole
              have hkept : splitTail (d :: others) = (d :: others, []) := Prod.ext hwhole ih
              have hfirst : splitTail (c :: rest) = (c :: d :: others, tail) := by
                rw [splitTail, hsplit]
              rw [hfirst, splitTail, hkept]

/-- A text that does not end with a blank. -/
def Trimmed (text : List Char) : Prop :=
  (splitTail text).2 = []

theorem Trimmed.splitTail_append {text blanks : List Char} (htrimmed : Trimmed text)
    (hblank : allBlank blanks = true) : splitTail (text ++ blanks) = (text, blanks) := by
  have hwhole := Text.splitTail_append text
  rw [htrimmed, List.append_nil] at hwhole
  rw [splitTail_append_blank hblank, hwhole, htrimmed, List.nil_append]

theorem Trimmed.append_left {text : List Char} (htrimmed : Trimmed text) (hne : text ≠ [])
    (before : List Char) : Trimmed (before ++ text) := by
  induction before with
  | nil => exact htrimmed
  | cons c rest ih =>
      have hwhole := Text.splitTail_append (rest ++ text)
      unfold Trimmed at ih ⊢
      rw [ih, List.append_nil] at hwhole
      rw [List.cons_append, splitTail]
      split
      next tail hsplit =>
        rw [hsplit] at hwhole
        simp [hne] at hwhole
      next kept tail hkept hsplit =>
        rw [hsplit] at ih
        exact ih

theorem Trimmed.exists_getLast? {text : List Char} (htrimmed : Trimmed text) (hne : text ≠ []) :
    ∃ c, text.getLast? = some c ∧ isBlank c = false := by
  refine ⟨text.getLast hne, List.getLast?_eq_some_getLast hne,
    Bool.eq_false_iff.mpr fun hblank => ?_⟩
  have hlast : allBlank [text.getLast hne] = true := by simp [hblank]
  have hsplit := splitTail_append_blank hlast text.dropLast
  rw [List.dropLast_concat_getLast] at hsplit
  unfold Trimmed at htrimmed
  simp [hsplit] at htrimmed

theorem trimmed_of_getLast? {text : List Char} {c : Char} (hlast : text.getLast? = some c)
    (hsolid : isBlank c = false) : Trimmed text := by
  obtain ⟨before, rfl⟩ := List.getLast?_eq_some_iff.mp hlast
  have hsingle : Trimmed [c] := by simp [Trimmed, splitTail, hsolid]
  exact hsingle.append_left (by simp) before

/-- What goes behind a trimmed text and leaves it trimmed goes so behind any other. -/
theorem Trimmed.append_congr {front other text : List Char} (hother : Trimmed other)
    (htrimmed : Trimmed (front ++ text)) : Trimmed (other ++ text) := by
  by_cases hempty : text = []
  · rwa [hempty, List.append_nil]
  · obtain ⟨c, hlast, hsolid⟩ := htrimmed.exists_getLast? (by simp [hempty])
    rw [List.getLast?_append, List.getLast?_eq_some_getLast hempty, Option.some_or,
      ← List.getLast?_eq_some_getLast hempty] at hlast
    exact (trimmed_of_getLast? hlast hsolid).append_left hempty other

/-- The part of a text before its last line feed is blank where the text is. -/
theorem allBlank_beforeLastLine {text : List Char} (hblank : allBlank text = true) :
    allBlank (beforeLastLine text) = true := by
  refine List.all_eq_true.mpr fun c hmem => isBlank_of_mem hblank ?_
  have hdropped := List.mem_of_mem_drop (List.mem_reverse.mp hmem)
  exact List.mem_reverse.mp ((List.dropWhile_sublist _).subset hdropped)

/-! ## Texts without their blanks -/

/-- A text without its blanks. -/
def strip (text : List Char) : List Char :=
  text.filter fun c => !isBlank c

@[simp]
theorem strip_nil : strip [] = [] := rfl

@[simp]
theorem strip_append (first second : List Char) :
    strip (first ++ second) = strip first ++ strip second :=
  List.filter_append ..

theorem strip_of_allBlank {text : List Char} (hblank : allBlank text = true) : strip text = [] := by
  refine List.filter_eq_nil_iff.mpr fun c hmem => ?_
  simp [isBlank_of_mem hblank hmem]

/-! ## Pieces in a text -/

/-- The pieces stand in the text one behind the other, each as a whole. -/
def Occur : List (List Char) → List Char → Prop
  | [], _ => True
  | piece :: rest, text => ∃ before after, text = before ++ (piece ++ after) ∧ Occur rest after

namespace Occur

variable {pieces others : List (List Char)} {text other : List Char}

theorem singleton (piece : List Char) : Occur [piece] piece :=
  ⟨[], [], by simp, trivial⟩

theorem append_left (hoccur : Occur pieces text) (before : List Char) :
    Occur pieces (before ++ text) := by
  cases pieces with
  | nil => trivial
  | cons piece rest =>
      obtain ⟨inFront, after, rfl, hrest⟩ := hoccur
      exact ⟨before ++ inFront, after, by simp, hrest⟩

/-- Pieces of two texts stand in the two texts put together. -/
theorem append (hfirst : Occur pieces text) (hsecond : Occur others other) :
    Occur (pieces ++ others) (text ++ other) := by
  induction pieces generalizing text with
  | nil => exact hsecond.append_left text
  | cons piece rest ih =>
      obtain ⟨before, after, rfl, hrest⟩ := hfirst
      exact ⟨before, after ++ other, by simp, ih hrest⟩

theorem append_right (hoccur : Occur pieces text) (after : List Char) :
    Occur pieces (text ++ after) := by
  have hboth : Occur (pieces ++ []) (text ++ after) := hoccur.append trivial
  simpa using hboth

end Occur

end Markup.Text
