import Markup.Proofs.Plan.Gaps

/-!
# Filling word by word

The words of a text are laid out in segments, each of which is filled as a whole. It comes to the
same to go from word to word and decide about each gap where it stands. Main statement:
`Settings.layoutWords_eq_fill`.
-/

namespace Markup

open Markup.Text

namespace Settings

variable (settings : Settings)

/-- What goes in front of a further word of this width, and whether a line is broken there. -/
def wordGap (continuation : Nat) (cursor : Cursor) (blanks : List Char) (width : Nat) :
    Gap × Bool :=
  if settings.isSoft blanks then
    if settings.wrapsText && decide (settings.rightMargin < cursor.column + 1 + width) then
      (.lineBreak 1 continuation, true)
    else (.space, false)
  else (settings.hardGap continuation blanks, !settings.keepWhitespaces)

/-- Lays out further words one by one. -/
def fill (continuation : Nat) : Cursor → List (List Char × Nat) → List Gap × Cursor × Bool
  | cursor, [] => ([], cursor, false)
  | cursor, (blanks, width) :: rest =>
      let found := settings.wordGap continuation cursor blanks width
      let others := fill continuation ((cursor.skip found.1).place width) rest
      (found.1 :: others.1, others.2.1, found.2 || others.2.2)

variable (continuation : Nat)

theorem fill_append (cursor : Cursor) (first second : List (List Char × Nat)) :
    settings.fill continuation cursor (first ++ second) =
      ((settings.fill continuation cursor first).1 ++
        (settings.fill continuation (settings.fill continuation cursor first).2.1 second).1,
      (settings.fill continuation (settings.fill continuation cursor first).2.1 second).2.1,
      (settings.fill continuation cursor first).2.2 ||
        (settings.fill continuation (settings.fill continuation cursor first).2.1 second).2.2) := by
  induction first generalizing cursor with
  | nil => simp [fill]
  | cons head rest ih =>
      obtain ⟨blanks, width⟩ := head
      simp [fill, ih, Bool.or_assoc]

/-! ## Breaks by their indices -/

/-- The indices of the flags that are set, counted from `start`. -/
theorem contains_filterMap_zipIdx (flags : List Bool) (start wanted : Nat) :
    ((flags.zipIdx start).filterMap fun (flag, index) => if flag then some index else none).contains
        (start + wanted) = flags.getD wanted false := by
  have hlater : ∀ (flags : List Bool) (start index : Nat), index < start →
      ((flags.zipIdx start).filterMap
        fun (flag, index) => if flag then some index else none).contains index = false := by
    intro flags
    induction flags with
    | nil => intro start index _; rfl
    | cons flag rest ih =>
        intro start index hlt
        have hne : index ≠ start := by omega
        have hrest := ih (start + 1) index (by omega)
        rw [List.contains_eq_mem] at hrest ⊢
        cases flag <;> simp_all
  induction flags generalizing start wanted with
  | nil => simp
  | cons flag rest ih =>
      cases wanted with
      | zero =>
          have hrest := hlater rest (start + 1) start (by omega)
          rw [List.contains_eq_mem] at hrest ⊢
          cases flag <;> simp_all
      | succ wanted =>
          have hrest := ih (start + 1) wanted
          have hindex : start + 1 + wanted = start + (wanted + 1) := by omega
          rw [hindex, List.contains_eq_mem] at hrest
          rw [List.contains_eq_mem]
          cases flag <;> simp_all

/-- Words that are placed by the breaks of a line are filled one by one. -/
theorem placeWords_eq_fill (line : Line) {breaks : List Nat} {index : Nat} {cursor : Cursor}
    {words : List (List Char × Nat)} (hsoft : ∀ word ∈ words, settings.isSoft word.1 = true)
    (hline : line.empty = false ∧ line.margin = settings.rightMargin ∧
      line.continuation = continuation)
    (hposition : settings.wrapsText = true → line.position = cursor.column)
    (hbreaks : ∀ wanted, wanted < words.length → breaks.contains (index + wanted) =
      (settings.wrapsText && (line.breaks (words.map (·.2))).getD wanted false)) :
    placeWords continuation breaks index cursor (words.map (·.2)) =
      settings.fill continuation cursor words := by
  induction words generalizing line index cursor with
  | nil => rfl
  | cons word rest ih =>
      obtain ⟨blanks, width⟩ := word
      obtain ⟨hempty, hmargin, hcontinuation⟩ := hline
      obtain ⟨hblanks, hrest⟩ := List.forall_mem_cons.mp hsoft
      have hhere := hbreaks 0 (by simp)
      have hoverflow : (settings.wrapsText && line.breaksBefore width) =
          (settings.wrapsText &&
            decide (settings.rightMargin < cursor.column + 1 + width)) := by
        cases hwraps : settings.wrapsText with
        | false => rfl
        | true =>
            rw [Bool.true_and, Bool.true_and, Bool.eq_iff_iff, Line.breaksBefore_iff hempty,
              decide_eq_true_iff, hmargin, hposition hwraps]
      have hbroken : breaks.contains index = (settings.wrapsText &&
          decide (settings.rightMargin < cursor.column + 1 + width)) := by
        rw [← hoverflow]
        simpa [Line.breaks] using hhere
      have hgap : settings.wordGap continuation cursor blanks width =
          (if breaks.contains index then .lineBreak 1 continuation else .space,
            breaks.contains index) := by
        rw [wordGap, if_pos hblanks, hbroken]
        split <;> simp_all
      have hnext :=
        @ih (line.addWord width) (index + 1)
          ((cursor.skip (settings.wordGap continuation cursor blanks width).1).place width)
            hrest ?_ ?_ ?_
      · rw [List.map_cons, placeWords, fill, ← hnext]
        simp only [hgap]
      · exact ⟨Line.addWord_empty, Line.addWord_margin.trans hmargin,
          Line.addWord_continuation.trans hcontinuation⟩
      · intro hwraps
        rw [hgap, hbroken, ← hoverflow, hwraps, Bool.true_and]
        split
        next hbreak =>
          rw [Line.addWord_position_of_break hbreak, hcontinuation]
          simp [Cursor.place, Cursor.skip]
        next hstay =>
          rw [Line.addWord_position hempty hstay, hposition hwraps]
          simp [Cursor.place, Cursor.skip]
      · intro wanted hwanted
        have hlater := hbreaks (wanted + 1) (by simpa using hwanted)
        have hindex : index + (wanted + 1) = index + 1 + wanted := by omega
        rw [hindex] at hlater
        simpa [Line.breaks] using hlater

/-- Filling segment by segment comes to filling word by word. -/
theorem layoutWords_eq_fill (cursor : Cursor) (first : Nat) (rest : List (List Char × Nat)) :
    settings.layoutWords continuation cursor first rest =
      settings.fill continuation (cursor.place first) rest := by
  have hsegment : ∀ (cursor : Cursor) (first : Nat) (soft : List (List Char × Nat)),
      (∀ word ∈ soft, settings.isSoft word.1 = true) →
      placeWords continuation
          (settings.segmentBreaks cursor.column continuation (first :: soft.map (·.2))) 1
          (cursor.place first) (soft.map (·.2)) =
        settings.fill continuation (cursor.place first) soft := by
    intro cursor first soft hsoft
    refine settings.placeWords_eq_fill continuation
      ((Line.start cursor.column settings.rightMargin continuation).addAtomic first) hsoft
      ⟨rfl, rfl, rfl⟩ (fun _ => rfl) fun wanted _ => ?_
    unfold segmentBreaks
    split
    next hwraps =>
      rw [breakPoints, Line.breakIndices, contains_filterMap_zipIdx, hwraps, Bool.true_and]
    next hwraps => simp [hwraps]
  fun_induction layoutWords settings continuation cursor first rest with
  | case1 cursor first rest soft widths breaks gaps after broken hplace hdropped =>
      have hsoft := hsegment cursor first soft fun word hmem =>
        (List.mem_takeWhile_imp hmem :)
      have hwhole := List.takeWhile_append_dropWhile
        (p := fun x : List Char × Nat => settings.isSoft x.1) (l := rest)
      rw [hdropped, List.append_nil] at hwhole
      rw [← hplace, hsoft]
      exact congrArg _ hwhole
  | case2 cursor first rest soft widths breaks gaps after broken hplace blanks width more hdropped
      gap others final later hlater ih =>
      have hsoft := hsegment cursor first soft fun word hmem =>
        (List.mem_takeWhile_imp hmem :)
      have hwhole := List.takeWhile_append_dropWhile
        (p := fun x : List Char × Nat => settings.isSoft x.1) (l := rest)
      rw [hdropped] at hwhole
      have hhard : settings.isSoft blanks = false := by
        have hhead := List.head?_dropWhile_not
          (fun x : List Char × Nat => settings.isSoft x.1) rest
        simpa [hdropped] using hhead
      have hgap : settings.wordGap continuation after blanks width =
          (gap, !settings.keepWhitespaces) := by
        rw [wordGap, if_neg (by simp [hhard])]
      rw [hlater] at ih
      have hfilled : settings.fill continuation (cursor.place first) soft = (gaps, after, broken) :=
        hsoft.symm.trans hplace
      rw [← hwhole, fill_append, hfilled]
      simp only [fill, hgap, ← ih, Bool.or_assoc]

end Settings

end Markup
