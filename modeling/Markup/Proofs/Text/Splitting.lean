import Mathlib.Data.List.TakeWhile
import Markup.Text.Blank

/-!
# Cutting a text is local

Where a text is cut does not depend on what stands far behind the cut. A run of characters of a
class ends at the first other character, and the first occurrence of a pattern stays the first one
whatever follows it.
-/

namespace Markup.Text

/-! ## Runs of a class -/

section Runs

variable {p : Char → Bool} {run next : List Char}

/-- The text is empty or begins with a character that is not in the class. -/
def StopsAt (p : Char → Bool) (next : List Char) : Prop :=
  ∀ c ∈ next.head?, p c = false

theorem stopsAt_nil : StopsAt p [] := by
  simp [StopsAt]

@[simp]
theorem stopsAt_cons {c : Char} {rest : List Char} : StopsAt p (c :: rest) ↔ p c = false := by
  simp [StopsAt]

theorem takeWhile_run (hrun : ∀ c ∈ run, p c = true) (hnext : StopsAt p next) :
    (run ++ next).takeWhile p = run := by
  rw [List.takeWhile_append_of_pos hrun]
  cases next with
  | nil => simp
  | cons c rest => simp [stopsAt_cons.mp hnext]

theorem takeWhile_of_stopsAt {text : List Char} (hstops : StopsAt p text) :
    text.takeWhile p = [] := by
  cases text with
  | nil => rfl
  | cons c rest => simp [stopsAt_cons.mp hstops]

theorem dropWhile_run (hrun : ∀ c ∈ run, p c = true) (hnext : StopsAt p next) :
    (run ++ next).dropWhile p = next := by
  rw [List.dropWhile_append_of_pos hrun]
  cases next with
  | nil => rfl
  | cons c rest => simp [stopsAt_cons.mp hnext]

/-- A character outside the class bounds the run. -/
theorem takeWhile_append_cons {c : Char} (hc : p c = false) (text rest : List Char) :
    (text ++ c :: rest).takeWhile p = text.takeWhile p := by
  induction text with
  | nil => simp [hc]
  | cons d others ih => by_cases hd : p d = true <;> simp [hd, ih]

theorem stopsAt_dropWhile (p : Char → Bool) (text : List Char) : StopsAt p (text.dropWhile p) := by
  intro c hc
  have hhead := List.head?_dropWhile_not p text
  rw [Option.mem_def.mp hc] at hhead
  exact hhead

theorem mem_takeWhile {text : List Char} {c : Char} (hmem : c ∈ text.takeWhile p) : p c = true :=
  List.all_eq_true.mp List.all_takeWhile c hmem

end Runs

/-! ## Patterns -/

theorem dropStart?_append {pattern text : List Char} (hlength : pattern.length ≤ text.length)
    (more : List Char) :
    dropStart? pattern (text ++ more) = (dropStart? pattern text).map (· ++ more) := by
  induction pattern generalizing text with
  | nil => simp [dropStart?]
  | cons p pattern ih =>
      cases text with
      | nil => simp at hlength
      | cons c text =>
          simp only [List.cons_append, dropStart?]
          split
          next => exact ih (by simpa using hlength)
          next => rfl

/-- A text that does not start with a pattern does not do so either if it goes on differently behind
as many characters as the pattern has. -/
theorem dropStart?_eq_none_of_append {pattern text : List Char} (first second : List Char)
    (hlength : pattern.length ≤ text.length) (hnone : dropStart? pattern (text ++ first) = none) :
    dropStart? pattern (text ++ second) = none := by
  rw [dropStart?_append hlength] at hnone ⊢
  simpa using hnone

/-- A character that a pattern does not have bounds the search for its start. -/
theorem dropStart?_append_cons {pattern : List Char} {c : Char} (hc : c ∉ pattern)
    (text rest : List Char) :
    dropStart? pattern (text ++ c :: rest) = (dropStart? pattern text).map (· ++ c :: rest) := by
  induction pattern generalizing text with
  | nil => simp [dropStart?]
  | cons p pattern ih =>
      simp only [List.mem_cons, not_or] at hc
      cases text with
      | nil => simp [dropStart?, Ne.symm hc.1]
      | cons d text =>
          simp only [List.cons_append, dropStart?]
          split
          next => exact ih hc.2 text
          next => rfl

/-- The first occurrence of a pattern is the first one whatever follows it. -/
theorem splitAround_of_append {pattern text before after : List Char}
    (hsplit : splitAround pattern text = some (before, after)) (hpattern : pattern ≠ [])
    (other : List Char) :
    splitAround pattern (before ++ (pattern ++ other)) = some (before, other) := by
  have hfound : dropStart? pattern (pattern ++ other) = some other :=
    dropStart?_eq_some_iff.mpr rfl
  induction text generalizing before with
  | nil =>
      obtain ⟨found, hfound, -⟩ := Option.map_eq_some_iff.mp hsplit
      have hnil := dropStart?_eq_some_iff.mp hfound
      simp [hpattern] at hnil
  | cons c rest ih =>
      unfold splitAround at hsplit
      split at hsplit
      next =>
        obtain ⟨rfl, rfl⟩ := Prod.mk.inj (Option.some.inj hsplit)
        obtain ⟨p, tail, rfl⟩ := List.exists_cons_of_ne_nil hpattern
        simp only [List.nil_append, List.cons_append, splitAround] at hfound ⊢
        rw [hfound]
      next hnone =>
        obtain ⟨⟨found, tail⟩, hrest, heq⟩ := Option.map_eq_some_iff.mp hsplit
        obtain ⟨rfl, rfl⟩ := Prod.mk.inj heq
        rw [← splitAround_append hrest, ← List.cons_append, ← List.cons_append] at hnone
        have hother := dropStart?_eq_none_of_append tail other (by simp; omega) hnone
        simp only [List.cons_append, List.append_assoc] at hother
        simp only [List.cons_append, splitAround, hother, ih hrest]
        rfl

theorem splitAround_singleton_iff {c : Char} {text before after : List Char} :
    splitAround [c] text = some (before, after) ↔ c ∉ before ∧ text = before ++ c :: after := by
  induction text generalizing before with
  | nil => simp [splitAround, dropStart?]
  | cons d rest ih =>
      by_cases hsame : c = d
      · subst hsame
        cases before with
        | nil => simp [splitAround, dropStart?, eq_comm]
        | cons e tail =>
            simp only [splitAround, dropStart?, if_true, Option.some.injEq, Prod.mk.injEq,
              List.nil_eq, reduceCtorEq, false_and, List.mem_cons, not_or, List.cons_append,
              List.cons.injEq, false_iff]
            rintro ⟨⟨hne, -⟩, heq, -⟩
            exact hne heq
      · cases before with
        | nil => simp [splitAround, dropStart?, hsame, Ne.symm hsame]
        | cons e tail =>
            simp only [splitAround, dropStart?, if_neg hsame, Option.map_eq_some_iff, Prod.mk.injEq,
              List.cons.injEq, List.mem_cons, not_or, List.cons_append]
            constructor
            · rintro ⟨⟨found, last⟩, hfound, ⟨rfl, rfl⟩, rfl⟩
              obtain ⟨hnot, rfl⟩ := ih.mp hfound
              exact ⟨⟨hsame, hnot⟩, rfl, rfl⟩
            · rintro ⟨⟨-, hnot⟩, rfl, hrest⟩
              exact ⟨(tail, after), ih.mpr ⟨hnot, hrest⟩, ⟨rfl, rfl⟩, rfl⟩

theorem splitAround_singleton_eq_none_iff {c : Char} {text : List Char} :
    splitAround [c] text = none ↔ c ∉ text := by
  constructor
  · intro hnone hmem
    obtain ⟨before, after, rfl, hnot⟩ := List.eq_append_cons_of_mem hmem
    rw [splitAround_singleton_iff.mpr ⟨hnot, rfl⟩] at hnone
    simp at hnone
  · intro hnot
    rw [Option.eq_none_iff_forall_ne_some]
    rintro ⟨before, after⟩ hsplit
    refine hnot ?_
    rw [(splitAround_singleton_iff.mp hsplit).2]
    simp

/-! ## Lines -/

/-- A text with a line feed is cut at the last one. -/
theorem lastLine_append_cons {line : List Char} (hline : '\n' ∉ line) (before : List Char) :
    lastLine (before ++ '\n' :: line) = line ∧
      beforeLastLine (before ++ '\n' :: line) = before := by
  have hreverse : (before ++ '\n' :: line).reverse = line.reverse ++ '\n' :: before.reverse := by
    simp
  have hrun : ∀ c ∈ line.reverse, (c != '\n') = true := by
    intro c hmem
    rw [bne_iff_ne]
    rintro rfl
    exact hline (List.mem_reverse.mp hmem)
  have hstops : StopsAt (· != '\n') ('\n' :: before.reverse) := by simp
  rw [lastLine, beforeLastLine, hreverse, takeWhile_run hrun hstops, dropWhile_run hrun hstops]
  simp

theorem exists_lastLine {text : List Char} (hmem : '\n' ∈ text) :
    ∃ before line, text = before ++ '\n' :: line ∧ '\n' ∉ line := by
  obtain ⟨line, before, htext, hline⟩ := List.eq_append_cons_of_mem (List.mem_reverse.mpr hmem)
  refine ⟨before.reverse, line.reverse, ?_, by simpa using hline⟩
  rw [← List.reverse_reverse text, htext]
  simp

/-- The last line of a text is that of any part at its end that has a line feed. -/
theorem lastLine_append {text : List Char} (hmem : '\n' ∈ text) (before : List Char) :
    lastLine (before ++ text) = lastLine text ∧
      beforeLastLine (before ++ text) = before ++ beforeLastLine text := by
  obtain ⟨others, line, rfl, hline⟩ := exists_lastLine hmem
  have hown := lastLine_append_cons hline others
  have hwhole := lastLine_append_cons hline (before ++ others)
  rw [List.append_assoc] at hwhole
  exact ⟨hwhole.1.trans hown.1.symm, by rw [hwhole.2, hown.2]⟩

/-- A text without a line feed continues the last line. -/
theorem lastLine_append_of_not_mem {text : List Char} (hnot : '\n' ∉ text) (before : List Char) :
    lastLine (before ++ text) = lastLine before ++ text := by
  have hrun : ∀ c ∈ text.reverse, (c != '\n') = true := by
    intro c hmem
    rw [bne_iff_ne]
    rintro rfl
    exact hnot (List.mem_reverse.mp hmem)
  rw [lastLine, lastLine, List.reverse_append, List.takeWhile_append_of_pos hrun]
  simp

theorem beforeLastLine_append_lastLine {text : List Char} (hmem : '\n' ∈ text) :
    beforeLastLine text ++ '\n' :: lastLine text = text := by
  obtain ⟨before, line, rfl, hline⟩ := exists_lastLine hmem
  rw [(lastLine_append_cons hline before).1, (lastLine_append_cons hline before).2]

theorem newlines_append (first second : List Char) :
    newlines (first ++ second) = newlines first + newlines second :=
  List.count_append

theorem columnAfter_of_not_mem {text : List Char} (hnot : '\n' ∉ text) (column : Nat) :
    columnAfter column text = column + text.length := by
  induction text generalizing column with
  | nil => rfl
  | cons c rest ih =>
      obtain ⟨hc, hrest⟩ := not_or.mp (List.mem_cons.not.mp hnot)
      have hstep : advance column c = column + 1 := by simp [advance, Ne.symm hc]
      have hwhole : columnAfter column (c :: rest) = columnAfter (advance column c) rest := rfl
      rw [hwhole, hstep, ih hrest, List.length_cons]
      omega

theorem columnAfter_le (column : Nat) (text : List Char) :
    columnAfter column text ≤ column + text.length := by
  induction text generalizing column with
  | nil => exact Nat.le_refl column
  | cons c rest ih =>
      have hstep : advance column c ≤ column + 1 := by
        unfold advance
        split <;> omega
      have hrest := ih (advance column c)
      rw [List.length_cons]
      exact Nat.le_trans hrest (by omega)

/-- Behind a text with a line feed, the column is the length of its last line. -/
theorem columnAfter_of_mem {text : List Char} (hmem : '\n' ∈ text) (column : Nat) :
    columnAfter column text = (lastLine text).length := by
  obtain ⟨before, line, rfl, hline⟩ := exists_lastLine hmem
  have hparts : before ++ '\n' :: line = (before ++ ['\n']) ++ line := by simp
  have hfeed : columnAfter column (before ++ ['\n']) = 0 := by
    rw [columnAfter_append]
    rfl
  rw [(lastLine_append_cons hline before).1, hparts, columnAfter_append, hfeed,
    columnAfter_of_not_mem hline, Nat.zero_add]

/-- The column at the end of a text is the length of its last line. -/
theorem columnAfter_zero (text : List Char) : columnAfter 0 text = (lastLine text).length := by
  by_cases hmem : '\n' ∈ text
  · exact columnAfter_of_mem hmem 0
  · have hlast := lastLine_append_of_not_mem hmem []
    rw [List.nil_append] at hlast
    rw [columnAfter_of_not_mem hmem, hlast, Nat.zero_add]
    rfl

end Markup.Text
