import Markup.Proofs.Tag.Grammar
import Markup.Proofs.Text.Spacing

/-!
# Start tags and spacing

Whether a start tag ends at all does not depend on how the text that it is read from is spaced. The
reader of tags takes its decisions at characters that are not blank, and at whether there are blanks
in front of them. Main statement: `StartTag.read?_eq_none_of_squeeze`.
-/

namespace Markup

open Markup.Text

namespace Text

variable {text other : List Char}

theorem head?_eq_of_squeeze {c : Char} (hc : isBlank c = false)
    (hsame : squeeze text = squeeze other) (hhead : text.head? = some c) :
    other.head? = some c := by
  obtain ⟨rest, rfl⟩ := List.head?_eq_some_iff.mp hhead
  obtain ⟨tail, rfl, -⟩ := exists_of_squeeze_eq hc hsame
  rfl

/-- A text that is empty or begins with a blank is spaced as nothing else is. -/
theorem stopsAt_of_squeeze {p : Char → Bool} (hp : ∀ c, isBlank c = true → p c = false)
    (hstop : ∀ c ∈ text.head?, isBlank c = true) (hsame : squeeze text = squeeze other) :
    StopsAt p other := by
  intro c hhead
  refine hp c ?_
  cases hc : isBlank c with
  | true => rfl
  | false =>
      have hblank := hstop c (head?_eq_of_squeeze hc hsame.symm hhead)
      simp [hc] at hblank

/-- Texts that are the same squeezed stay so without a run of a class that has no blank in it. -/
theorem dropWhile_congr {p : Char → Bool} (hp : ∀ c, isBlank c = true → p c = false)
    (hsame : squeeze text = squeeze other) :
    squeeze (text.dropWhile p) = squeeze (other.dropWhile p) := by
  have hstopped : ∀ {text : List Char}, StopsAt p text → text.dropWhile p = text := by
    intro text hstop
    cases text with
    | nil => rfl
    | cons c rest => exact List.dropWhile_cons_of_neg (by simp [stopsAt_cons.mp hstop])
  induction text generalizing other with
  | nil =>
      rw [hstopped (stopsAt_of_squeeze hp (by simp) hsame)]
      exact hsame
  | cons c rest ih =>
      cases hc : isBlank c with
      | true =>
          have hfirst : StopsAt p (c :: rest) := stopsAt_cons.mpr (hp c hc)
          have hsecond : StopsAt p other := stopsAt_of_squeeze hp (by simp [hc]) hsame
          rw [hstopped hfirst, hstopped hsecond, hsame]
      | false =>
          obtain ⟨tail, rfl, htail⟩ := exists_of_squeeze_eq hc hsame
          by_cases hclass : p c = true
          · rw [List.dropWhile_cons_of_pos hclass, List.dropWhile_cons_of_pos hclass]
            exact ih htail
          · rw [List.dropWhile_cons_of_neg hclass, List.dropWhile_cons_of_neg hclass, hsame]

theorem takeWhile_congr {p : Char → Bool} (hp : ∀ c, isBlank c = true → p c = false)
    (hsame : squeeze text = squeeze other) : text.takeWhile p = other.takeWhile p := by
  induction text generalizing other with
  | nil => exact (takeWhile_of_stopsAt (stopsAt_of_squeeze hp (by simp) hsame)).symm
  | cons c rest ih =>
      cases hc : isBlank c with
      | true =>
          rw [takeWhile_of_stopsAt (stopsAt_cons.mpr (hp c hc)),
            takeWhile_of_stopsAt (stopsAt_of_squeeze hp (by simp [hc]) hsame)]
      | false =>
          obtain ⟨tail, rfl, htail⟩ := exists_of_squeeze_eq hc hsame
          by_cases hclass : p c = true
          · rw [List.takeWhile_cons_of_pos hclass, List.takeWhile_cons_of_pos hclass, ih htail]
          · rw [List.takeWhile_cons_of_neg hclass, List.takeWhile_cons_of_neg hclass]

/-- A text is split around a character that is not blank in the same place. -/
theorem exists_splitAround_of_squeeze {c : Char} (hc : isBlank c = false)
    (hsame : squeeze text = squeeze other) {before after : List Char}
    (hsplit : splitAround [c] text = some (before, after)) :
    ∃ start tail, splitAround [c] other = some (start, tail) ∧ squeeze after = squeeze tail := by
  obtain ⟨hnot, rfl⟩ := splitAround_singleton_iff.mp hsplit
  obtain ⟨front, hfront, hfrontMem⟩ := exists_squeeze_append before hc after
  rw [hfront] at hsame
  obtain ⟨start, tail, rfl, htail, hmem⟩ := exists_of_squeeze_eq_append_cons hc hsame.symm
  refine ⟨start, tail, splitAround_singleton_iff.mpr ⟨?_, rfl⟩, htail.symm⟩
  rwa [hmem c hc, hfrontMem c hc]

end Text

namespace Attribute

variable {text other : List Char}

theorem inTagName_of_isBlank (c : Char) (hblank : isBlank c = true) : inTagName c = false := by
  simp [inTagName, hblank]

theorem inBareValue_of_isBlank (c : Char) (hblank : isBlank c = true) : inBareValue c = false := by
  simp [inBareValue, hblank]

theorem splitName_congr (hsame : squeeze text = squeeze other) :
    squeeze (splitName text).2 = squeeze (splitName other).2 := by
  have hstopped : ∀ text : List Char, (∀ c ∈ text.head?, isBlank c = true) →
      splitName text = ([], text) := by
    intro text hstop
    refine splitName_of_stopsName ?_
    cases text with
    | nil => rfl
    | cons c rest => simp [stopsName, hstop c rfl]
  have hback : (∀ c ∈ text.head?, isBlank c = true) → ∀ c ∈ other.head?, isBlank c = true := by
    intro hstop c hhead
    have hfalse := stopsAt_of_squeeze (p := fun c => !isBlank c) (by simp) hstop hsame c hhead
    simpa using hfalse
  induction text generalizing other with
  | nil =>
      rw [hstopped [] (by simp), hstopped other (hback (by simp))]
      exact hsame
  | cons c rest ih =>
      cases hc : isBlank c with
      | true =>
          have hhead : ∀ d ∈ (c :: rest).head?, isBlank d = true := by simp [hc]
          rw [hstopped _ hhead, hstopped _ (hback hhead)]
          exact hsame
      | false =>
          obtain ⟨tail, rfl, htail⟩ := exists_of_squeeze_eq hc hsame
          have hstops : stopsName (c :: rest) = stopsName (c :: tail) := by
            have hclose : rest.head? = some '>' ↔ tail.head? = some '>' :=
              ⟨head?_eq_of_squeeze rfl htail, head?_eq_of_squeeze rfl htail.symm⟩
            rw [Bool.eq_iff_iff]
            simp only [stopsName, Bool.or_eq_true, Bool.and_eq_true, beq_iff_eq, hclose]
          cases hstop : stopsName (c :: rest) with
          | true =>
              rw [splitName_of_stopsName hstop, splitName_of_stopsName (hstops ▸ hstop)]
              exact hsame
          | false =>
              rw [splitName_cons_of_not_stopsName hstop,
                splitName_cons_of_not_stopsName (hstops ▸ hstop)]
              refine ih htail fun hhead d hd => ?_
              have hfalse :=
                stopsAt_of_squeeze (p := fun c => !isBlank c) (by simp) hhead htail d hd
              simpa using hfalse

/-- A value that ends does so whatever the spacing. -/
theorem readValue?_congr (hsame : squeeze text = squeeze other) {value : Option AttributeValue}
    {after : List Char} (hread : readValue? text = some (value, after)) :
    ∃ found tail, readValue? other = some (found, tail) ∧ squeeze after = squeeze tail := by
  have hdropped := squeeze_dropWhile_congr hsame
  unfold readValue? at hread
  split at hread
  next sign hsign =>
    rw [hsign] at hdropped
    obtain ⟨otherSign, hotherSign, hrest⟩ := exists_of_squeeze_eq (by decide) hdropped
    have hinner := squeeze_dropWhile_congr hrest
    split at hread
    next => simp at hread
    next c rest hcons =>
      have hc : isBlank c = false := by
        have hstop := stopsAt_dropWhile isBlank sign
        rwa [hcons, stopsAt_cons] at hstop
      rw [hcons] at hinner
      obtain ⟨tail, htail, hlast⟩ := exists_of_squeeze_eq hc hinner
      simp only [readValue?, hotherSign, htail]
      dsimp only at hread
      split at hread
      next quote hquote =>
        obtain ⟨⟨raw, found⟩, hfound, heq⟩ := Option.map_eq_some_iff.mp hread
        obtain ⟨rfl, rfl⟩ := Prod.mk.inj heq
        have hsolid : isBlank quote.char = false := by cases quote <;> rfl
        obtain ⟨start, final, hsplit, hfinal⟩ := exists_splitAround_of_squeeze hsolid hlast hfound
        exact ⟨_, final, by rw [hsplit]; rfl, hfinal⟩
      next =>
        obtain ⟨rfl, rfl⟩ := Prod.mk.inj (Option.some.inj hread)
        exact ⟨_, _, rfl, dropWhile_congr inBareValue_of_isBlank
          (by rw [squeeze_cons_of_solid hc, squeeze_cons_of_solid hc, hlast])⟩
  next hsign =>
    obtain ⟨rfl, rfl⟩ := Prod.mk.inj (Option.some.inj hread)
    refine ⟨none, other, readValue?_none_iff.mpr ⟨rfl, fun hhead => ?_⟩, hsame⟩
    obtain ⟨rest, hrest⟩ := List.head?_eq_some_iff.mp
      (head?_eq_of_squeeze (by decide) hdropped.symm hhead)
    exact hsign rest hrest

theorem read?_congr {c : Char} (hsame : squeeze text = squeeze other) {gap after : List Char}
    {attr : Attribute} (hread : read? gap c text = some (attr, after)) (otherGap : List Char) :
    ∃ found tail, read? otherGap c other = some (found, tail) ∧ squeeze after = squeeze tail := by
  unfold read? at hread ⊢
  split at hread
  next hsign =>
    obtain ⟨rfl, rfl⟩ := Prod.mk.inj (Option.some.inj hread)
    exact ⟨_, other, by rw [if_pos hsign], hsame⟩
  next hsign =>
    obtain ⟨⟨value, found⟩, hvalue, heq⟩ := Option.map_eq_some_iff.mp hread
    obtain ⟨rfl, rfl⟩ := Prod.mk.inj heq
    obtain ⟨otherValue, tail, hother, htail⟩ := readValue?_congr (splitName_congr hsame) hvalue
    refine ⟨⟨otherGap, c :: (splitName other).1, otherValue⟩, tail, ?_, htail⟩
    rw [if_neg hsign]
    simp only [hother, Option.map_some]

end Attribute

namespace StartTag

theorem readAttributes?_congr {text other : List Char} (hsame : squeeze text = squeeze other)
    {attributes : List Attribute} {trailing : List Char} {ending : Ending} {after : List Char}
    (hread : readAttributes? text = some (attributes, trailing, ending, after)) :
    readAttributes? other ≠ none := by
  have hother := List.takeWhile_append_dropWhile (p := isBlank) (l := other)
  have hgap := allBlank_takeWhile other
  have hdropped := squeeze_dropWhile_congr hsame
  fun_induction readAttributes? text generalizing other attributes trailing ending after with
  | case1 => simp at hread
  | @case2 text _ found htext =>
      rw [htext] at hdropped
      obtain ⟨tail, htail, -⟩ := exists_of_squeeze_eq (by decide) hdropped
      rw [← hother, htail, ← List.singleton_append]
      exact ne_of_eq_of_ne (readAttributes?_of_ending hgap .plain tail) (by simp)
  | @case3 text _ found htext =>
      rw [htext] at hdropped
      obtain ⟨rest, hrest, hsquashed⟩ := exists_of_squeeze_eq (by decide) hdropped
      obtain ⟨tail, rfl, -⟩ := exists_of_squeeze_eq (by decide) hsquashed
      rw [← hother, hrest]
      exact ne_of_eq_of_ne (readAttributes?_of_ending hgap .selfClosing tail) (by simp)
  | case4 => simp at hread
  | @case5 text _ c rest hclose hslash htext attr found hattr ih =>
      obtain ⟨⟨others, last⟩, hothers, -⟩ := Option.map_eq_some_iff.mp hread
      have hc : isBlank c = false := by
        have hstop := stopsAt_dropWhile isBlank text
        rwa [htext, stopsAt_cons] at hstop
      rw [htext] at hdropped
      obtain ⟨tail, htail, hrest⟩ := exists_of_squeeze_eq hc hdropped
      have hbegins : Attribute.Begins c tail := by
        refine ⟨hc, hclose, fun heq hhead => ?_⟩
        obtain ⟨more, hmore⟩ := List.head?_eq_some_iff.mp
          (head?_eq_of_squeeze (by decide) hrest.symm hhead)
        exact hslash more heq hmore
      obtain ⟨otherAttr, final, hread, hfinal⟩ :=
        Attribute.read?_congr hrest hattr (other.takeWhile isBlank)
      have hagain := ih hfinal hothers List.takeWhile_append_dropWhile (allBlank_takeWhile final)
        (squeeze_dropWhile_congr hfinal)
      rw [← hother, htail, readAttributes?_of_begins hgap hbegins, hread, Option.bind_some]
      simpa using hagain

/-- A tag that does not end before the text does not end however the text is spaced. -/
theorem read?_eq_none_of_squeeze {text other : List Char} (hsame : squeeze text = squeeze other)
    (hnone : read? text = none) : read? other = none := by
  have hrest := dropWhile_congr Attribute.inTagName_of_isBlank hsame
  simp only [read?, Option.map_eq_none_iff] at hnone ⊢
  cases hread : readAttributes? (other.dropWhile Attribute.inTagName) with
  | none => rfl
  | some found => exact absurd hnone (readAttributes?_congr hrest.symm hread)

end StartTag

end Markup
