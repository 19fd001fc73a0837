import Mathlib.Data.List.Forall2
import Markup.Proofs.Text.Fragments
import Markup.Text.Utf8

/-!
# Texts in lower case

Putting the ASCII letters of a text in lower case changes no class of characters, no length and no
line that this library looks at: cutting a text in lower case into fragments, words or lines comes
to cutting it and putting the parts in lower case. Main statements: `fragments_lower` and
`Run.ofText_lower`.
-/

namespace Markup.Text

/-- A text with its ASCII letters in lower case. -/
def lower (text : List Char) : List Char :=
  text.map Char.toLower

@[simp]
theorem lower_nil : lower [] = [] := rfl

@[simp]
theorem lower_cons (c : Char) (rest : List Char) : lower (c :: rest) = c.toLower :: lower rest :=
  rfl

@[simp]
theorem lower_append (first second : List Char) :
    lower (first ++ second) = lower first ++ lower second :=
  List.map_append

@[simp]
theorem length_lower (text : List Char) : (lower text).length = text.length :=
  List.length_map _

theorem take_lower (count : Nat) (text : List Char) :
    (lower text).take count = lower (text.take count) :=
  List.map_take.symm

theorem drop_lower (count : Nat) (text : List Char) :
    (lower text).drop count = lower (text.drop count) :=
  List.map_drop.symm

/-! ## Classes of characters -/

/-- What is the same for a letter in upper case and in lower case. -/
def Caseless {α : Type} (f : Char → α) : Prop :=
  ∀ c : Char, f c.toLower = f c

theorem toLower_of_not_isUpper {c : Char} (hupper : ¬ c.isUpper = true) : c.toLower = c := by
  unfold Char.toLower
  split
  next hrange => exact absurd (isUpper_iff.mpr hrange) hupper
  next => rfl

/-- It is enough to look at the letters in upper case. -/
theorem Caseless.of_letters {α : Type} {f : Char → α}
    (hletters : ∀ n, n < 26 → f (Char.ofNat (65 + n)).toLower = f (Char.ofNat (65 + n))) :
    Caseless f := by
  intro c
  by_cases hupper : c.isUpper = true
  · obtain ⟨hfirst, hlast⟩ := isUpper_iff.mp hupper
    have hletter := hletters (c.toNat - 65) (by omega)
    rwa [Nat.add_sub_cancel' hfirst, Char.ofNat_toNat] at hletter
  · rw [toLower_of_not_isUpper hupper]

theorem caseless_toLower : Caseless Char.toLower :=
  .of_letters (by decide)

theorem caseless_isBlank : Caseless isBlank :=
  .of_letters (by decide)

theorem caseless_isAlpha : Caseless Char.isAlpha :=
  .of_letters (by decide)

theorem caseless_isAlphanum : Caseless Char.isAlphanum :=
  .of_letters (by decide)

theorem caseless_isDigit : Caseless Char.isDigit :=
  .of_letters (by decide)

theorem caseless_isHexDigit : Caseless isHexDigit :=
  .of_letters (by decide)

theorem caseless_utf8Size : Caseless Char.utf8Size :=
  .of_letters (by decide)

/-- A character that is no letter is told from the others in any case. -/
theorem toLower_eq_iff {mark c : Char} (hmark : mark.isAlpha = false) :
    c.toLower = mark ↔ c = mark := by
  by_cases hc : c.isAlpha = true
  · have hne : ∀ d : Char, d.isAlpha = true → ¬ d = mark := by
      rintro d hd rfl
      simp [hd] at hmark
    simp [hne c hc, hne c.toLower ((caseless_isAlpha c).trans hc)]
  · rw [toLower_of_not_isUpper fun hupper => hc (isAlpha_iff.mpr (.inl hupper))]

theorem toLower_of_not_isAlpha {c : Char} (hc : c.isAlpha = false) : c.toLower = c :=
  (toLower_eq_iff hc).mpr rfl

theorem caseless_beq {mark : Char} (hmark : mark.isAlpha = false) : Caseless (· == mark) := by
  intro c
  rw [Bool.eq_iff_iff, beq_iff_eq, beq_iff_eq, toLower_eq_iff hmark]

theorem caseless_bne {mark : Char} (hmark : mark.isAlpha = false) : Caseless (· != mark) :=
  fun c => congrArg (!·) (caseless_beq hmark c)

theorem lower_lower (text : List Char) : lower (lower text) = lower text := by
  rw [lower, lower, List.map_map]
  exact List.map_congr_left fun c _ => caseless_toLower c

section Classes

variable {p : Char → Bool} (hp : Caseless p) (text : List Char)

include hp

theorem takeWhile_lower : (lower text).takeWhile p = lower (text.takeWhile p) := by
  rw [lower, List.takeWhile_map, show p ∘ Char.toLower = p from funext hp, lower]

theorem dropWhile_lower : (lower text).dropWhile p = lower (text.dropWhile p) := by
  rw [lower, List.dropWhile_map, show p ∘ Char.toLower = p from funext hp, lower]

theorem all_lower : (lower text).all p = text.all p := by
  rw [lower, List.all_map, show p ∘ Char.toLower = p from funext hp]

end Classes

@[simp]
theorem allBlank_lower (text : List Char) : allBlank (lower text) = allBlank text :=
  all_lower caseless_isBlank text

/-- Only letters have a case. -/
theorem lower_of_plain {text : List Char} (hplain : text.any Char.isAlpha = false) :
    lower text = text := by
  induction text with
  | nil => rfl
  | cons c rest ih =>
      obtain ⟨hc, hrest⟩ := Bool.or_eq_false_iff.mp hplain
      rw [lower_cons, ih hrest, toLower_of_not_isAlpha hc]

theorem lower_of_allBlank {text : List Char} (hblank : allBlank text = true) :
    lower text = text := by
  refine lower_of_plain (List.any_eq_false.mpr fun c hmem => ?_)
  rcases isBlank_iff.mp (isBlank_of_mem hblank hmem) with rfl | rfl | rfl | rfl | rfl <;> decide

@[simp]
theorem contains_lower {mark : Char} (hmark : mark.isAlpha = false) (text : List Char) :
    (lower text).contains mark = text.contains mark := by
  rw [Bool.eq_iff_iff, List.contains_iff_mem, List.contains_iff_mem, lower, List.mem_map]
  constructor
  · rintro ⟨c, hmem, hsame⟩
    rwa [← (toLower_eq_iff hmark).mp hsame]
  · exact fun hmem => ⟨mark, hmem, toLower_of_not_isAlpha hmark⟩

/-! ## Lines, columns and offsets -/

@[simp]
theorem newlines_lower (text : List Char) : newlines (lower text) = newlines text := by
  rw [newlines, newlines, lower, List.count_eq_countP, List.countP_map, List.count_eq_countP]
  exact congrArg (List.countP · text) (funext (caseless_beq rfl))

@[simp]
theorem columnAfter_lower (column : Nat) (text : List Char) :
    columnAfter column (lower text) = columnAfter column text := by
  induction text generalizing column with
  | nil => rfl
  | cons c rest ih =>
      have hfeed : (c.toLower == '\n') = (c == '\n') := caseless_beq rfl c
      have hstep : advance column c.toLower = advance column c := by rw [advance, advance, hfeed]
      exact (ih _).trans (congrArg (columnAfter · rest) hstep)

theorem lastLine_lower (text : List Char) : lastLine (lower text) = lower (lastLine text) := by
  have hreverse : (lower text).reverse = lower text.reverse := by
    rw [lower, lower, List.map_reverse]
  rw [lastLine, lastLine, hreverse, takeWhile_lower (caseless_bne rfl), lower, lower,
    List.map_reverse]

theorem firstLine_lower (text : List Char) : firstLine (lower text) = lower (firstLine text) := by
  fun_induction firstLine text with
  | case1 => rfl
  | case2 => rfl
  | case3 => rfl
  | case4 c rest hfeed hreturn ih =>
      rw [lower_cons, firstLine, ih, lower_cons]
      · exact fun hsame => hfeed ((toLower_eq_iff rfl).mp hsame)
      · intro more hsame hmore
        cases rest with
        | nil => cases hmore
        | cons d rest =>
            obtain ⟨hd, -⟩ := List.cons.inj hmore
            exact hreturn rest ((toLower_eq_iff rfl).mp hsame) (by rw [(toLower_eq_iff rfl).mp hd])

theorem splitTail_lower (text : List Char) :
    splitTail (lower text) = Prod.map lower lower (splitTail text) := by
  induction text with
  | nil => rfl
  | cons c rest ih =>
      rw [lower_cons, splitTail, splitTail, ih]
      cases splitTail rest with
      | mk kept tail =>
          cases kept with
          | nil => cases hblank : isBlank c <;> simp [caseless_isBlank c, hblank]
          | cons d others => rfl

@[simp]
theorem byteSize_lower (text : List Char) : byteSize (lower text) = byteSize text := by
  induction text with
  | nil => rfl
  | cons c rest ih => rw [lower_cons, byteSize_cons, byteSize_cons, ih, caseless_utf8Size c]

theorem takeBytes_lower (offset : Nat) (text : List Char) :
    takeBytes offset (lower text) = lower (takeBytes offset text) := by
  induction text generalizing offset with
  | nil => rfl
  | cons c rest ih =>
      rw [lower_cons, takeBytes, takeBytes, caseless_utf8Size c, ih]
      split <;> rfl

theorem dropBytes_lower (offset : Nat) (text : List Char) :
    dropBytes offset (lower text) = lower (dropBytes offset text) := by
  induction text generalizing offset with
  | nil => rfl
  | cons c rest ih =>
      rw [lower_cons, dropBytes, dropBytes, caseless_utf8Size c, ih]
      split <;> rfl

@[simp]
theorem floorBoundary_lower (text : List Char) (offset : Nat) :
    floorBoundary (lower text) offset = floorBoundary text offset := by
  rw [floorBoundary, floorBoundary, takeBytes_lower, byteSize_lower]

@[simp]
theorem ceilBoundary_lower (text : List Char) (offset : Nat) :
    ceilBoundary (lower text) offset = ceilBoundary text offset := by
  induction text generalizing offset with
  | nil => rfl
  | cons c rest ih => rw [lower_cons, ceilBoundary, ceilBoundary, caseless_utf8Size c, ih]

/-! ## Names and patterns -/

theorem sameName_iff {first second : List Char} :
    sameName first second = true ↔ lower first = lower second :=
  beq_iff_eq

@[simp]
theorem sameName_lower_left (first second : List Char) :
    sameName (lower first) second = sameName first second := by
  rw [Bool.eq_iff_iff, sameName_iff, sameName_iff, lower_lower]

@[simp]
theorem sameName_lower_right (first second : List Char) :
    sameName first (lower second) = sameName first second := by
  rw [Bool.eq_iff_iff, sameName_iff, sameName_iff, lower_lower]

@[simp]
theorem listed_lower (names : List String) (name : List Char) :
    listed names (lower name) = listed names name := by
  simp only [listed, sameName_lower_right]

section Patterns

variable {pattern : List Char} (hpattern : pattern.any Char.isAlpha = false)

include hpattern

theorem dropStart?_lower (text : List Char) :
    dropStart? pattern (lower text) = (dropStart? pattern text).map lower := by
  induction pattern generalizing text with
  | nil => rfl
  | cons mark rest ih =>
      obtain ⟨hmark, hrest⟩ := Bool.or_eq_false_iff.mp hpattern
      cases text with
      | nil => rfl
      | cons c text =>
          rw [lower_cons, dropStart?, dropStart?, ih hrest]
          by_cases hsame : mark = c
          · rw [if_pos hsame, if_pos ((toLower_eq_iff hmark).mpr hsame.symm).symm]
          · rw [if_neg hsame, if_neg fun hlower =>
              hsame ((toLower_eq_iff hmark).mp hlower.symm).symm]
            rfl

theorem splitAround_lower (text : List Char) :
    splitAround pattern (lower text) = (splitAround pattern text).map (Prod.map lower lower) := by
  induction text with
  | nil =>
      have hnone := dropStart?_lower hpattern []
      rw [lower_nil] at hnone ⊢
      rw [splitAround]
      cases hdrop : dropStart? pattern [] with
      | none => rfl
      | some after =>
          obtain ⟨rfl, rfl⟩ := List.append_eq_nil_iff.mp (dropStart?_eq_some_iff.mp hdrop).symm
          rfl
  | cons c rest ih =>
      have hhere := dropStart?_lower hpattern (c :: rest)
      rw [lower_cons] at hhere ⊢
      rw [splitAround, splitAround, hhere, ih]
      cases dropStart? pattern (c :: rest) with
      | some after => rfl
      | none => cases splitAround pattern rest <;> rfl

end Patterns

/-! ## Fragments -/

def Fragment.lower (piece : Fragment) : Fragment :=
  { piece with raw := Text.lower piece.raw }

theorem splitReference_lower {inClass : Char → Bool} (hclass : Caseless inClass)
    (text : List Char) :
    splitReference inClass (lower text) =
      (splitReference inClass text).map (Prod.map lower lower) := by
  rw [splitReference, splitReference, takeWhile_lower hclass, dropWhile_lower hclass]
  cases text.takeWhile inClass with
  | nil => rfl
  | cons c body =>
      cases text.dropWhile inClass with
      | nil => rfl
      | cons d after =>
          by_cases hmark : d = ';'
          · subst hmark
            simp [Prod.map]
          · have hlower : ¬ d.toLower = ';' := fun hsame => hmark ((toLower_eq_iff rfl).mp hsame)
            simp only [lower_cons]
            split
            next hfound => exact absurd (List.cons.inj hfound).1 hlower
            next =>
              split
              next hfound => exact absurd (List.cons.inj hfound).1 hmark
              next => rfl

theorem splitEntity_lower (text : List Char) :
    splitEntity (lower text) = (splitEntity text).map (Prod.map lower lower) := by
  have hhex : ∀ x : Char, (decide (x.toLower = 'x') || decide (x.toLower = 'X')) =
      (decide (x = 'x') || decide (x = 'X')) :=
    Caseless.of_letters (f := fun x => decide (x = 'x') || decide (x = 'X')) (by decide)
  cases text with
  | nil => rfl
  | cons c tail =>
      by_cases hmark : c = '#'
      · subst hmark
        cases tail with
        | nil => rfl
        | cons x rest =>
            have hlower : lower ('#' :: x :: rest) = '#' :: x.toLower :: lower rest := rfl
            rw [hlower, splitEntity, splitEntity, hhex x, splitReference_lower caseless_isHexDigit,
              ← lower_cons x rest, splitReference_lower caseless_isDigit]
            split
            next => cases splitReference isHexDigit rest <;> rfl
            next => cases splitReference Char.isDigit (x :: rest) <;> rfl
      · have hlower : c.toLower ≠ '#' := fun hsame => hmark ((toLower_eq_iff rfl).mp hsame)
        rw [lower_cons, splitEntity_cons_of_ne hlower, splitEntity_cons_of_ne hmark,
          caseless_isAlpha c, ← lower_cons, splitReference_lower caseless_isAlphanum]
        split <;> rfl

theorem pushCharacter_lower (c : Char) (pieces : List Fragment) :
    pushCharacter c.toLower (pieces.map Fragment.lower) =
      (pushCharacter c pieces).map Fragment.lower := by
  cases pieces with
  | nil => rfl
  | cons piece rest =>
      obtain ⟨kind, raw⟩ := piece
      cases kind <;> rfl

/-- A text in lower case is cut into the same fragments. -/
theorem fragments_lower (text : List Char) :
    fragments (lower text) = (fragments text).map Fragment.lower := by
  fun_induction fragments text with
  | case1 => simp [fragments]
  | case2 c rest hblank ih =>
      rw [lower_cons, fragments, if_pos ((caseless_isBlank c).trans hblank),
        takeWhile_lower caseless_isBlank, dropWhile_lower caseless_isBlank, ih]
      rfl
  | case3 rest body after hentity hblank ih =>
      have hfound : splitEntity (lower rest) = some (lower body, lower after) := by
        rw [splitEntity_lower, hentity]
        rfl
      have hsplit := fragments_cons_entity hfound
      rw [ih] at hsplit
      exact hsplit
  | case4 rest hentity hblank ih =>
      -- what is no reference is none in lower case either
      have hnone : splitEntity (lower rest) = none := by
        rw [splitEntity_lower, hentity]
        rfl
      have hsplit := @fragments_cons_of_solid '&' (lower rest) rfl fun _ => hnone
      rw [ih] at hsplit
      exact hsplit.trans (pushCharacter_lower '&' _)
  | case5 c rest hblank hamp ih =>
      have hsolid : isBlank c.toLower = false := by
        rw [caseless_isBlank, Bool.eq_false_iff.mpr hblank]
      rw [lower_cons, fragments_cons_of_solid hsolid fun hsame =>
        absurd ((toLower_eq_iff rfl).mp hsame) hamp, ih, pushCharacter_lower]

/-- Fragments of one kind with the same text up to case. -/
structure Fragment.Alike (first second : Fragment) : Prop where
  kind : first.kind = second.kind
  raw : sameName first.raw second.raw = true

theorem Fragment.alike_iff {first second : Fragment} :
    first.Alike second ↔ first.lower = second.lower := by
  constructor
  · rintro ⟨hkind, hraw⟩
    rw [lower, lower, hkind, sameName_iff.mp hraw]
  · intro hsame
    obtain ⟨hkind, hraw⟩ := Fragment.mk.inj hsame
    exact ⟨hkind, sameName_iff.mpr hraw⟩

/-- Texts that are the same up to case are cut at the same places. -/
theorem fragments_alike {first second : List Char} (hsame : lower first = lower second) :
    List.Forall₂ Fragment.Alike (fragments first) (fragments second) := by
  have hpieces := congrArg fragments hsame
  rw [fragments_lower, fragments_lower, ← List.forall₂_eq_eq_eq, List.forall₂_map_left_iff,
    List.forall₂_map_right_iff] at hpieces
  exact hpieces.imp fun _ _ => Fragment.alike_iff.mpr

/-! ## Words -/

def Word.lower (word : Word) : Word :=
  word.map Fragment.lower

theorem Word.raw_lower (word : Word) : Word.raw (Word.lower word) = Text.lower (Word.raw word) := by
  induction word with
  | nil => rfl
  | cons piece rest ih =>
      rw [Word.raw, Word.raw, lower, List.map_cons, List.flatMap_cons, List.flatMap_cons,
        lower_append]
      exact congrArg _ ih

@[simp]
theorem Word.width_lower (word : Word) : Word.width (Word.lower word) = Word.width word := by
  rw [Word.width, Word.raw_lower, length_lower, Word.width]

namespace Run

/-- A run with its words in lower case. The blanks have no case. -/
def lower : Run → Run
  | .blank leading => .blank leading
  | .words leading first rest trailing =>
      .words leading (Word.lower first)
        (rest.map fun (blanks, word) => (blanks, Word.lower word)) trailing

theorem push_lower {piece : Fragment} (hproper : piece.Proper) (run : Run) :
    push piece.lower run.lower = (push piece run).lower := by
  obtain ⟨kind, raw⟩ := piece
  cases kind with
  | blank =>
      have hraw : Fragment.lower ⟨.blank, raw⟩ = ⟨.blank, raw⟩ :=
        congrArg (Fragment.mk .blank) (lower_of_allBlank hproper.2)
      rw [hraw]
      cases run <;> rfl
  | characters => cases run with
      | blank leading => rfl
      | words leading first rest trailing => cases leading <;> rfl
  | entity => cases run with
      | blank leading => rfl
      | words leading first rest trailing => cases leading <;> rfl

/-- A text in lower case has the same blanks between its words. -/
theorem ofText_lower (text : List Char) : ofText (Text.lower text) = (ofText text).lower := by
  have hproper : ∀ piece ∈ fragments text, piece.Proper := proper_of_mem_fragments
  rw [ofText, ofText, fragments_lower, ofFragments, ofFragments]
  generalize fragments text = pieces at hproper ⊢
  induction pieces with
  | nil => rfl
  | cons piece rest ih =>
      obtain ⟨hpiece, hrest⟩ := List.forall_mem_cons.mp hproper
      rw [List.map_cons, List.foldr_cons, List.foldr_cons, ih hrest, push_lower hpiece]

theorem wordList_lower (run : Run) : run.lower.wordList = run.wordList.map Word.lower := by
  cases run with
  | blank leading => rfl
  | words leading first rest trailing => simp [lower, wordList]

end Run

end Markup.Text
