import Markup.Proofs.Text.Blank

/-!
# Words and the blanks between them

The fragments of a text are blank or have no blank in them, so that its words are parted by blanks
and by nothing else: a run of words is blank exactly where it is no word.
-/

namespace Markup.Text

theorem isBlank_iff {c : Char} :
    isBlank c = true ↔ c = ' ' ∨ c = '\t' ∨ c = '\n' ∨ c = '\r' ∨ c = '\x0c' := by
  simp [isBlank, or_assoc]

/-- A text that is not empty and has no blank in it. -/
def Solid (text : List Char) : Prop :=
  text ≠ [] ∧ ∀ c ∈ text, isBlank c = false

theorem Solid.append {first second : List Char} (hfirst : Solid first) (hsecond : Solid second) :
    Solid (first ++ second) := by
  refine ⟨by simp [hfirst.1], fun c hmem => ?_⟩
  rcases List.mem_append.mp hmem with hmem | hmem
  · exact hfirst.2 c hmem
  · exact hsecond.2 c hmem

/-! ## Letters and digits -/

theorem isUpper_iff {c : Char} : c.isUpper = true ↔ 65 ≤ c.toNat ∧ c.toNat ≤ 90 := by
  exact decide_eq_true_iff

theorem isLower_iff {c : Char} : c.isLower = true ↔ 97 ≤ c.toNat ∧ c.toNat ≤ 122 := by
  change (decide (c.val ≥ 97) && decide (c.val ≤ 122)) = true ↔ _
  rw [Bool.and_eq_true, decide_eq_true_iff, decide_eq_true_iff]
  exact Iff.rfl

theorem isDigit_iff {c : Char} : c.isDigit = true ↔ 48 ≤ c.toNat ∧ c.toNat ≤ 57 := by
  change (decide (c.val ≥ 48) && decide (c.val ≤ 57)) = true ↔ _
  rw [Bool.and_eq_true, decide_eq_true_iff, decide_eq_true_iff]
  exact Iff.rfl

theorem isAlpha_iff {c : Char} : c.isAlpha = true ↔ c.isUpper = true ∨ c.isLower = true := by
  change (c.isUpper || c.isLower) = true ↔ _
  rw [Bool.or_eq_true]

theorem isAlphanum_iff {c : Char} : c.isAlphanum = true ↔ c.isAlpha = true ∨ c.isDigit = true := by
  change (c.isAlpha || c.isDigit) = true ↔ _
  rw [Bool.or_eq_true]

/-! ## Fragments -/

/-- A fragment is blank or solid, as its kind says. -/
def Fragment.Proper (piece : Fragment) : Prop :=
  match piece.kind with
  | .blank => piece.raw ≠ [] ∧ allBlank piece.raw = true
  | _ => Solid piece.raw

theorem isBlank_eq_false_of_isAlphanum {c : Char} (hclass : c.isAlphanum = true) :
    isBlank c = false := by
  by_contra hblank
  have hcases := isBlank_iff.mp (by simpa using hblank)
  rcases hcases with rfl | rfl | rfl | rfl | rfl <;> simp at hclass

theorem isBlank_eq_false_of_isDigit {c : Char} (hclass : c.isDigit = true) : isBlank c = false :=
  isBlank_eq_false_of_isAlphanum (by simp [Char.isAlphanum, hclass])

theorem isBlank_eq_false_of_isHexDigit {c : Char} (hclass : isHexDigit c = true) :
    isBlank c = false := by
  by_contra hblank
  have hcases := isBlank_iff.mp (by simpa using hblank)
  rcases hcases with rfl | rfl | rfl | rfl | rfl <;> revert hclass <;> decide

theorem solid_of_splitReference {inClass : Char → Bool} {text body after : List Char}
    (hclass : ∀ c, inClass c = true → isBlank c = false)
    (hsplit : splitReference inClass text = some (body, after)) : Solid body := by
  unfold splitReference at hsplit
  split at hsplit
  next c run tail hrun htail =>
    obtain ⟨rfl, rfl⟩ := Prod.mk.inj (Option.some.inj hsplit)
    refine ⟨by simp, fun d hmem => ?_⟩
    rcases List.mem_append.mp hmem with hmem | hmem
    · rw [← hrun] at hmem
      exact hclass d (List.all_eq_true.mp List.all_takeWhile d hmem)
    · obtain rfl := List.mem_singleton.mp hmem
      rfl
  next => simp at hsplit

theorem splitEntity_cons_of_ne {c : Char} (hne : c ≠ '#') (rest : List Char) :
    splitEntity (c :: rest) =
      if c.isAlpha then splitReference Char.isAlphanum (c :: rest) else none := by
  cases rest <;> simp [splitEntity, hne]

theorem solid_of_splitEntity {text body after : List Char}
    (hsplit : splitEntity text = some (body, after)) : Solid body := by
  unfold splitEntity at hsplit
  split at hsplit
  next x rest =>
    split at hsplit
    next hx =>
      obtain ⟨⟨run, tail⟩, hrun, heq⟩ := Option.map_eq_some_iff.mp hsplit
      obtain ⟨rfl, rfl⟩ := Prod.mk.inj heq
      have hsolid := solid_of_splitReference (fun _ => isBlank_eq_false_of_isHexDigit) hrun
      have hmarks : Solid ['#', x] := by
        have hcases : x = 'x' ∨ x = 'X' := by simpa using hx
        rcases hcases with rfl | rfl <;> exact ⟨by simp, by simp [isBlank]⟩
      exact hmarks.append hsolid
    next =>
      obtain ⟨⟨run, tail⟩, hrun, heq⟩ := Option.map_eq_some_iff.mp hsplit
      obtain ⟨rfl, rfl⟩ := Prod.mk.inj heq
      have hsolid := solid_of_splitReference (fun _ => isBlank_eq_false_of_isDigit) hrun
      have hmark : Solid ['#'] := ⟨by simp, by simp [isBlank]⟩
      exact hmark.append hsolid
  next c rest =>
    split at hsplit
    next => exact solid_of_splitReference (fun _ => isBlank_eq_false_of_isAlphanum) hsplit
    next => simp at hsplit
  next => simp at hsplit

/-- In front of a fragment of another kind, a character is a fragment of its own. -/
theorem pushCharacter_cons_of_ne {piece : Fragment} (hkind : piece.kind ≠ .characters) (c : Char)
    (rest : List Fragment) :
    pushCharacter c (piece :: rest) = ⟨.characters, [c]⟩ :: piece :: rest := by
  unfold pushCharacter
  split
  next raw others heq =>
    obtain ⟨rfl, -⟩ := List.cons.inj heq
    exact absurd rfl hkind
  next => rfl

theorem proper_pushCharacter {c : Char} {pieces : List Fragment} (hsolid : isBlank c = false)
    (hproper : ∀ piece ∈ pieces, piece.Proper) :
    ∀ piece ∈ pushCharacter c pieces, piece.Proper := by
  have hsingle : Solid [c] := ⟨by simp, by simpa using hsolid⟩
  unfold pushCharacter
  intro piece hmem
  split at hmem
  next raw rest =>
    rcases List.mem_cons.mp hmem with rfl | hmem
    · have hraw : Solid raw := hproper ⟨.characters, raw⟩ (by simp)
      exact hsingle.append hraw
    · exact hproper piece (List.mem_cons_of_mem _ hmem)
  next =>
    rcases List.mem_cons.mp hmem with rfl | hmem
    · exact hsingle
    · exact hproper piece hmem

theorem proper_of_mem_fragments {text : List Char} :
    ∀ piece ∈ fragments text, piece.Proper := by
  fun_induction fragments text with
  | case1 => simp
  | case2 c rest hblank ih =>
      intro piece hmem
      rcases List.mem_cons.mp hmem with rfl | hmem
      · exact ⟨by simp, by simp [hblank, allBlank_takeWhile]⟩
      · exact ih piece hmem
  | case3 rest body after hentity hblank ih =>
      intro piece hmem
      rcases List.mem_cons.mp hmem with rfl | hmem
      · have hmark : Solid ['&'] := ⟨by simp, by simp [isBlank]⟩
        exact hmark.append (solid_of_splitEntity hentity)
      · exact ih piece hmem
  | case4 rest hentity hblank ih => exact proper_pushCharacter (by simpa using hblank) ih
  | case5 c rest hblank hamp ih => exact proper_pushCharacter (by simpa using hblank) ih

/-! ## Runs of words -/

/-- The words of a text. -/
def Run.units (run : Run) : List (List Char) :=
  run.wordList.map Word.raw

/-- Words without blanks, with blanks between any two and perhaps at the ends. -/
def Run.Proper : Run → Prop
  | .blank leading => allBlank leading = true
  | .words leading first rest trailing =>
      allBlank leading = true ∧ Solid (Word.raw first) ∧
        (∀ parted ∈ rest, parted.1 ≠ [] ∧ allBlank parted.1 = true ∧ Solid (Word.raw parted.2)) ∧
          allBlank trailing = true

theorem Run.Proper.push {piece : Fragment} {run : Run} (hpiece : piece.Proper)
    (hproper : run.Proper) : (Run.push piece run).Proper := by
  obtain ⟨kind, raw⟩ := piece
  have hword : Solid raw → Solid (Word.raw [⟨kind, raw⟩]) := by simp [Word.raw]
  cases run with
  | blank leading =>
      cases kind with
      | blank =>
          have hraw : allBlank raw = true := hpiece.2
          have hleading : allBlank leading = true := hproper
          simp [Run.push, Run.Proper, hraw, hleading]
      | characters => exact ⟨rfl, hword hpiece, by simp, hproper⟩
      | entity => exact ⟨rfl, hword hpiece, by simp, hproper⟩
  | words leading first rest trailing =>
      obtain ⟨hleading, hfirst, hrest, htrailing⟩ := hproper
      have hjoined : Solid raw → Solid (Word.raw (⟨kind, raw⟩ :: first)) := fun hraw =>
        hraw.append hfirst
      have hparted : ∀ c gap, leading = c :: gap → ∀ parted ∈ (leading, first) :: rest,
          parted.1 ≠ [] ∧ allBlank parted.1 = true ∧ Solid (Word.raw parted.2) := by
        rintro c gap rfl parted hmem
        rcases List.mem_cons.mp hmem with rfl | hmem
        · exact ⟨by simp, hleading, hfirst⟩
        · exact hrest parted hmem
      -- a fragment that is not blank joins the first word where no blank parts them
      cases kind with
      | blank =>
          have hraw : allBlank raw = true := hpiece.2
          exact ⟨by simp [hraw, hleading], hfirst, hrest, htrailing⟩
      | characters =>
          cases leading with
          | nil => exact ⟨rfl, hjoined hpiece, hrest, htrailing⟩
          | cons c gap => exact ⟨rfl, hword hpiece, hparted c gap rfl, htrailing⟩
      | entity =>
          cases leading with
          | nil => exact ⟨rfl, hjoined hpiece, hrest, htrailing⟩
          | cons c gap => exact ⟨rfl, hword hpiece, hparted c gap rfl, htrailing⟩

theorem Run.proper_ofFragments {pieces : List Fragment}
    (hpieces : ∀ piece ∈ pieces, piece.Proper) : (Run.ofFragments pieces).Proper := by
  induction pieces with
  | nil => rfl
  | cons piece rest ih =>
      exact (ih fun other hmem => hpieces other (List.mem_cons_of_mem _ hmem)).push
        (hpieces piece List.mem_cons_self)

/-- The words of a text are solid and what parts them is blank. -/
theorem Run.proper_ofText (text : List Char) : (Run.ofText text).Proper :=
  Run.proper_ofFragments proper_of_mem_fragments

end Markup.Text
