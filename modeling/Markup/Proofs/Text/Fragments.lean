import Markup.Proofs.Text.Words

/-!
# Words by themselves

A text is cut into fragments from left to right, and a character reference is only one if a
semicolon ends it. Nothing behind a word has a say in how the word is cut, and nothing in front of
it either, so that texts with the same words, taken as texts, have the same words with all their
fragments. Main statement: `Run.wordList_eq_of_units`.
-/

namespace Markup.Text

/-! ## The first fragments of a text -/

theorem splitReference_append_any {inClass : Char → Bool} {text body after : List Char}
    (hclass : inClass ';' = false) (hsplit : splitReference inClass text = some (body, after))
    (other : List Char) : splitReference inClass (body ++ other) = some (body, other) := by
  unfold splitReference at hsplit
  split at hsplit
  next c run tail hrun htail =>
    obtain ⟨rfl, rfl⟩ := Prod.mk.inj (Option.some.inj hsplit)
    have hall : ∀ d ∈ c :: run, inClass d = true := by
      intro d hmem
      rw [← hrun] at hmem
      exact List.all_eq_true.mp List.all_takeWhile d hmem
    have hwhole : c :: run ++ [';'] ++ other = (c :: run) ++ ';' :: other := by simp
    rw [splitReference, hwhole, List.takeWhile_append_of_pos hall, List.dropWhile_append_of_pos
      hall, List.takeWhile_cons_of_neg (by simp [hclass]),
        List.dropWhile_cons_of_neg (by simp [hclass])]
    simp
  next => simp at hsplit

/-- A character reference is one whatever follows it. -/
theorem splitEntity_append_any {text body after : List Char}
    (hsplit : splitEntity text = some (body, after)) (other : List Char) :
    splitEntity (body ++ other) = some (body, other) := by
  unfold splitEntity at hsplit
  split at hsplit
  next x rest =>
    split at hsplit
    next hx =>
      obtain ⟨⟨run, tail⟩, hrun, heq⟩ := Option.map_eq_some_iff.mp hsplit
      obtain ⟨rfl, rfl⟩ := Prod.mk.inj heq
      have hagain := splitReference_append_any (by decide) hrun other
      simp [splitEntity, hx, hagain]
    next hx =>
      obtain ⟨⟨run, tail⟩, hrun, heq⟩ := Option.map_eq_some_iff.mp hsplit
      obtain ⟨rfl, rfl⟩ := Prod.mk.inj heq
      have hagain := splitReference_append_any (by decide) hrun other
      -- the number begins with the character that is no x
      obtain ⟨digits, rfl⟩ : ∃ digits, run = x :: digits := by
        have hwhole := splitReference_append hrun
        cases run with
        | nil =>
            exact absurd rfl (solid_of_splitReference (fun _ => isBlank_eq_false_of_isDigit) hrun).1
        | cons d digits => exact ⟨digits, by rw [(List.cons.inj hwhole).1]⟩
      rw [List.cons_append] at hagain ⊢
      rw [List.cons_append, splitEntity, if_neg hx, hagain]
      rfl
  next c rest hmark =>
    split at hsplit
    next halpha =>
      have hagain := splitReference_append_any (by decide) hsplit other
      obtain ⟨letters, rfl⟩ : ∃ letters, body = c :: letters := by
        have hwhole := splitReference_append hsplit
        cases body with
        | nil =>
            exact absurd rfl
              (solid_of_splitReference (fun _ => isBlank_eq_false_of_isAlphanum) hsplit).1
        | cons d letters => exact ⟨letters, by rw [(List.cons.inj hwhole).1]⟩
      have hne : c ≠ '#' := by
        rintro rfl
        revert halpha
        decide
      rw [List.cons_append] at hagain ⊢
      rw [splitEntity, if_pos halpha, hagain]
      exact fun x rest hhash => absurd hhash hne
    next => simp at hsplit
  next => simp at hsplit

theorem exists_of_pushCharacter_eq {c : Char} {pieces word rest : List Fragment}
    (hpush : pushCharacter c pieces = word ++ rest) (hne : word ≠ []) :
    ∃ behind, pieces = behind ++ rest ∧ pushCharacter c behind = word ∧
      ∀ piece ∈ behind, piece.kind = .blank → piece ∈ word := by
  obtain ⟨head, more, rfl⟩ := List.exists_cons_of_ne_nil hne
  unfold pushCharacter at hpush
  split at hpush
  next raw others =>
    obtain ⟨rfl, rfl⟩ := List.cons.inj hpush
    refine ⟨⟨.characters, raw⟩ :: more, rfl, rfl, fun piece hmem hblank => ?_⟩
    rcases List.mem_cons.mp hmem with rfl | hmem
    · cases hblank
    · exact List.mem_cons_of_mem _ hmem
  next hhead =>
    obtain ⟨rfl, rfl⟩ := List.cons.inj hpush
    refine ⟨more, rfl, ?_, fun piece hmem _ => List.mem_cons_of_mem _ hmem⟩
    unfold pushCharacter
    split
    next raw others => exact absurd rfl (hhead raw (others ++ rest))
    next => rfl

theorem fragments_cons_entity {rest body after : List Char}
    (hentity : splitEntity rest = some (body, after)) :
    fragments ('&' :: rest) = ⟨.entity, '&' :: body⟩ :: fragments after := by
  rw [fragments, if_neg (by decide), if_pos rfl]
  split
  next found others hfound =>
    obtain ⟨rfl, rfl⟩ := Prod.mk.inj (Option.some.inj (hentity.symm.trans hfound))
    rfl
  next hnone => simp [hentity] at hnone

theorem fragments_cons_of_solid {c : Char} {rest : List Char} (hsolid : isBlank c = false)
    (hnone : c = '&' → splitEntity rest = none) :
    fragments (c :: rest) = pushCharacter c (fragments rest) := by
  rw [fragments, if_neg (by simp [hsolid])]
  split
  next hmark =>
    split
    next body after hentity => simp [hnone hmark] at hentity
    next => rfl
  next => rfl

/-- The first fragments of a text are those of their own text. -/
theorem fragments_of_prefix {text : List Char} {word rest : List Fragment}
    (hwhole : fragments text = word ++ rest) (hword : ∀ piece ∈ word, piece.kind ≠ .blank) :
    fragments (Word.raw word) = word := by
  have hlater : ∀ {c : Char} {tail : List Char} {word : List Fragment}, isBlank c = false →
      (c = '&' → splitEntity tail = none) → pushCharacter c (fragments tail) = word ++ rest →
        (∀ piece ∈ word, piece.kind ≠ .blank) → (∀ behind, fragments tail = behind ++ rest →
          (∀ piece ∈ behind, piece.kind ≠ .blank) → fragments (Word.raw behind) = behind) →
            fragments (Word.raw word) = word := by
    intro c tail word hsolid hnone hpush hword ih
    by_cases hne : word = []
    · rw [hne]
      simp [Word.raw, fragments]
    · obtain ⟨behind, hbehind, rfl, hblank⟩ := exists_of_pushCharacter_eq hpush hne
      have hraw :=
        ih behind hbehind fun piece hmem hkind => hword piece (hblank piece hmem hkind) hkind
      rw [Word.raw, flatMap_raw_pushCharacter]
      refine (fragments_cons_of_solid hsolid fun hmark => ?_).trans
        (congrArg (pushCharacter c) hraw)
      -- a reference that begins there would go on as it does in the whole text
      have htail := flatMap_raw_fragments tail
      rw [hbehind, List.flatMap_append] at htail
      cases hentity : splitEntity (behind.flatMap Fragment.raw) with
      | none => rfl
      | some parted =>
          obtain ⟨body, after⟩ := parted
          have hagain := splitEntity_append_any hentity (after ++ rest.flatMap Fragment.raw)
          rw [← List.append_assoc, splitEntity_append hentity, htail, hnone hmark] at hagain
          cases hagain
  fun_induction fragments text generalizing word with
  | case1 =>
      obtain ⟨rfl, -⟩ := List.append_eq_nil_iff.mp hwhole.symm
      simp [Word.raw, fragments]
  | case2 c tail hblank ih =>
      cases word with
      | nil => simp [Word.raw, fragments]
      | cons piece more =>
          obtain ⟨rfl, -⟩ := List.cons.inj hwhole
          exact absurd rfl (hword _ List.mem_cons_self)
  | case3 tail body after hentity hblank ih =>
      cases word with
      | nil => simp [Word.raw, fragments]
      | cons piece more =>
          obtain ⟨rfl, hmore⟩ := List.cons.inj hwhole
          have hraw := ih hmore fun piece hmem => hword piece (List.mem_cons_of_mem _ hmem)
          have hagain := splitEntity_append_any hentity (Word.raw more)
          have hself : Word.raw (⟨.entity, '&' :: body⟩ :: more) =
              '&' :: (body ++ Word.raw more) := by
            simp [Word.raw]
          rw [hself, fragments_cons_entity hagain, hraw]
  | case4 tail hnone hsolid ih =>
      exact hlater (by simpa using hsolid) (fun _ => hnone) hwhole hword fun behind hbehind hall =>
        ih hbehind hall
  | case5 c tail hsolid hmark ih =>
      exact hlater (by simpa using hsolid) (fun heq => absurd heq hmark) hwhole hword
        fun behind hbehind hall => ih hbehind hall

/-! ## The words of a run -/

namespace Run

/-- A run without blanks in front begins with its first word. -/
theorem exists_of_ofFragments {pieces : List Fragment} (hproper : ∀ piece ∈ pieces, piece.Proper)
    {first : Word} {rest : List (List Char × Word)} {trailing : List Char}
    (hrun : ofFragments pieces = .words [] first rest trailing) :
    ∃ back, pieces = first ++ back ∧ ∀ piece ∈ first, piece.kind ≠ .blank := by
  induction pieces generalizing first rest trailing with
  | nil => cases hrun
  | cons piece others ih =>
      have hpushed : push piece (ofFragments others) = .words [] first rest trailing := hrun
      have hpiece := hproper piece List.mem_cons_self
      obtain ⟨kind, raw⟩ := piece
      have hkind : kind ≠ .blank := by
        rintro rfl
        have hne : raw ≠ [] := hpiece.1
        cases hrest : ofFragments others <;> simp [push, hrest, hne] at hpushed
      cases hrest : ofFragments others with
      | blank leading =>
          have hfirst : [⟨kind, raw⟩] = first := by
            cases kind <;> simp_all [push]
          exact ⟨others, by simp [← hfirst], by simp [← hfirst, hkind]⟩
      | words leading word more after =>
          cases leading with
          | nil =>
              have hfirst : ⟨kind, raw⟩ :: word = first := by
                cases kind <;> simp_all [push]
              obtain ⟨back, rfl, hword⟩ := ih (fun other hmem => hproper other
                (List.mem_cons_of_mem _ hmem)) hrest
              refine ⟨back, by simp [← hfirst], fun other hmem => ?_⟩
              rw [← hfirst] at hmem
              rcases List.mem_cons.mp hmem with rfl | hmem
              · exact hkind
              · exact hword other hmem
          | cons c gap =>
              have hfirst : [⟨kind, raw⟩] = first := by
                cases kind <;> simp_all [push]
              exact ⟨others, by simp [← hfirst], by simp [← hfirst, hkind]⟩

theorem wordList_push_blank (raw : List Char) (run : Run) :
    (push ⟨.blank, raw⟩ run).wordList = run.wordList := by
  cases run <;> rfl

/-- A fragment in front of a run makes no difference to the words behind the first one. -/
theorem mem_of_mem_tail_push {piece : Fragment} {run : Run} {word : Word}
    (hmem : word ∈ (push piece run).wordList.tail) : word ∈ run.wordList := by
  obtain ⟨kind, raw⟩ := piece
  cases run with
  | blank leading => cases kind <;> simp_all [push, wordList]
  | words leading first rest trailing =>
      cases kind <;> cases leading <;> simp_all [push, wordList]

theorem ofFragments_cons (piece : Fragment) (pieces : List Fragment) :
    ofFragments (piece :: pieces) = push piece (ofFragments pieces) := rfl

theorem leading_push {piece : Fragment} (hkind : piece.kind ≠ .blank) (run : Run) :
    (push piece run).leading = [] := by
  obtain ⟨kind, raw⟩ := piece
  cases run with
  | blank leading => cases kind <;> simp_all [push, Run.leading]
  | words leading first rest trailing =>
      cases kind <;> cases leading <;> simp_all [push, Run.leading]

/-- A character in front of fragments makes no blanks and changes the first word alone. -/
theorem ofFragments_pushCharacter (c : Char) (pieces : List Fragment) :
    (ofFragments (pushCharacter c pieces)).leading = [] ∧
      ∀ word ∈ (ofFragments (pushCharacter c pieces)).wordList.tail,
        word ∈ (ofFragments pieces).wordList := by
  unfold pushCharacter
  split
  next raw rest =>
    rw [ofFragments_cons, ofFragments_cons]
    refine ⟨leading_push (by simp) _, fun word hmem => List.mem_of_mem_tail ?_⟩
    have hsame : ∀ run : Run, (push ⟨.characters, c :: raw⟩ run).wordList.tail =
        (push ⟨.characters, raw⟩ run).wordList.tail := by
      intro run
      cases run with
      | blank leading => rfl
      | words leading first rest trailing => cases leading <;> rfl
    exact (hsame (ofFragments rest)) ▸ hmem
  next =>
    rw [ofFragments_cons]
    exact ⟨leading_push (by simp) _, fun word hmem => mem_of_mem_tail_push hmem⟩

/-- Each word of a text is cut into fragments by itself as it is within the text. -/
theorem fragments_of_mem_wordList {text : List Char} {word : Word}
    (hmem : word ∈ (ofText text).wordList) : fragments (Word.raw word) = word := by
  -- a word is the first one of the text that begins with it
  have hsplit : ∀ {text : List Char} {word : Word}, (ofText text).leading = [] →
      word ∈ (ofText text).wordList → (word ∈ (ofText text).wordList.tail →
        fragments (Word.raw word) = word) → fragments (Word.raw word) = word := by
    intro text word hleading hmem hlater
    cases hrun : ofText text with
    | blank leading => simp [hrun, wordList] at hmem
    | words leading first rest trailing =>
        rw [hrun] at hleading hmem hlater
        obtain rfl : leading = [] := hleading
        rcases List.mem_cons.mp hmem with rfl | hmore
        · obtain ⟨back, hback, hword⟩ := exists_of_ofFragments proper_of_mem_fragments hrun
          exact fragments_of_prefix hback hword
        · exact hlater hmore
  unfold ofText at hmem
  fun_induction fragments text with
  | case1 => cases hmem
  | case2 c rest hblank ih =>
      exact ih ((wordList_push_blank _ (ofFragments (fragments (rest.dropWhile isBlank)))) ▸ hmem)
  | case3 rest body after hentity hblank ih =>
      have hself : ofText ('&' :: rest) = push ⟨.entity, '&' :: body⟩ (ofText after) := by
        rw [ofText, fragments_cons_entity hentity]
        rfl
      refine @hsplit ('&' :: rest) word ?_ (hself ▸ hmem) fun htail => ?_
      · rw [hself]
        exact leading_push (by simp) _
      · rw [hself] at htail
        exact ih (mem_of_mem_tail_push htail)
  | case4 rest hnone hsolid ih =>
      obtain ⟨hleading, htail⟩ := ofFragments_pushCharacter '&' (fragments rest)
      rw [← fragments_cons_of_solid (by simpa using hsolid) fun _ => hnone] at hmem hleading htail
      exact hsplit hleading hmem fun hmore => ih (htail word hmore)
  | case5 c rest hsolid hmark ih =>
      obtain ⟨hleading, htail⟩ := ofFragments_pushCharacter c (fragments rest)
      rw [← fragments_cons_of_solid (by simpa using hsolid) fun heq => absurd heq hmark]
        at hmem hleading htail
      exact hsplit hleading hmem fun hmore => ih (htail word hmore)

/-- Texts with the same words, taken as texts, have the same words altogether. -/
theorem wordList_eq_of_units {text other : List Char}
    (hunits : (ofText text).units = (ofText other).units) :
    (ofText text).wordList = (ofText other).wordList := by
  have hcut : ∀ text : List Char, (ofText text).wordList = (ofText text).units.map fragments := by
    intro text
    rw [units, List.map_map]
    exact (List.map_id _).symm.trans
      (List.map_congr_left fun word hmem => (fragments_of_mem_wordList hmem).symm)
  rw [hcut, hcut, hunits]

end Run

end Markup.Text
