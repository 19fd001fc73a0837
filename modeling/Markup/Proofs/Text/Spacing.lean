import Markup.Proofs.Text.Splitting
import Markup.Proofs.Text.Words

/-!
# Texts with the same words

Formatting puts other blanks between words, but it parts what was parted before and joins what was
joined. Two texts that differ in no more than that are the same when they are squeezed, which leaves
one space of every run of blanks and nothing of the blanks at the end. Main statements:
`squeeze_dropWhile`, by which texts with the same words are those that are the same squeezed, blanks
in front apart, and `splitAround_eq_none_of_squeeze`, by which such texts have the same patterns
without blanks in them.
-/

namespace Markup.Text

/-! ## Squeezing -/

/-- A text with a space in front, unless there is one, or nothing to part. -/
def spaced : List Char → List Char
  | [] => []
  | c :: rest => if c = ' ' then c :: rest else ' ' :: c :: rest

/-- A text with one space for each run of blanks, and none for the run at its end. -/
def squeeze : List Char → List Char
  | [] => []
  | c :: rest => if isBlank c then spaced (squeeze rest) else c :: squeeze rest

@[simp]
theorem squeeze_nil : squeeze [] = [] := rfl

theorem squeeze_cons_of_blank {c : Char} (hblank : isBlank c = true) (rest : List Char) :
    squeeze (c :: rest) = spaced (squeeze rest) := by
  simp [squeeze, hblank]

theorem squeeze_cons_of_solid {c : Char} (hsolid : isBlank c = false) (rest : List Char) :
    squeeze (c :: rest) = c :: squeeze rest := by
  simp [squeeze, hsolid]

theorem ne_space_of_solid {c : Char} (hsolid : isBlank c = false) : c ≠ ' ' := by
  rintro rfl
  simp [isBlank] at hsolid

@[simp]
theorem spaced_eq_nil_iff (text : List Char) : spaced text = [] ↔ text = [] := by
  cases text with
  | nil => simp [spaced]
  | cons c rest => by_cases hspace : c = ' ' <;> simp [spaced, hspace]

@[simp]
theorem spaced_spaced (text : List Char) : spaced (spaced text) = spaced text := by
  cases text with
  | nil => rfl
  | cons c rest => by_cases hspace : c = ' ' <;> simp [spaced, hspace]

theorem squeeze_eq_nil_iff (text : List Char) : squeeze text = [] ↔ allBlank text = true := by
  induction text with
  | nil => simp
  | cons c rest ih =>
      by_cases hblank : isBlank c = true
      · rw [squeeze_cons_of_blank hblank, spaced_eq_nil_iff, ih, allBlank_cons, hblank]
        simp
      · simp [squeeze, hblank]

theorem squeeze_blank_append {blanks : List Char} (hblank : allBlank blanks = true)
    (hne : blanks ≠ []) (text : List Char) :
    squeeze (blanks ++ text) = spaced (squeeze text) := by
  induction blanks with
  | nil => exact absurd rfl hne
  | cons c rest ih =>
      simp only [allBlank_cons, Bool.and_eq_true] at hblank
      rw [List.cons_append, squeeze_cons_of_blank hblank.1]
      cases rest with
      | nil => rfl
      | cons d others => rw [ih hblank.2 (by simp), spaced_spaced]

theorem squeeze_solid_append {word : List Char} (hsolid : ∀ c ∈ word, isBlank c = false)
    (text : List Char) : squeeze (word ++ text) = word ++ squeeze text := by
  induction word with
  | nil => rfl
  | cons c rest ih =>
      rw [List.cons_append, squeeze_cons_of_solid (hsolid c List.mem_cons_self),
        ih fun d hmem => hsolid d (List.mem_cons_of_mem _ hmem), List.cons_append]

/-- Blanks at the end leave nothing. -/
theorem squeeze_append_blank {blanks : List Char} (hblank : allBlank blanks = true)
    (text : List Char) : squeeze (text ++ blanks) = squeeze text := by
  induction text with
  | nil => exact (squeeze_eq_nil_iff blanks).mpr hblank
  | cons c rest ih =>
      rw [List.cons_append]
      cases hc : isBlank c with
      | true => rw [squeeze_cons_of_blank hc, squeeze_cons_of_blank hc, ih]
      | false => rw [squeeze_cons_of_solid hc, squeeze_cons_of_solid hc, ih]

/-- Leaving out the blanks in front leaves out the space in front. -/
theorem squeeze_dropWhile_isBlank (text : List Char) :
    squeeze (text.dropWhile isBlank) = (squeeze text).dropWhile (· == ' ') := by
  induction text with
  | nil => rfl
  | cons c rest ih =>
      cases hc : isBlank c with
      | true =>
          rw [List.dropWhile_cons_of_pos hc, ih, squeeze_cons_of_blank hc]
          cases squeeze rest with
          | nil => rfl
          | cons d others => by_cases hspace : d = ' ' <;> simp [spaced, hspace]
      | false =>
          rw [List.dropWhile_cons_of_neg (by simp [hc]), squeeze_cons_of_solid hc,
            List.dropWhile_cons_of_neg (by simpa using ne_space_of_solid hc)]

theorem squeeze_dropWhile_congr {first second : List Char}
    (hsame : squeeze first = squeeze second) :
    squeeze (first.dropWhile isBlank) = squeeze (second.dropWhile isBlank) := by
  rw [squeeze_dropWhile_isBlank, squeeze_dropWhile_isBlank, hsame]

/-! ## Unsqueezing -/

theorem eq_space_of_spaced {text rest : List Char} {c : Char}
    (hspaced : spaced text = c :: rest) : c = ' ' := by
  cases text with
  | nil => simp [spaced] at hspaced
  | cons d others =>
      by_cases hspace : d = ' '
      · rw [spaced, if_pos hspace] at hspaced
        exact (List.cons.inj hspaced).1 ▸ hspace
      · rw [spaced, if_neg hspace] at hspaced
        exact (List.cons.inj hspaced).1.symm

/-- A character that is not blank is squeezed into itself and is made from nothing else. -/
theorem exists_of_squeeze_eq_cons {text rest : List Char} {c : Char} (hc : isBlank c = false)
    (hsqueeze : squeeze text = c :: rest) : ∃ tail, text = c :: tail ∧ squeeze tail = rest := by
  cases text with
  | nil => simp at hsqueeze
  | cons d tail =>
      cases hd : isBlank d with
      | true =>
          rw [squeeze_cons_of_blank hd] at hsqueeze
          exact absurd (eq_space_of_spaced hsqueeze) (ne_space_of_solid hc)
      | false =>
          rw [squeeze_cons_of_solid hd] at hsqueeze
          obtain ⟨rfl, hrest⟩ := List.cons.inj hsqueeze
          exact ⟨tail, rfl, hrest⟩

theorem exists_of_squeeze_eq_append {word text rest : List Char}
    (hword : ∀ c ∈ word, isBlank c = false) (hsqueeze : squeeze text = word ++ rest) :
    ∃ tail, text = word ++ tail ∧ squeeze tail = rest := by
  induction word generalizing text with
  | nil => exact ⟨text, rfl, hsqueeze⟩
  | cons c others ih =>
      obtain ⟨tail, rfl, htail⟩ :=
        exists_of_squeeze_eq_cons (hword c List.mem_cons_self) hsqueeze
      obtain ⟨last, rfl, hlast⟩ := ih (fun d hmem => hword d (List.mem_cons_of_mem _ hmem)) htail
      exact ⟨last, rfl, hlast⟩

/-- Texts that are the same squeezed begin with the same character, unless that is blank. -/
theorem exists_of_squeeze_eq {other rest : List Char} {c : Char} (hc : isBlank c = false)
    (hsame : squeeze (c :: rest) = squeeze other) :
    ∃ tail, other = c :: tail ∧ squeeze rest = squeeze tail := by
  rw [squeeze_cons_of_solid hc] at hsame
  obtain ⟨tail, rfl, htail⟩ := exists_of_squeeze_eq_cons hc hsame.symm
  exact ⟨tail, rfl, htail.symm⟩

/-- What stands in front of a character that is not blank keeps its characters, blanks apart. -/
theorem exists_squeeze_append (before : List Char) {c : Char} (hc : isBlank c = false)
    (rest : List Char) :
    ∃ front, squeeze (before ++ c :: rest) = front ++ c :: squeeze rest ∧
      ∀ d, isBlank d = false → (d ∈ front ↔ d ∈ before) := by
  induction before with
  | nil => exact ⟨[], by simp [squeeze_cons_of_solid hc], by simp⟩
  | cons d others ih =>
      obtain ⟨front, hfront, hmem⟩ := ih
      cases hd : isBlank d with
      | false =>
          refine ⟨d :: front, ?_, fun e he => ?_⟩
          · rw [List.cons_append, squeeze_cons_of_solid hd, hfront, List.cons_append]
          · simp [hmem e he]
      | true =>
          have hspaced : ∃ more, spaced (front ++ c :: squeeze rest) =
              more ++ c :: squeeze rest ∧ ∀ e, isBlank e = false → (e ∈ more ↔ e ∈ front) := by
            cases front with
            | nil =>
                refine ⟨[' '], by simp [spaced, ne_space_of_solid hc], fun e he => ?_⟩
                simpa using ne_space_of_solid he
            | cons first tail =>
                by_cases hspace : first = ' '
                · exact ⟨first :: tail, by simp [spaced, hspace], fun e he => Iff.rfl⟩
                · refine ⟨' ' :: first :: tail, by simp [spaced, hspace], fun e he => ?_⟩
                  simp [ne_space_of_solid he]
          obtain ⟨more, hmore, hmoreMem⟩ := hspaced
          refine ⟨more, ?_, fun e he => ?_⟩
          · rw [List.cons_append, squeeze_cons_of_blank hd, hfront, hmore]
          · rw [hmoreMem e he, hmem e he, List.mem_cons, or_iff_right]
            rintro rfl
            simp [hd] at he

/-- A text is cut where its squeezed form is. -/
theorem exists_of_squeeze_eq_append_cons {text front rest : List Char} {c : Char}
    (hc : isBlank c = false) (hsqueeze : squeeze text = front ++ c :: rest) :
    ∃ before tail, text = before ++ c :: tail ∧ squeeze tail = rest ∧
      ∀ d, isBlank d = false → (d ∈ before ↔ d ∈ front) := by
  induction text generalizing front with
  | nil => simp at hsqueeze
  | cons d others ih =>
      cases hd : isBlank d with
      | false =>
          rw [squeeze_cons_of_solid hd] at hsqueeze
          cases front with
          | nil =>
              obtain ⟨rfl, hrest⟩ := List.cons.inj hsqueeze
              exact ⟨[], others, rfl, hrest, by simp⟩
          | cons e tail =>
              obtain ⟨rfl, hrest⟩ := List.cons.inj hsqueeze
              obtain ⟨before, after, rfl, hafter, hmem⟩ := ih hrest
              exact ⟨d :: before, after, rfl, hafter, fun e he => by simp [hmem e he]⟩
      | true =>
          rw [squeeze_cons_of_blank hd] at hsqueeze
          -- the space in front may be that of the text, or may have been put there
          have hinner : ∃ more, squeeze others = more ++ c :: rest ∧
              ∀ e, isBlank e = false → (e ∈ more ↔ e ∈ front) := by
            cases hothers : squeeze others with
            | nil => simp [hothers, spaced] at hsqueeze
            | cons first tail =>
                rw [hothers] at hsqueeze
                by_cases hspace : first = ' '
                · rw [spaced, if_pos hspace] at hsqueeze
                  exact ⟨front, hsqueeze, fun e _ => Iff.rfl⟩
                · rw [spaced, if_neg hspace] at hsqueeze
                  cases front with
                  | nil => exact absurd (List.cons.inj hsqueeze).1.symm (ne_space_of_solid hc)
                  | cons e more =>
                      obtain ⟨rfl, hrest⟩ := List.cons.inj hsqueeze
                      exact ⟨more, hrest, fun e he => by simp [ne_space_of_solid he]⟩
          obtain ⟨more, hmore, hmoreMem⟩ := hinner
          obtain ⟨before, tail, rfl, htail, hmem⟩ := ih hmore
          refine ⟨d :: before, tail, rfl, htail, fun e he => ?_⟩
          rw [← hmoreMem e he, ← hmem e he, List.mem_cons, or_iff_right]
          rintro rfl
          simp [hd] at he

/-! ## Patterns -/

theorem splitAround_eq_none_iff {pattern text : List Char} :
    splitAround pattern text = none ↔ ∀ before after, text ≠ before ++ (pattern ++ after) := by
  induction text with
  | nil =>
      cases pattern with
      | nil => simp [splitAround, dropStart?]
      | cons p rest => simp [splitAround, dropStart?]
  | cons c rest ih =>
      unfold splitAround
      split
      next after hafter =>
        rw [dropStart?_eq_some_iff] at hafter
        simp only [reduceCtorEq, false_iff, not_forall, not_not]
        exact ⟨[], after, hafter⟩
      next hnone =>
        rw [Option.map_eq_none_iff, ih]
        constructor
        · rintro hnot (_ | ⟨d, before⟩) after heq
          · rw [List.nil_append] at heq
            rw [dropStart?_eq_some_iff.mpr heq] at hnone
            simp at hnone
          · exact hnot before after (List.cons.inj heq).2
        · rintro hnot before after rfl
          exact hnot (c :: before) after rfl

/-- A pattern without blanks in it stands in both of two texts that are the same squeezed, or in
neither. -/
theorem splitAround_eq_none_of_squeeze {pattern text other : List Char} (hne : pattern ≠ [])
    (hpattern : ∀ c ∈ pattern, isBlank c = false) (hsame : squeeze text = squeeze other)
    (hnone : splitAround pattern text = none) : splitAround pattern other = none := by
  rw [splitAround_eq_none_iff] at hnone ⊢
  rintro before after rfl
  obtain ⟨c, rest, rfl⟩ := List.exists_cons_of_ne_nil hne
  have hc := hpattern c List.mem_cons_self
  have hrest : ∀ d ∈ rest, isBlank d = false := fun d hmem =>
    hpattern d (List.mem_cons_of_mem _ hmem)
  obtain ⟨front, hfront, -⟩ := exists_squeeze_append before hc (rest ++ after)
  rw [List.cons_append, hfront, squeeze_solid_append hrest] at hsame
  obtain ⟨start, tail, rfl, htail, -⟩ := exists_of_squeeze_eq_append_cons hc hsame
  obtain ⟨last, rfl, -⟩ := exists_of_squeeze_eq_append hrest htail
  exact hnone start last rfl

/-- Blanks at the end make no start of a pattern without blanks. -/
theorem dropStart?_append_blank {pattern blanks : List Char}
    (hpattern : ∀ c ∈ pattern, isBlank c = false) (hblank : allBlank blanks = true)
    (text : List Char) :
    dropStart? pattern (text ++ blanks) = (dropStart? pattern text).map (· ++ blanks) := by
  induction pattern generalizing text with
  | nil => simp [dropStart?]
  | cons p pattern ih =>
      have hrest := ih fun c hmem => hpattern c (List.mem_cons_of_mem _ hmem)
      cases text with
      | nil =>
          cases blanks with
          | nil => rfl
          | cons c others =>
              have hne : p ≠ c := by
                rintro rfl
                have hp := hpattern p List.mem_cons_self
                simp [isBlank_of_mem hblank List.mem_cons_self] at hp
              simp [dropStart?, hne]
      | cons c text =>
          simp only [List.cons_append, dropStart?]
          split
          next => exact hrest text
          next => rfl

/-! ## Words -/

/-- Words with one space between any two. -/
def unwords : List (List Char) → List Char
  | [] => []
  | word :: words => word ++ words.flatMap fun other => ' ' :: other

/-- Words with the given gaps between them. -/
def wordsText (first : List Char) (rest : List (List Char × List Char)) : List Char :=
  first ++ rest.flatMap fun (gap, word) => gap ++ word

/-- Gaps that part solid words. -/
def Parted (rest : List (List Char × List Char)) : Prop :=
  ∀ parted ∈ rest, parted.1 ≠ [] ∧ allBlank parted.1 = true ∧ Solid parted.2

theorem squeeze_wordsText {first : List Char} {rest : List (List Char × List Char)}
    (hfirst : Solid first) (hrest : Parted rest) {trailing : List Char}
    (htrailing : allBlank trailing = true) :
    squeeze (wordsText first rest ++ trailing) = unwords (first :: rest.map (·.2)) := by
  rw [squeeze_append_blank htrailing, wordsText, squeeze_solid_append hfirst.2, unwords]
  congr 1
  induction rest with
  | nil => rfl
  | cons parted others ih =>
      obtain ⟨hne, hblank, hword, hsolid⟩ := hrest parted List.mem_cons_self
      have hothers := ih fun other hmem => hrest other (List.mem_cons_of_mem _ hmem)
      rw [List.flatMap_cons, List.append_assoc, squeeze_blank_append hblank hne,
        squeeze_solid_append hsolid, hothers, List.map_cons, List.flatMap_cons]
      obtain ⟨c, tail, hcons⟩ := List.exists_cons_of_ne_nil hword
      rw [hcons, List.cons_append, spaced, if_neg]
      · rfl
      · exact ne_space_of_solid (hsolid c (by simp [hcons]))

theorem stopsAt_unwords {p : Char → Bool} (hspace : p ' ' = false) (words : List (List Char)) :
    StopsAt p (words.flatMap fun other => ' ' :: other) := by
  cases words with
  | nil => exact stopsAt_nil
  | cons word others => simp [hspace]

theorem Solid.trimmed {word : List Char} (hsolid : Solid word) : Trimmed word := by
  obtain ⟨c, hlast⟩ : ∃ c, word.getLast? = some c :=
    ⟨_, List.getLast?_eq_some_getLast hsolid.1⟩
  exact trimmed_of_getLast? hlast (hsolid.2 c (List.mem_of_getLast? hlast))

theorem stopsAt_wordsText {first : List Char} (hfirst : Solid first)
    (rest : List (List Char × List Char)) (trailing : List Char) :
    StopsAt isBlank (wordsText first rest ++ trailing) := by
  obtain ⟨c, tail, hcons⟩ := List.exists_cons_of_ne_nil hfirst.1
  rw [wordsText, hcons, List.cons_append, List.cons_append, stopsAt_cons]
  exact hfirst.2 c (by simp [hcons])

theorem trimmed_wordsText {first : List Char} {rest : List (List Char × List Char)}
    (hfirst : Solid first) (hrest : Parted rest) :
    wordsText first rest ≠ [] ∧ Trimmed (wordsText first rest) := by
  refine ⟨by simp [wordsText, hfirst.1], ?_⟩
  cases hlast : rest.getLast? with
  | none =>
      obtain rfl := List.getLast?_eq_none_iff.mp hlast
      simpa [wordsText] using hfirst.trimmed
  | some parted =>
      obtain ⟨others, rfl⟩ := List.getLast?_eq_some_iff.mp hlast
      have hsolid := (hrest parted (by simp)).2.2
      have htext : wordsText first (others ++ [parted]) =
          wordsText first others ++ parted.1 ++ parted.2 := by
        simp [wordsText]
      rw [htext]
      exact hsolid.trimmed.append_left hsolid.1 _

/-- Solid words can be told apart by the spaces between them. -/
theorem unwords_inj {words others : List (List Char)} (hwords : ∀ word ∈ words, Solid word)
    (hothers : ∀ word ∈ others, Solid word) (hsame : unwords words = unwords others) :
    words = others := by
  have hinner : ∀ {words others : List (List Char)}, (∀ word ∈ words, Solid word) →
      (∀ word ∈ others, Solid word) → (words.flatMap fun other => ' ' :: other) =
        (others.flatMap fun other => ' ' :: other) → words = others := by
    intro words
    induction words with
    | nil =>
        intro others _ _ hsame
        cases others with
        | nil => rfl
        | cons other rest => simp at hsame
    | cons word rest ih =>
        intro others hwords hothers hsame
        cases others with
        | nil => simp at hsame
        | cons other more =>
            simp only [List.flatMap_cons, List.cons_append, List.cons.injEq, true_and] at hsame
            have hword : ∀ c ∈ word, (!isBlank c) = true := fun c hmem => by
              simp [(hwords word List.mem_cons_self).2 c hmem]
            have hother : ∀ c ∈ other, (!isBlank c) = true := fun c hmem => by
              simp [(hothers other List.mem_cons_self).2 c hmem]
            have hstop : ∀ list : List (List Char), StopsAt (fun c => !isBlank c)
                (list.flatMap fun other => ' ' :: other) := stopsAt_unwords rfl
            have htake := congrArg (List.takeWhile fun c => !isBlank c) hsame
            have hdrop := congrArg (List.dropWhile fun c => !isBlank c) hsame
            rw [takeWhile_run hword (hstop _), takeWhile_run hother (hstop _)] at htake
            rw [dropWhile_run hword (hstop _), dropWhile_run hother (hstop _)] at hdrop
            rw [htake, ih (fun w hmem => hwords w (List.mem_cons_of_mem _ hmem))
              (fun w hmem => hothers w (List.mem_cons_of_mem _ hmem)) hdrop]
  cases words with
  | nil =>
      cases others with
      | nil => rfl
      | cons other rest =>
          have hne := (hothers other List.mem_cons_self).1
          simp [unwords, hne] at hsame
  | cons word rest =>
      cases others with
      | nil =>
          have hne := (hwords word List.mem_cons_self).1
          simp [unwords, hne] at hsame
      | cons other more => exact hinner hwords hothers (by simpa [unwords] using hsame)

namespace Run

theorem source_words (leading : List Char) (first : Word) (rest : List (List Char × Word))
    (trailing : List Char) :
    (Run.words leading first rest trailing).source = leading ++
      (wordsText (Word.raw first) (rest.map fun (gap, word) => (gap, Word.raw word)) ++
        trailing) := by
  simp [source, wordsText, List.flatMap_map]

theorem eq_of_words {text leading trailing : List Char} {first : Word}
    {rest : List (List Char × Word)} (hrun : ofText text = .words leading first rest trailing) :
    text = leading ++
      (wordsText (Word.raw first) (rest.map fun (gap, word) => (gap, Word.raw word)) ++
        trailing) := by
  rw [← source_words, ← hrun, source_ofText]

theorem takeWhile_of_words {text leading trailing : List Char} {first : Word}
    {rest : List (List Char × Word)} (hrun : ofText text = .words leading first rest trailing) :
    text.takeWhile isBlank = leading := by
  have hproper := proper_ofText text
  rw [hrun] at hproper
  rw [eq_of_words hrun]
  exact takeWhile_run (fun _ => isBlank_of_mem hproper.1) (stopsAt_wordsText hproper.2.1 _ _)

theorem Proper.parted {leading : List Char} {first : Word} {rest : List (List Char × Word)}
    {trailing : List Char} (hproper : (Run.words leading first rest trailing).Proper) :
    Parted (rest.map fun (gap, word) => (gap, Word.raw word)) := by
  intro parted hmem
  obtain ⟨source, hsource, rfl⟩ := List.mem_map.mp hmem
  exact hproper.2.2.1 source hsource

theorem Proper.solid_of_mem_units {run : Run} (hproper : run.Proper) :
    ∀ word ∈ run.units, Solid word := by
  cases run with
  | blank leading => simp [units, wordList]
  | words leading first rest trailing =>
      intro word hmem
      simp only [units, wordList, List.map_cons, List.mem_cons, List.map_map] at hmem
      rcases hmem with rfl | hmem
      · exact hproper.2.1
      · obtain ⟨parted, hparted, rfl⟩ := List.mem_map.mp hmem
        exact (hproper.2.2.1 parted hparted).2.2

end Run

/-- Without the blanks in front, a text is squeezed to its words. -/
theorem squeeze_dropWhile (text : List Char) :
    squeeze (text.dropWhile isBlank) = unwords (Run.ofText text).units := by
  have hproper := Run.proper_ofText text
  have hsource := Run.source_ofText text
  cases hrun : Run.ofText text with
  | blank leading =>
      rw [hrun] at hproper hsource
      have hdropped : text.dropWhile isBlank = [] := by
        rw [List.dropWhile_eq_nil_iff, ← hsource]
        exact fun c hmem => isBlank_of_mem hproper hmem
      rw [hdropped]
      rfl
  | words leading first rest trailing =>
      rw [hrun] at hproper hsource
      rw [← hsource, Run.source_words,
        dropWhile_run (fun _ => isBlank_of_mem hproper.1) (stopsAt_wordsText hproper.2.1 _ _),
        squeeze_wordsText hproper.2.1 hproper.parted hproper.2.2.2]
      simp [Run.units, Run.wordList, Function.comp_def]

/-- The words of a text are those that are parted in it. -/
theorem units_ofText {leading first trailing : List Char} {rest : List (List Char × List Char)}
    (hleading : allBlank leading = true) (hfirst : Solid first) (hrest : Parted rest)
    (htrailing : allBlank trailing = true) :
    (Run.ofText (leading ++ (wordsText first rest ++ trailing))).units =
      first :: rest.map (·.2) := by
  have hwords := squeeze_dropWhile (leading ++ (wordsText first rest ++ trailing))
  rw [dropWhile_run (fun _ => isBlank_of_mem hleading) (stopsAt_wordsText hfirst rest trailing),
    squeeze_wordsText hfirst hrest htrailing] at hwords
  refine unwords_inj (Run.proper_ofText _).solid_of_mem_units ?_ hwords.symm
  intro word hmem
  rcases List.mem_cons.mp hmem with rfl | hmem
  · exact hfirst
  · obtain ⟨parted, hparted, rfl⟩ := List.mem_map.mp hmem
    exact (hrest parted hparted).2.2

theorem units_eq_nil_iff (text : List Char) :
    (Run.ofText text).units = [] ↔ allBlank text = true := by
  have hwords := squeeze_dropWhile text
  constructor
  · intro hnil
    rw [hnil] at hwords
    have hdropped := (squeeze_eq_nil_iff _).mp hwords
    rw [← List.takeWhile_append_dropWhile (p := isBlank) (l := text), allBlank_append,
      allBlank_takeWhile, hdropped]
    rfl
  · intro hblank
    have hnil : text.dropWhile isBlank = [] :=
      List.dropWhile_eq_nil_iff.mpr fun c hmem => isBlank_of_mem hblank hmem
    rw [hnil] at hwords
    refine unwords_inj (Run.proper_ofText _).solid_of_mem_units (by simp) hwords.symm

end Markup.Text
