import Markup.Proofs.Offsets.Words
import Markup.Proofs.Text.Fragments

/-!
# Running text is cut in one way

Where running text is cut follows from what its fragments are: they are blank, or character
references, or neither, none of them goes on in the next one, and every character reference in the
text is one of them. The words are then the longest runs of fragments between blank ones. The
readers come to this although they find out late: that characters end, when something else begins,
and that blanks stand between two words, when the second one begins. Main statement: `cut_exactly`.
-/

namespace Markup.Text

/-! ## Character references -/

/-- A character reference: an ampersand, a name that begins with a letter or a number in decimal or
hexadecimal digits, and a semicolon. The letters and digits are those of ASCII. -/
inductive Reference : List Char → Prop
  | named {c : Char} {name : List Char} : c.isAlpha = true → (∀ d ∈ name, d.isAlphanum = true) →
      Reference ('&' :: c :: (name ++ [';']))
  | decimal {digits : List Char} : digits ≠ [] → (∀ d ∈ digits, d.isDigit = true) →
      Reference ('&' :: '#' :: (digits ++ [';']))
  | hexadecimal {x : Char} {digits : List Char} : x = 'x' ∨ x = 'X' → digits ≠ [] →
      (∀ d ∈ digits, isHexDigit d = true) → Reference ('&' :: '#' :: x :: (digits ++ [';']))

/-- What is split off is a run of the class, as long as it goes, and the semicolon behind it. -/
theorem splitReference_iff {inClass : Char → Bool} (hclass : inClass ';' = false)
    {text body after : List Char} : splitReference inClass text = some (body, after) ↔
      ∃ run, run ≠ [] ∧ (∀ c ∈ run, inClass c = true) ∧ body = run ++ [';'] ∧
        text = body ++ after := by
  constructor
  · intro hsplit
    have htext := splitReference_append hsplit
    unfold splitReference at hsplit
    split at hsplit
    next c run tail hrun htail =>
      obtain ⟨rfl, rfl⟩ := Prod.mk.inj (Option.some.inj hsplit)
      exact ⟨c :: run, by simp, fun d hmem => mem_takeWhile (hrun ▸ hmem), rfl, htext.symm⟩
    next => simp at hsplit
  · rintro ⟨run, hne, hrun, rfl, rfl⟩
    obtain ⟨c, rest, rfl⟩ := List.exists_cons_of_ne_nil hne
    have hstops : StopsAt inClass (';' :: after) := stopsAt_cons.mpr hclass
    have hparts : c :: rest ++ [';'] ++ after = (c :: rest) ++ ';' :: after := by simp
    rw [splitReference, hparts, takeWhile_run hrun hstops, dropWhile_run hrun hstops]
    rfl

/-- Behind an ampersand, what is split off is the rest of a character reference. -/
theorem splitEntity_iff {text body after : List Char} :
    splitEntity text = some (body, after) ↔ Reference ('&' :: body) ∧ text = body ++ after := by
  constructor
  · intro hsplit
    refine ⟨?_, (splitEntity_append hsplit).symm⟩
    unfold splitEntity at hsplit
    split at hsplit
    next x rest =>
      split at hsplit
      next hx =>
        obtain ⟨⟨run, tail⟩, hrun, heq⟩ := Option.map_eq_some_iff.mp hsplit
        obtain ⟨rfl, rfl⟩ := Prod.mk.inj heq
        obtain ⟨digits, hne, hdigits, rfl, -⟩ := (splitReference_iff (by decide)).mp hrun
        exact .hexadecimal (by simpa using hx) hne hdigits
      next =>
        obtain ⟨⟨run, tail⟩, hrun, heq⟩ := Option.map_eq_some_iff.mp hsplit
        obtain ⟨rfl, rfl⟩ := Prod.mk.inj heq
        obtain ⟨digits, hne, hdigits, rfl, -⟩ := (splitReference_iff (by decide)).mp hrun
        exact .decimal hne hdigits
    next c rest _ =>
      split at hsplit
      next halpha =>
        obtain ⟨run, hne, hname, rfl, htext⟩ := (splitReference_iff (by decide)).mp hsplit
        obtain ⟨first, name, rfl⟩ := List.exists_cons_of_ne_nil hne
        obtain ⟨rfl, -⟩ := List.cons.inj htext
        exact .named halpha fun d hmem => hname d (List.mem_cons_of_mem _ hmem)
      next => simp at hsplit
    next => simp at hsplit
  · rintro ⟨href, rfl⟩
    generalize hwhole : '&' :: body = whole at href
    cases href with
    | @named c name halpha hname =>
        obtain rfl := (List.cons.inj hwhole).2
        have hne : c ≠ '#' := by
          rintro rfl
          revert halpha
          decide
        have hall : ∀ d ∈ c :: name, d.isAlphanum = true :=
          List.forall_mem_cons.mpr ⟨isAlphanum_iff.mpr (.inl halpha), hname⟩
        rw [List.cons_append, splitEntity_cons_of_ne hne, if_pos halpha]
        exact (splitReference_iff (by decide)).mpr ⟨c :: name, by simp, hall, rfl, rfl⟩
    | @decimal digits hne hdigits =>
        obtain rfl := (List.cons.inj hwhole).2
        obtain ⟨d, rest, rfl⟩ := List.exists_cons_of_ne_nil hne
        have hd : ¬(d = 'x' ∨ d = 'X') := by
          have hdigit := hdigits d List.mem_cons_self
          rintro (rfl | rfl) <;> revert hdigit <;> decide
        have hsplit : splitReference Char.isDigit (d :: (rest ++ [';'] ++ after)) =
            some (d :: (rest ++ [';']), after) :=
          (splitReference_iff (by decide)).mpr ⟨d :: rest, by simp, hdigits, rfl, rfl⟩
        simp only [List.cons_append, splitEntity, Bool.or_eq_true, decide_eq_true_eq,
          if_neg hd, hsplit]
        rfl
    | @hexadecimal x digits hx hne hdigits =>
        obtain rfl := (List.cons.inj hwhole).2
        have hsplit : splitReference isHexDigit (digits ++ [';'] ++ after) =
            some (digits ++ [';'], after) :=
          (splitReference_iff (by decide)).mpr ⟨digits, hne, hdigits, rfl, rfl⟩
        simp only [List.cons_append, splitEntity, Bool.or_eq_true, decide_eq_true_eq,
          if_pos hx, hsplit]
        rfl

/-- A character reference has one ampersand, at its start. -/
theorem Reference.exists_body {text : List Char} (href : Reference text) :
    ∃ body, text = '&' :: body ∧ '&' ∉ body := by
  cases href with
  | @named c name halpha hname =>
      refine ⟨_, rfl, fun hmem => ?_⟩
      have hcases : '&' = c ∨ '&' ∈ name := by simpa using hmem
      rcases hcases with rfl | hmem
      · revert halpha
        decide
      · exact absurd (hname _ hmem) (by decide)
  | @decimal digits hne hdigits =>
      refine ⟨_, rfl, fun hmem => ?_⟩
      have hdigit : '&' ∈ digits := by simpa using hmem
      exact absurd (hdigits _ hdigit) (by decide)
  | @hexadecimal x digits hx hne hdigits =>
      refine ⟨_, rfl, fun hmem => ?_⟩
      have hcases : '&' = x ∨ '&' ∈ digits := by simpa using hmem
      rcases hcases with rfl | hmem
      · revert hx
        decide
      · exact absurd (hdigits _ hmem) (by decide)

/-! ## Fragments -/

/-- Fragments that a text is cut into: none is empty; blanks are blank, and all others have no blank
in them; only references stand next to others of their kind; and the references are all that the
text has, each where it stands. -/
structure Cuts (text : List Char) (pieces : List Fragment) : Prop where
  joined : pieces.flatMap Fragment.raw = text
  proper : ∀ piece ∈ pieces, piece.Proper
  apart : pieces.IsChain fun piece next => piece.kind = next.kind → piece.kind = .entity
  references : ∀ before body, Reference body ∧ before ++ body <+: text ↔
    ∃ front back, pieces = front ++ ⟨.entity, body⟩ :: back ∧ front.flatMap Fragment.raw = before

/-- A character in front of fragments leaves those behind the first alone. -/
theorem exists_pushCharacter_eq {c : Char} {pieces : List Fragment} {piece : Fragment}
    (hkind : piece.kind ≠ .characters) {before : List Char}
    (hpieces : ∃ front back, pieces = front ++ piece :: back ∧
      front.flatMap Fragment.raw = before) :
    ∃ front back, pushCharacter c pieces = front ++ piece :: back ∧
      front.flatMap Fragment.raw = c :: before := by
  obtain ⟨front, back, rfl, rfl⟩ := hpieces
  refine ⟨pushCharacter c front, back, ?_, flatMap_raw_pushCharacter c front⟩
  cases front with
  | nil => exact pushCharacter_cons_of_ne hkind c back
  | cons first rest =>
      obtain ⟨kind, raw⟩ := first
      cases kind <;> rfl

/-- A mark that the front of a text does not have from some place on stands behind that front. -/
theorem exists_of_append_eq {mark : Char} {first rest before behind : List Char}
    (heq : first ++ rest = before ++ mark :: behind)
    (hnot : ∀ more, first = before ++ more → mark ∉ more) :
    ∃ more, before = first ++ more ∧ rest = more ++ mark :: behind := by
  rcases List.append_eq_append_iff.mp heq with ⟨more, hbefore, hrest⟩ | ⟨more, hfirst, hmark⟩
  · exact ⟨more, hbefore, hrest⟩
  · cases more with
    | nil => exact ⟨[], by simpa using hfirst.symm, by simpa using hmark.symm⟩
    | cons c others =>
        obtain ⟨rfl, -⟩ := List.cons.inj hmark
        exact absurd List.mem_cons_self (hnot _ hfirst)

/-- Every character reference of a text is a fragment of its own. -/
theorem exists_fragments_of_reference {text before body after : List Char} (href : Reference body)
    (htext : text = before ++ (body ++ after)) : ∃ front back,
      fragments text = front ++ ⟨.entity, body⟩ :: back ∧ front.flatMap Fragment.raw = before := by
  obtain ⟨name, rfl, hname⟩ := href.exists_body
  fun_induction fragments text generalizing before with
  | case1 => simp at htext
  | case2 c rest hblank ih =>
      have hwhole : (c :: rest.takeWhile isBlank) ++ rest.dropWhile isBlank =
          before ++ '&' :: (name ++ after) := by
        rw [List.cons_append, List.takeWhile_append_dropWhile, htext]
        rfl
      obtain ⟨more, rfl, hrest⟩ := exists_of_append_eq hwhole fun more hfirst hmem => by
        have hmark : '&' ∈ c :: rest.takeWhile isBlank := by simp [hfirst, hmem]
        rcases List.mem_cons.mp hmark with rfl | hmark
        · exact absurd hblank (by decide)
        · exact absurd (mem_takeWhile hmark) (by decide)
      obtain ⟨front, back, hpieces, hfront⟩ := ih hrest
      exact ⟨_ :: front, back, by rw [hpieces]; rfl, by simp [hfront]⟩
  | case3 rest found tail hentity hblank ih =>
      cases before with
      | nil =>
          obtain ⟨-, hrest⟩ := List.cons.inj htext
          have hsame := splitEntity_iff.mpr ⟨href, hrest⟩
          obtain ⟨rfl, rfl⟩ := Prod.mk.inj (Option.some.inj (hentity.symm.trans hsame))
          exact ⟨[], fragments tail, rfl, rfl⟩
      | cons c others =>
          have hwhole : ('&' :: found) ++ tail = (c :: others) ++ '&' :: (name ++ after) := by
            rw [List.cons_append, splitEntity_append hentity, htext]
            rfl
          obtain ⟨hfound, -⟩ := splitEntity_iff.mp hentity
          obtain ⟨_, heq, honly⟩ := hfound.exists_body
          obtain rfl := (List.cons.inj heq).2
          obtain ⟨more, hbefore, hrest⟩ := exists_of_append_eq hwhole fun more hfirst hmem => by
            refine honly ?_
            rw [(List.cons.inj hfirst).2]
            simp [hmem]
          obtain ⟨front, back, hpieces, hfront⟩ := ih hrest
          exact ⟨_ :: front, back, by rw [hpieces]; rfl, by rw [hbefore]; simp [hfront]⟩
  | case4 rest hentity hblank ih =>
      cases before with
      | nil =>
          obtain ⟨-, hrest⟩ := List.cons.inj htext
          rw [splitEntity_iff.mpr ⟨href, hrest⟩] at hentity
          cases hentity
      | cons c others =>
          obtain ⟨rfl, hrest⟩ := List.cons.inj htext
          exact exists_pushCharacter_eq (by simp) (ih hrest)
  | case5 c rest hblank hmark ih =>
      cases before with
      | nil => exact absurd (List.cons.inj htext).1 hmark
      | cons d others =>
          obtain ⟨rfl, hrest⟩ := List.cons.inj htext
          exact exists_pushCharacter_eq (by simp) (ih hrest)

theorem mem_of_mem_pushCharacter {c : Char} {pieces : List Fragment} {piece : Fragment}
    (hkind : piece.kind ≠ .characters) (hmem : piece ∈ pushCharacter c pieces) :
    piece ∈ pieces := by
  unfold pushCharacter at hmem
  split at hmem <;> rcases List.mem_cons.mp hmem with rfl | hmem
  · exact absurd rfl hkind
  · exact List.mem_cons_of_mem _ hmem
  · exact absurd rfl hkind
  · exact hmem

theorem reference_of_mem_fragments {text : List Char} {piece : Fragment}
    (hmem : piece ∈ fragments text) (hkind : piece.kind = .entity) : Reference piece.raw := by
  fun_induction fragments text with
  | case1 => cases hmem
  | case2 c rest hblank ih =>
      rcases List.mem_cons.mp hmem with rfl | hmem
      · cases hkind
      · exact ih hmem
  | case3 rest body after hentity hblank ih =>
      rcases List.mem_cons.mp hmem with rfl | hmem
      · exact (splitEntity_iff.mp hentity).1
      · exact ih hmem
  | case4 rest hentity hblank ih => exact ih (mem_of_mem_pushCharacter (by simp [hkind]) hmem)
  | case5 c rest hblank hmark ih => exact ih (mem_of_mem_pushCharacter (by simp [hkind]) hmem)

/-- Fragments of one kind that stand next to each other are character references. -/
theorem isChain_fragments (text : List Char) : (fragments text).IsChain fun piece next =>
    piece.kind = next.kind → piece.kind = .entity := by
  have hpush : ∀ (c : Char) {pieces : List Fragment}, (pieces.IsChain fun piece next =>
      piece.kind = next.kind → piece.kind = .entity) → (pushCharacter c pieces).IsChain
        fun piece next => piece.kind = next.kind → piece.kind = .entity := by
    intro c pieces hchain
    cases pieces with
    | nil => exact List.isChain_singleton _
    | cons first rest =>
        obtain ⟨kind, raw⟩ := first
        cases kind with
        | characters => exact List.isChain_cons.mpr (List.isChain_cons.mp hchain)
        | blank => exact hchain.cons_cons (by simp)
        | entity => exact hchain.cons_cons (by simp)
  fun_induction fragments text with
  | case1 => exact List.isChain_nil
  | case2 c rest hblank ih =>
      refine List.isChain_cons.mpr ⟨fun next hnext hkind => ?_, ih⟩
      obtain ⟨others, hpieces⟩ := List.head?_eq_some_iff.mp hnext
      -- what stands behind all blanks does not begin with one
      cases hrest : rest.dropWhile isBlank with
      | nil => simp [hrest, fragments] at hpieces
      | cons d tail =>
          have hfirst := stopsAt_dropWhile isBlank rest
          rw [hrest, stopsAt_cons] at hfirst
          rw [hrest] at hpieces
          simp [isBlank_of_fragments_eq_cons hpieces hkind.symm] at hfirst
  | case3 rest body after hentity hblank ih =>
      exact List.isChain_cons.mpr ⟨fun next _ _ => rfl, ih⟩
  | case4 rest hentity hblank ih => exact hpush _ ih
  | case5 c rest hblank hmark ih => exact hpush _ ih

theorem cuts_fragments (text : List Char) : Cuts text (fragments text) := by
  refine ⟨flatMap_raw_fragments text, proper_of_mem_fragments, isChain_fragments text,
    fun before body => ⟨?_, ?_⟩⟩
  · rintro ⟨href, after, htext⟩
    exact exists_fragments_of_reference href (by rw [← htext, List.append_assoc])
  · rintro ⟨front, back, hpieces, rfl⟩
    have hmem : ⟨.entity, body⟩ ∈ fragments text := by simp [hpieces]
    refine ⟨reference_of_mem_fragments hmem rfl, back.flatMap Fragment.raw, ?_⟩
    rw [← flatMap_raw_fragments text, hpieces]
    simp

/-! ## No other way -/

theorem Fragment.Proper.ne_nil {piece : Fragment} (hproper : piece.Proper) : piece.raw ≠ [] := by
  obtain ⟨kind, raw⟩ := piece
  cases kind <;> exact hproper.1

namespace Cuts

variable {text : List Char} {piece : Fragment} {rest : List Fragment}

theorem text_cons (hcuts : Cuts text (piece :: rest)) :
    text = piece.raw ++ rest.flatMap Fragment.raw := by
  rw [← hcuts.joined, List.flatMap_cons]

/-- Behind the first fragment, the rest of the text is cut. -/
theorem tail (hcuts : Cuts text (piece :: rest)) : Cuts (rest.flatMap Fragment.raw) rest := by
  have hne := (hcuts.proper piece List.mem_cons_self).ne_nil
  refine ⟨rfl, fun other hmem => hcuts.proper other (List.mem_cons_of_mem _ hmem), hcuts.apart.tail,
    fun before body => ?_⟩
  have hshifted : before ++ body <+: rest.flatMap Fragment.raw ↔
      (piece.raw ++ before) ++ body <+: text := by
    rw [hcuts.text_cons, List.append_assoc, List.prefix_append_right_inj]
  rw [hshifted, hcuts.references]
  constructor
  · rintro ⟨front, back, hpieces, hfront⟩
    cases front with
    | nil => simp [hne] at hfront
    | cons first front =>
        obtain ⟨rfl, rfl⟩ := List.cons.inj hpieces
        exact ⟨front, back, rfl, List.append_cancel_left hfront⟩
  · rintro ⟨front, back, rfl, rfl⟩
    exact ⟨piece :: front, back, rfl, rfl⟩

/-- Behind blanks that are a fragment there are no more blanks. -/
theorem stopsAt_blank (hcuts : Cuts text (piece :: rest)) (hkind : piece.kind = .blank) :
    StopsAt isBlank (rest.flatMap Fragment.raw) := by
  cases rest with
  | nil => exact stopsAt_nil
  | cons next others =>
      have hapart := (List.isChain_cons_cons.mp hcuts.apart).1
      have hproper := hcuts.proper next (by simp)
      obtain ⟨kind, raw⟩ := next
      obtain ⟨c, more, rfl⟩ := List.exists_cons_of_ne_nil hproper.ne_nil
      refine stopsAt_cons.mpr ?_
      cases kind with
      | blank => simp [hkind] at hapart
      | characters => exact hproper.2 c List.mem_cons_self
      | entity => exact hproper.2 c List.mem_cons_self

/-- No character reference begins inside a fragment of characters. -/
theorem splitEntity_eq_none (hcuts : Cuts text (piece :: rest)) (hkind : piece.kind = .characters)
    {before after : List Char} (hraw : piece.raw = before ++ '&' :: after) :
    splitEntity (after ++ rest.flatMap Fragment.raw) = none := by
  rw [Option.eq_none_iff_forall_ne_some]
  rintro ⟨body, tail⟩ hsplit
  obtain ⟨href, htail⟩ := splitEntity_iff.mp hsplit
  have hthere : before ++ '&' :: body <+: text := by
    refine ⟨tail, ?_⟩
    rw [hcuts.text_cons, hraw]
    simp [htail]
  obtain ⟨front, back, hpieces, hfront⟩ := (hcuts.references _ _).mp ⟨href, hthere⟩
  cases front with
  | nil =>
      obtain ⟨rfl, -⟩ := List.cons.inj hpieces
      cases hkind
  | cons first front =>
      obtain ⟨rfl, -⟩ := List.cons.inj hpieces
      have hlength := congrArg List.length hfront
      rw [List.flatMap_cons, hraw] at hlength
      simp at hlength

end Cuts

/-- Where no reference begins and nothing is blank, characters are put in front of the fragments
behind them. -/
theorem fragments_append_of_plain {run : List Char} (tail : List Char)
    (hsolid : ∀ c ∈ run, isBlank c = false)
    (hnone : ∀ before after, run = before ++ '&' :: after → splitEntity (after ++ tail) = none) :
    fragments (run ++ tail) = run.foldr pushCharacter (fragments tail) := by
  induction run with
  | nil => rfl
  | cons c run ih =>
      have hrest :=
        ih (fun d hmem => hsolid d (List.mem_cons_of_mem _ hmem)) fun before after hrun =>
        hnone (c :: before) after (by rw [hrun]; rfl)
      rw [List.cons_append, fragments_cons_of_solid (hsolid c List.mem_cons_self), hrest]
      · rfl
      · rintro rfl
        exact hnone [] run rfl

/-- A text has one cut into fragments. -/
theorem Cuts.eq_fragments {text : List Char} {pieces : List Fragment} (hcuts : Cuts text pieces) :
    fragments text = pieces := by
  induction pieces generalizing text with
  | nil =>
      obtain rfl : [] = text := hcuts.joined
      simp [fragments]
  | cons piece rest ih =>
      have hrest := ih hcuts.tail
      have hproper := hcuts.proper piece List.mem_cons_self
      have htext := hcuts.text_cons
      obtain ⟨kind, raw⟩ := piece
      cases kind with
      | blank =>
          obtain ⟨c, others, rfl⟩ := List.exists_cons_of_ne_nil hproper.1
          have hblank : ∀ d ∈ c :: others, isBlank d = true := fun d => isBlank_of_mem hproper.2
          have hothers : ∀ d ∈ others, isBlank d = true := fun d hmem =>
            hblank d (List.mem_cons_of_mem _ hmem)
          have hstops := hcuts.stopsAt_blank rfl
          rw [htext, List.cons_append, fragments, if_pos (hblank c List.mem_cons_self),
            takeWhile_run hothers hstops, dropWhile_run hothers hstops, hrest]
      | entity =>
          obtain ⟨href, -⟩ := (hcuts.references [] raw).mpr ⟨[], rest, rfl, rfl⟩
          obtain ⟨body, rfl, -⟩ := href.exists_body
          rw [htext, List.cons_append, fragments_cons_entity
            (splitEntity_iff.mpr ⟨href, rfl⟩), hrest]
      | characters =>
          rw [htext, fragments_append_of_plain _ hproper.2 fun before after =>
            hcuts.splitEntity_eq_none rfl, hrest]
          obtain ⟨c, others, rfl⟩ := List.exists_cons_of_ne_nil hproper.1
          cases rest with
          | nil => exact foldr_pushCharacter_nil _
          | cons next more =>
              have hapart := (List.isChain_cons_cons.mp hcuts.apart).1
              exact foldr_pushCharacter (fun hnext => by simp [hnext] at hapart) more _

/-! ## Words -/

/-- The longest runs of fragments without a blank one. -/
def solidRuns (pieces : List Fragment) : List Word :=
  (pieces.splitOnP fun piece => piece.kind == .blank).filter fun run => run ≠ []

/-- Fragments put together from words and the blanks around them: the words are the longest runs of
fragments without a blank one, and between any two words are blanks. -/
structure Parts.Join (parts : Parts) (pieces : List Fragment) : Prop where
  words : parts.words = solidRuns pieces
  count : parts.gaps.length = parts.words.length - 1
  gaps : ∀ gap ∈ parts.gaps, gap ≠ [] ∧ allBlank gap = true
  whole : blankFragment parts.leading ++ (parts.words.zip (parts.gaps ++ [parts.trailing])).flatMap
    (fun (word, blanks) => word ++ blankFragment blanks) = pieces

theorem blankFragment_of_ne_nil {blanks : List Char} (hne : blanks ≠ []) :
    blankFragment blanks = [⟨.blank, blanks⟩] := by
  obtain ⟨c, others, rfl⟩ := List.exists_cons_of_ne_nil hne
  rfl

theorem flatMap_raw_blankFragment (blanks : List Char) :
    (blankFragment blanks).flatMap Fragment.raw = blanks := by
  cases blanks <;> simp [blankFragment]

theorem Parts.Join.text_eq {parts : Parts} {pieces : List Fragment} (hjoin : parts.Join pieces) :
    parts.leading ++ (parts.words.zip (parts.gaps ++ [parts.trailing])).flatMap
      (fun (word, blanks) => Word.raw word ++ blanks) = pieces.flatMap Fragment.raw := by
  rw [← hjoin.whole, List.flatMap_append, flatMap_raw_blankFragment, List.flatMap_assoc]
  simp [flatMap_raw_blankFragment, Word.raw]

theorem solidRuns_append_blank (front : List Fragment) (blanks : List Char) (back : List Fragment) :
    solidRuns (front ++ ⟨.blank, blanks⟩ :: back) = solidRuns front ++ solidRuns back := by
  rw [solidRuns, List.splitOnP_append_cons _ _ (by rfl), List.filter_append]
  rfl

theorem solidRuns_nil : solidRuns [] = [] := by
  simp [solidRuns]

theorem IsWord.solidRuns {word : Word} (hword : IsWord word) : solidRuns word = [word] := by
  rw [Text.solidRuns, List.splitOnP_eq_singleton fun piece hmem => by simp [hword.2 piece hmem]]
  simp [hword.1]

theorem solidRuns_blankFragment (blanks : List Char) (back : List Fragment) :
    solidRuns (blankFragment blanks ++ back) = solidRuns back := by
  cases blanks with
  | nil => rfl
  | cons c others =>
      have hblank := solidRuns_append_blank [] (c :: others) back
      rwa [solidRuns_nil] at hblank

namespace Run

theorem solidRuns_pieces {run : Run} (hworded : run.Worded) :
    solidRuns run.pieces = run.wordList := by
  cases run with
  | blank leading =>
      have hblank := solidRuns_blankFragment leading []
      rwa [List.append_nil, solidRuns_nil] at hblank
  | words leading first rest trailing =>
      obtain ⟨hfirst, hrest⟩ := hworded
      rw [pieces, solidRuns_blankFragment]
      induction rest generalizing first with
      | nil =>
          cases trailing with
          | nil => simp [partedPieces, blankFragment, wordList, hfirst.solidRuns]
          | cons c others =>
              simp [partedPieces, blankFragment, wordList, hfirst.solidRuns, solidRuns_append_blank,
                solidRuns_nil]
      | cons parted others ih =>
          obtain ⟨blanks, word⟩ := parted
          obtain ⟨hword, hothers⟩ := List.forall_mem_cons.mp hrest
          have hlater := ih word hword hothers
          simp only [partedPieces, wordList] at hlater ⊢
          simp [solidRuns_append_blank, hfirst.solidRuns, hlater]

/-- The parts of a run between which blanks stand make up its fragments. -/
theorem whole_parts {run : Run} (hproper : run.Proper) :
    blankFragment run.parts.leading ++
      (run.parts.words.zip (run.parts.gaps ++ [run.parts.trailing])).flatMap
      (fun (word, blanks) => word ++ blankFragment blanks) = run.pieces := by
  cases run with
  | blank leading => simp [parts, pieces, wordList, Run.leading]
  | words leading first rest trailing =>
      obtain ⟨-, -, hrest, -⟩ := hproper
      simp only [parts, pieces, wordList, gaps, Run.leading, Run.trailing,
        List.append_cancel_left_eq]
      induction rest generalizing first with
      | nil => simp [partedPieces]
      | cons parted others ih =>
          obtain ⟨hparted, hothers⟩ := List.forall_mem_cons.mp hrest
          have hlater := ih parted.2 hothers
          simp only [partedPieces] at hlater ⊢
          simp [hlater, blankFragment_of_ne_nil hparted.1]

theorem join_ofText (text : List Char) : (ofText text).parts.Join (fragments text) := by
  have hproper := proper_ofText text
  have hpieces : (ofText text).pieces = fragments text :=
    pieces_ofFragments (alternating_fragments text) proper_of_mem_fragments
  have hwords := solidRuns_pieces (worded_ofFragments (fragments text))
  have hwhole := whole_parts hproper
  rw [hpieces] at hwhole
  refine ⟨?_, ?_, ?_, hwhole⟩
  · rw [← hpieces]
    exact hwords.symm
  · cases hrun : ofText text <;> simp [parts, gaps, wordList]
  · intro gap hmem
    cases hrun : ofText text with
    | blank leading => simp [hrun, parts, gaps] at hmem
    | words leading first rest trailing =>
        rw [hrun] at hmem hproper
        obtain ⟨parted, hparted, rfl⟩ := List.mem_map.mp hmem
        obtain ⟨hne, hblank, -⟩ := hproper.2.2.1 parted hparted
        exact ⟨hne, hblank⟩

end Run

/-- Running text is cut into fragments in the one way there is, and the fragments into words with
the blanks between them; put together again, they are the text. -/
theorem cut_exactly (text : List Char) :
    let parts := (Run.ofText text).parts
    (fragments? text = some (fragments text) ∧ ∀ pieces, fragments text = pieces ↔
      Cuts text pieces) ∧
    parts? (fragments text) = some parts ∧ parts.Join (fragments text) ∧
    parts.leading ++ (parts.words.zip (parts.gaps ++ [parts.trailing])).flatMap
      (fun (word, blanks) => Word.raw word ++ blanks) = text := by
  intro parts
  have hcuts : ∀ pieces, fragments text = pieces ↔ Cuts text pieces := fun pieces =>
    ⟨fun heq => heq ▸ cuts_fragments text, Cuts.eq_fragments⟩
  have hjoin : parts.Join (fragments text) := Run.join_ofText text
  exact ⟨⟨fragments?_eq text, hcuts⟩, parts?_eq text, hjoin,
    hjoin.text_eq.trans (flatMap_raw_fragments text)⟩

/-- Ampersands that begin no reference, one in front of one that does. -/
example : fragments "a&&amp;b &#x;".toList =
    [⟨.characters, ['a', '&']⟩, ⟨.entity, "&amp;".toList⟩, ⟨.characters, ['b']⟩, ⟨.blank, [' ']⟩,
      ⟨.characters, "&#x;".toList⟩] := by
  decide +kernel

end Markup.Text
