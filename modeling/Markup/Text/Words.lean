import Markup.Text.Blank

/-!
# Words of running text

Running text is cut into fragments: blanks, character references, and everything else. Its words
are the longest runs of fragments without a blank between them. Main statements:
`flatMap_raw_fragments` and `Run.source_ofText`, by which neither cut loses anything.
-/

namespace Markup.Text

inductive FragmentKind where
  | blank
  | characters
  | entity
  deriving DecidableEq, Repr, Inhabited

/-- A piece of running text. -/
structure Fragment where
  kind : FragmentKind
  raw : List Char
  deriving DecidableEq, Repr, Inhabited

/-- Whether a character is a hexadecimal digit. -/
def isHexDigit (c : Char) : Bool :=
  c.isDigit || ('a' ≤ c && c ≤ 'f') || ('A' ≤ c && c ≤ 'F')

/-- Splits off the longest run of characters of a class, provided that it has one at least and that
a semicolon ends it. The semicolon goes with the run. -/
def splitReference (inClass : Char → Bool) (text : List Char) : Option (List Char × List Char) :=
  match text.takeWhile inClass, text.dropWhile inClass with
  | c :: body, ';' :: after => some (c :: body ++ [';'], after)
  | _, _ => none

/-- Splits off the character reference whose ampersand has just been read: a name that begins with
a letter, or a number in decimal or hexadecimal digits. -/
def splitEntity : List Char → Option (List Char × List Char)
  | '#' :: x :: rest =>
      if x = 'x' || x = 'X' then
        (splitReference isHexDigit rest).map fun (body, after) => ('#' :: x :: body, after)
      else
        (splitReference Char.isDigit (x :: rest)).map fun (body, after) => ('#' :: body, after)
  | c :: rest => if c.isAlpha then splitReference Char.isAlphanum (c :: rest) else none
  | [] => none

/-- Adds a character in front of fragments, as part of the first if that holds characters. -/
def pushCharacter (c : Char) : List Fragment → List Fragment
  | ⟨.characters, raw⟩ :: rest => ⟨.characters, c :: raw⟩ :: rest
  | rest => ⟨.characters, [c]⟩ :: rest

theorem splitReference_append {inClass : Char → Bool} {text body after : List Char}
    (h : splitReference inClass text = some (body, after)) : body ++ after = text := by
  unfold splitReference at h
  split at h
  next c run tail hrun htail =>
    obtain ⟨rfl, rfl⟩ := Prod.mk.inj (Option.some.inj h)
    have hwhole := List.takeWhile_append_dropWhile (p := inClass) (l := text)
    rw [hrun, htail] at hwhole
    simpa using hwhole
  next => simp at h

theorem splitEntity_append {text body after : List Char}
    (h : splitEntity text = some (body, after)) : body ++ after = text := by
  unfold splitEntity at h
  split at h
  next x rest =>
    split at h
    next =>
      obtain ⟨⟨run, tail⟩, hrun, heq⟩ := Option.map_eq_some_iff.mp h
      obtain ⟨rfl, rfl⟩ := Prod.mk.inj heq
      simp [splitReference_append hrun]
    next =>
      obtain ⟨⟨run, tail⟩, hrun, heq⟩ := Option.map_eq_some_iff.mp h
      obtain ⟨rfl, rfl⟩ := Prod.mk.inj heq
      simp [splitReference_append hrun]
  next =>
    split at h
    next => exact splitReference_append h
    next => simp at h
  next => simp at h

/-- Cuts running text into fragments. -/
def fragments : List Char → List Fragment
  | [] => []
  | c :: rest =>
      if isBlank c then
        ⟨.blank, c :: rest.takeWhile isBlank⟩ :: fragments (rest.dropWhile isBlank)
      else if c = '&' then
        match _hentity : splitEntity rest with
        | some (body, after) => ⟨.entity, '&' :: body⟩ :: fragments after
        | none => pushCharacter c (fragments rest)
      else pushCharacter c (fragments rest)
termination_by text => text.length
decreasing_by
  · have hwhole :=
      congrArg List.length (List.takeWhile_append_dropWhile (p := isBlank) (l := rest))
    simp only [List.length_append, List.length_cons] at hwhole ⊢
    omega
  · have hwhole := congrArg List.length (splitEntity_append _hentity)
    simp only [List.length_append, List.length_cons] at hwhole ⊢
    omega
  · simp
  · simp

theorem flatMap_raw_pushCharacter (c : Char) (pieces : List Fragment) :
    (pushCharacter c pieces).flatMap Fragment.raw = c :: pieces.flatMap Fragment.raw := by
  unfold pushCharacter
  split <;> simp

/-- Cutting running text into fragments loses nothing. -/
theorem flatMap_raw_fragments (text : List Char) :
    (fragments text).flatMap Fragment.raw = text := by
  fun_induction fragments text with
  | case1 => rfl
  | case2 c rest hblank ih => simp [ih, List.takeWhile_append_dropWhile]
  | case3 rest body after hentity hblank ih => simp [ih, splitEntity_append hentity]
  | case4 rest hentity hblank ih => rw [flatMap_raw_pushCharacter, ih]
  | case5 c rest hblank hamp ih => rw [flatMap_raw_pushCharacter, ih]

/-- A run of fragments with no blank among them. It is the unit of line wrapping. -/
abbrev Word := List Fragment

/-- The source of a word. -/
def Word.raw (word : Word) : List Char :=
  word.flatMap Fragment.raw

/-- Number of columns that a word takes, one for each character. -/
def Word.width (word : Word) : Nat :=
  (Word.raw word).length

/-- Running text as its words: blank altogether, or with a first word and further words, each with
the blanks in front of it. -/
inductive Run where
  | blank (leading : List Char)
  | words (leading : List Char) (first : Word) (rest : List (List Char × Word))
      (trailing : List Char)
  deriving DecidableEq, Repr, Inhabited

namespace Run

/-- Adds a fragment in front of a run. -/
def push (piece : Fragment) : Run → Run
  | .blank leading =>
      match piece.kind with
      | .blank => .blank (piece.raw ++ leading)
      | _ => .words [] [piece] [] leading
  | .words leading first rest trailing =>
      match piece.kind, leading with
      | .blank, _ => .words (piece.raw ++ leading) first rest trailing
      | _, [] => .words [] (piece :: first) rest trailing
      | _, _ :: _ => .words [] [piece] ((leading, first) :: rest) trailing

/-- The run that fragments make up. -/
def ofFragments (pieces : List Fragment) : Run :=
  pieces.foldr push (.blank [])

def ofText (text : List Char) : Run :=
  ofFragments (fragments text)

/-- The blanks in front of the first word. -/
def leading : Run → List Char
  | .blank leading => leading
  | .words leading _ _ _ => leading

/-- The blanks behind the last word, and none where there is no word. -/
def trailing : Run → List Char
  | .blank _ => []
  | .words _ _ _ trailing => trailing

def wordList : Run → List Word
  | .blank _ => []
  | .words _ first rest _ => first :: rest.map (·.2)

/-- The blanks between the words. -/
def gaps : Run → List (List Char)
  | .blank _ => []
  | .words _ _ rest _ => rest.map (·.1)

/-- The text that a run is. -/
def source : Run → List Char
  | .blank leading => leading
  | .words leading first rest trailing =>
      leading ++ (Word.raw first ++
        (rest.flatMap (fun (gap, word) => gap ++ Word.raw word) ++ trailing))

theorem source_push (piece : Fragment) (run : Run) :
    (push piece run).source = piece.raw ++ run.source := by
  obtain ⟨kind, raw⟩ := piece
  cases run with
  | blank leading => cases kind <;> simp [push, source, Word.raw]
  | words leading first rest trailing =>
      cases kind <;> cases leading <;> simp [push, source, Word.raw]

theorem source_ofFragments (pieces : List Fragment) :
    (ofFragments pieces).source = pieces.flatMap Fragment.raw := by
  induction pieces with
  | nil => rfl
  | cons piece rest ih =>
      rw [List.flatMap_cons, ← ih]
      exact source_push piece _

/-- Cutting running text into words loses nothing. -/
theorem source_ofText (text : List Char) : (ofText text).source = text := by
  rw [ofText, source_ofFragments, flatMap_raw_fragments]

end Run

end Markup.Text
