/-!
# Blank characters, lines and letter case

HTML counts five characters as whitespace; everything in this library that is called blank is made
of those. Lines are ended by line feeds alone. Names of tags and attributes are compared without
regard to the case of ASCII letters, and of no others.
-/

namespace Markup.Text

/-- The five characters that HTML counts as whitespace. A no-break space is not one of them. -/
def isBlank (c : Char) : Bool :=
  c == ' ' || c == '\t' || c == '\n' || c == '\r' || c == '\x0c'

/-- A text of blank characters only; the empty text is one. -/
def allBlank (text : List Char) : Bool :=
  text.all isBlank

/-- Number of line feeds. -/
def newlines (text : List Char) : Nat :=
  text.count '\n'

/-- Splits off the longest blank tail. -/
def splitTail : List Char → List Char × List Char
  | [] => ([], [])
  | c :: rest =>
      match splitTail rest with
      | ([], tail) => if isBlank c then ([], c :: tail) else ([c], tail)
      | (kept, tail) => (c :: kept, tail)

/-- Splitting off the blank tail loses nothing. -/
theorem splitTail_append (text : List Char) :
    (splitTail text).1 ++ (splitTail text).2 = text := by
  induction text with
  | nil => rfl
  | cons c rest ih =>
      unfold splitTail
      split
      next tail h =>
        rw [h] at ih
        split <;> simp_all
      next kept tail hkept h =>
        rw [h] at ih
        simp_all

/-- What is split off is blank. -/
theorem splitTail_blank (text : List Char) : allBlank (splitTail text).2 = true := by
  induction text with
  | nil => rfl
  | cons c rest ih =>
      unfold splitTail
      split
      next tail h =>
        rw [h] at ih
        split <;> simp_all [allBlank]
      next kept tail hkept h =>
        rw [h] at ih
        simp_all

/-- The column after one more character, counted from the start of its line. -/
def advance (column : Nat) (c : Char) : Nat :=
  if c == '\n' then 0 else column + 1

/-- The column after a text that begins at the given column. -/
def columnAfter (column : Nat) (text : List Char) : Nat :=
  text.foldl advance column

/-- Texts may be walked piece by piece. -/
theorem columnAfter_append (column : Nat) (first second : List Char) :
    columnAfter column (first ++ second) = columnAfter (columnAfter column first) second :=
  List.foldl_append

/-- The characters after the last line feed, which are all of them if there is none. -/
def lastLine (text : List Char) : List Char :=
  (text.reverse.takeWhile (· != '\n')).reverse

/-- The characters before the last line feed, and none if there is no line feed. -/
def beforeLastLine (text : List Char) : List Char :=
  ((text.reverse.dropWhile (· != '\n')).drop 1).reverse

/-- The first line, without the line feed, or carriage return and line feed, that ends it. A
carriage return at the very end of the text belongs to the line. -/
def firstLine : List Char → List Char
  | [] => []
  | '\n' :: _ => []
  | '\r' :: '\n' :: _ => []
  | c :: rest => c :: firstLine rest

/-- Equality up to the case of ASCII letters. -/
def sameName (first second : List Char) : Bool :=
  first.map Char.toLower == second.map Char.toLower

/-- Whether a list of names has this one, in any case. -/
def listed (names : List String) (name : List Char) : Bool :=
  names.any fun entry => sameName entry.toList name

/-- What follows a pattern at the start of a text, if it starts with the pattern. -/
def dropStart? : List Char → List Char → Option (List Char)
  | [], text => some text
  | _ :: _, [] => none
  | p :: pattern, c :: text => if p = c then dropStart? pattern text else none

/-- A text starts with a pattern exactly if it is the pattern with something after it. -/
theorem dropStart?_eq_some_iff {pattern text after : List Char} :
    dropStart? pattern text = some after ↔ text = pattern ++ after := by
  induction pattern generalizing text with
  | nil => simp [dropStart?]
  | cons p pattern ih =>
      cases text with
      | nil => simp [dropStart?]
      | cons c text =>
          unfold dropStart?
          split
          next h => simp [h, ih]
          next h => simp [Ne.symm h]

/-- Splits a text around the first occurrence of a pattern. -/
def splitAround (pattern : List Char) : List Char → Option (List Char × List Char)
  | [] => (dropStart? pattern []).map fun after => ([], after)
  | c :: rest =>
      match dropStart? pattern (c :: rest) with
      | some after => some ([], after)
      | none => (splitAround pattern rest).map fun (before, after) => (c :: before, after)

/-- Splitting around a pattern loses nothing but the pattern. -/
theorem splitAround_append {pattern text before after : List Char}
    (h : splitAround pattern text = some (before, after)) :
    before ++ pattern ++ after = text := by
  induction text generalizing before with
  | nil =>
      obtain ⟨found, hfound, heq⟩ := Option.map_eq_some_iff.mp h
      obtain ⟨rfl, rfl⟩ := Prod.mk.inj heq
      simpa using (dropStart?_eq_some_iff.mp hfound).symm
  | cons c rest ih =>
      unfold splitAround at h
      split at h
      next found hfound =>
        obtain ⟨rfl, rfl⟩ := Prod.mk.inj (Option.some.inj h)
        simpa using (dropStart?_eq_some_iff.mp hfound).symm
      next =>
        obtain ⟨⟨found, tail⟩, hfound, heq⟩ := Option.map_eq_some_iff.mp h
        obtain ⟨rfl, rfl⟩ := Prod.mk.inj heq
        simp [← ih hfound]

end Markup.Text
