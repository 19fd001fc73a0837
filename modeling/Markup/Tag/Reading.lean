import Markup.Text.Blank
import Markup.Tag.Basic

/-!
# Reading a start tag

A start tag is read from the character after its angle bracket. Reading fails only if the text ends
before the tag does, be it inside a quoted value. Nothing in a tag is an error: an equals sign
where a name should be is a name, and so is a slash that does not end the tag.
-/

namespace Markup

open Markup.Text

namespace Attribute

/-- Whether a character goes on with the name of an element. -/
def inTagName (c : Char) : Bool :=
  !isBlank c && c != '>' && c != '/'

/-- Whether a character goes on with a value that is not quoted. -/
def inBareValue (c : Char) : Bool :=
  !isBlank c && c != '>'

/-- Splits off the longest text that can be the name of an attribute: up to a blank, an equals
sign, or the end of the tag. -/
def splitName : List Char → List Char × List Char
  | [] => ([], [])
  | c :: rest =>
      if isBlank c || c == '=' || c == '>' || (c == '/' && rest.head? == some '>') then
        ([], c :: rest)
      else
        let (name, after) := splitName rest
        (c :: name, after)

/-- Reads the value behind a name, given what follows the name. The inner result is nothing where
no value is given; the outer one is nothing where the text ends too early. -/
def readValue? (text : List Char) : Option (Option AttributeValue × List Char) :=
  match text.dropWhile isBlank with
  | '=' :: afterSign =>
      match afterSign.dropWhile isBlank with
      | [] => none
      | c :: rest =>
          let before := text.takeWhile isBlank ++ '=' :: afterSign.takeWhile isBlank
          match Quote.ofChar? c with
          | some quote =>
              (splitAround [quote.char] rest).map fun (raw, after) =>
                (some ⟨before, raw, some quote⟩, after)
          | none =>
              some (some ⟨before, (c :: rest).takeWhile inBareValue, none⟩,
                (c :: rest).dropWhile inBareValue)
  | _ => some (none, text)

/-- Reads an attribute from the first character of its name on. -/
def read? (gap : List Char) (c : Char) (rest : List Char) : Option (Attribute × List Char) :=
  if c = '=' then
    some (⟨gap, ['='], none⟩, rest)
  else
    let (name, afterName) := splitName rest
    (readValue? afterName).map fun (value, after) => (⟨gap, c :: name, value⟩, after)

theorem splitName_append (text : List Char) :
    (splitName text).1 ++ (splitName text).2 = text := by
  induction text with
  | nil => rfl
  | cons c rest ih =>
      unfold splitName
      split
      next => rfl
      next => simpa using ih

/-- A value is read without loss. -/
theorem readValue?_append {text after : List Char} {value : Option AttributeValue}
    (h : readValue? text = some (value, after)) :
    valueText value ++ after = text := by
  unfold readValue? at h
  split at h
  next afterSign hsign =>
    split at h
    next => simp at h
    next c rest hrest =>
      have htext : text = text.takeWhile isBlank ++
          '=' :: (afterSign.takeWhile isBlank ++ c :: rest) := by
        rw [← hrest, List.takeWhile_append_dropWhile, ← hsign, List.takeWhile_append_dropWhile]
      dsimp only at h
      split at h
      next quote hquote =>
        obtain ⟨⟨raw, tail⟩, hfound, heq⟩ := Option.map_eq_some_iff.mp h
        obtain ⟨rfl, rfl⟩ := Prod.mk.inj heq
        have hchar := (Quote.ofChar?_eq_some_iff c quote).mp hquote
        have hsplit := splitAround_append hfound
        rw [hchar, ← hsplit] at htext
        refine Eq.trans ?_ htext.symm
        simp [valueText, AttributeValue.text, quoteText]
      next =>
        obtain ⟨rfl, rfl⟩ := Prod.mk.inj (Option.some.inj h)
        have hbare : (c :: rest).takeWhile inBareValue ++ (c :: rest).dropWhile inBareValue =
            c :: rest := List.takeWhile_append_dropWhile
        refine Eq.trans ?_ htext.symm
        simp only [valueText, AttributeValue.text, quoteText, List.append_nil, List.append_assoc,
          List.cons_append, hbare]
  next =>
    obtain ⟨rfl, rfl⟩ := Prod.mk.inj (Option.some.inj h)
    rfl

/-- An attribute is read without loss. -/
theorem read?_append {gap rest after : List Char} {c : Char} {attr : Attribute}
    (h : read? gap c rest = some (attr, after)) :
    attr.gap = gap ∧ attr.body ++ after = c :: rest := by
  unfold read? at h
  split at h
  next hsign =>
    obtain ⟨rfl, rfl⟩ := Prod.mk.inj (Option.some.inj h)
    simp [body, valueText, hsign]
  next =>
    obtain ⟨⟨value, tail⟩, hvalue, heq⟩ := Option.map_eq_some_iff.mp h
    obtain ⟨rfl, rfl⟩ := Prod.mk.inj heq
    have hloss := readValue?_append hvalue
    have hname := splitName_append rest
    refine ⟨rfl, ?_⟩
    simp only [body, List.cons_append, List.append_assoc]
    rw [hloss, hname]

/-- Reading an attribute takes at least the first character of its name. -/
theorem read?_length_le {gap rest after : List Char} {c : Char} {attr : Attribute}
    (h : read? gap c rest = some (attr, after)) : after.length ≤ rest.length := by
  unfold read? at h
  split at h
  next =>
    obtain ⟨_, rfl⟩ := Prod.mk.inj (Option.some.inj h)
    exact Nat.le_refl _
  next =>
    obtain ⟨⟨value, tail⟩, hvalue, heq⟩ := Option.map_eq_some_iff.mp h
    obtain ⟨_, rfl⟩ := Prod.mk.inj heq
    have hloss := congrArg List.length (readValue?_append hvalue)
    have hname := congrArg List.length (splitName_append rest)
    simp only [List.length_append] at hloss hname
    omega

end Attribute

namespace StartTag

/-- Reads attributes until the tag ends; the result is the attributes, the blanks behind them, the
ending, and what follows the tag. -/
def readAttributes? (text : List Char) :
    Option (List Attribute × List Char × Ending × List Char) :=
  let gap := text.takeWhile isBlank
  match _htext : text.dropWhile isBlank with
  | [] => none
  | '>' :: after => some ([], gap, .plain, after)
  | '/' :: '>' :: after => some ([], gap, .selfClosing, after)
  | c :: rest =>
      match _hread : Attribute.read? gap c rest with
      | none => none
      | some (attr, after) =>
          (readAttributes? after).map fun (attributes, found) => (attr :: attributes, found)
termination_by text.length
decreasing_by
  have hdrop := congrArg List.length _htext
  have hwhole := congrArg List.length (List.takeWhile_append_dropWhile (p := isBlank) (l := text))
  have hafter := Attribute.read?_length_le _hread
  simp only [List.length_append, List.length_cons] at hdrop hwhole
  omega

/-- Reads a start tag from the first character of its name on, giving the tag and what follows it,
or nothing if the text ends before the tag does. -/
def read? (text : List Char) : Option (StartTag × List Char) :=
  (readAttributes? (text.dropWhile Attribute.inTagName)).map
    fun (attributes, trailing, ending, after) =>
      (⟨text.takeWhile Attribute.inTagName, attributes, trailing, ending⟩, after)

theorem readAttributes?_append {text after trailing : List Char} {attributes : List Attribute}
    {ending : Ending}
    (h : readAttributes? text = some (attributes, trailing, ending, after)) :
    attributes.flatMap Attribute.text ++ (trailing ++ (ending.text ++ after)) = text := by
  fun_induction readAttributes? text generalizing attributes trailing ending after with
  | case1 => simp at h
  | @case2 text _ tail htext =>
      simp only [Option.some.injEq, Prod.mk.injEq] at h
      obtain ⟨rfl, rfl, rfl, rfl⟩ := h
      have hwhole := List.takeWhile_append_dropWhile (p := isBlank) (l := text)
      rw [htext] at hwhole
      simpa [Ending.text] using hwhole
  | @case3 text _ tail htext =>
      simp only [Option.some.injEq, Prod.mk.injEq] at h
      obtain ⟨rfl, rfl, rfl, rfl⟩ := h
      have hwhole := List.takeWhile_append_dropWhile (p := isBlank) (l := text)
      rw [htext] at hwhole
      simpa [Ending.text] using hwhole
  | case4 => simp at h
  | @case5 text _ c rest hplain hslash htext attr tail hread ih =>
      obtain ⟨⟨others, found⟩, hothers, heq⟩ := Option.map_eq_some_iff.mp h
      simp only [Prod.mk.injEq] at heq
      obtain ⟨rfl, rfl⟩ := heq
      have hrest := ih hothers
      obtain ⟨hgap, hbody⟩ := Attribute.read?_append hread
      have hwhole := List.takeWhile_append_dropWhile (p := isBlank) (l := text)
      rw [htext, ← hbody, ← hrest] at hwhole
      rw [List.flatMap_cons, Attribute.text, hgap]
      simpa using hwhole

/-- A start tag is read without loss. -/
theorem read?_append {text after : List Char} {tag : StartTag}
    (h : read? text = some (tag, after)) : tag.body ++ after = text := by
  obtain ⟨⟨attributes, trailing, ending, tail⟩, hfound, heq⟩ := Option.map_eq_some_iff.mp h
  obtain ⟨rfl, rfl⟩ := Prod.mk.inj heq
  have hrest := readAttributes?_append hfound
  simp only [body, List.append_assoc]
  rw [hrest, List.takeWhile_append_dropWhile]

end StartTag

end Markup
