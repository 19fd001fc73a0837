import Markup.Proofs.Tag.Layout
import Markup.Proofs.Token

/-!
# What a start tag is read as

A start tag is read into pieces that make up its text, and each piece has what belongs to it and
nothing that would end it. Nothing is read only where the text ends before the tag does, and then
there is no tag in less of the text either. Main statement: `StartTag.read?_lossless`.
-/

namespace Markup

open Markup.Text

namespace StartTag

/-- What the pieces of a start tag are that begins with an angle bracket and this letter. A value
without quotes that is empty stands right in front of the `>`. -/
structure Spelled (letter : Char) (tag : StartTag) : Prop where
  letter : tag.name.head? = some letter
  name : ∀ c ∈ tag.name, isBlank c = false ∧ c ≠ '>' ∧ c ≠ '/'
  trailing : allBlank tag.trailing = true
  gaps : ∀ attr ∈ tag.attributes, allBlank attr.gap = true
  names : ∀ attr ∈ tag.attributes, attr.name ≠ []
  signs : ∀ attr ∈ tag.attributes, ∀ value ∈ attr.value, IsSign value.before
  quoted : ∀ attr ∈ tag.attributes, ∀ value ∈ attr.value, ∀ quote ∈ value.quote,
    quote.char ∉ value.raw
  bare : ∀ attr ∈ tag.attributes, ∀ value ∈ attr.value, value.quote = none →
    (∀ c ∈ value.raw, isBlank c = false ∧ c ≠ '>') ∧ ∀ c ∈ value.raw.head?, c ≠ '"' ∧ c ≠ '\''
  empty : ∀ front attr rest, tag.attributes = front ++ attr :: rest → ∀ value ∈ attr.value,
    value.quote = none → value.raw = [] → rest = [] ∧ tag.trailing = [] ∧ tag.ending = .plain

variable {tag : StartTag}

/-- A value of nothing without quotes ends with its tag. -/
theorem Fits.eq_nil_of_raw_eq_nil (hfits : tag.Fits) {front rest : List Attribute}
    {attr : Attribute} (hattributes : tag.attributes = front ++ attr :: rest)
    {value : AttributeValue} (hvalue : attr.value = some value) (hquote : value.quote = none)
    (hraw : value.raw = []) :
    rest = [] ∧ tag.trailing = [] ∧ tag.ending = .plain := by
  have hfit := hfits.attributes
  rw [hattributes, Attribute.fitAll_append] at hfit
  obtain ⟨-, -, hends, hrest⟩ := hfit
  simp only [Attribute.Ends, hvalue] at hends
  have hclose := (hends hquote).2 hraw
  cases rest with
  | nil => exact ⟨rfl, Attribute.eq_nil_of_head?_ending hfits.trailing hclose⟩
  | cons next others =>
      rw [List.flatMap_cons, List.append_assoc] at hclose
      exact absurd hclose (hrest.1.head?_text_ne _)

theorem Fits.spelled (hfits : tag.Fits) {letter : Char} (hletter : tag.name.head? = some letter) :
    tag.Spelled letter := by
  have hattr := hfits.attributes.fits
  refine ⟨hletter, fun c hmem => ?_, hfits.trailing, fun attr hmem => (hattr attr hmem).gap,
    fun attr hmem => Attribute.name_ne_nil (hattr attr hmem), fun attr hmem value hvalue =>
      ((hattr attr hmem).value value hvalue).sign, fun attr hmem value hvalue =>
        ((hattr attr hmem).value value hvalue).quoted, fun attr hmem value hvalue hquote => ?_,
          fun front attr rest hattributes value => hfits.eq_nil_of_raw_eq_nil hattributes⟩
  · simpa [Attribute.inTagName, and_assoc] using hfits.name c hmem
  · obtain ⟨-, -, hbare, hunquoted⟩ := (hattr attr hmem).value value hvalue
    refine ⟨fun c hc => by simpa [Attribute.inBareValue] using hbare hquote c hc, fun c hc => ?_⟩
    have hnone := hunquoted hquote c hc
    constructor
    · rintro rfl
      cases hnone
    · rintro rfl
      cases hnone

/-- Where no tag is read, none is read from less of the text. -/
theorem read?_eq_none_of_isPrefix {text shorter : List Char} (hnone : read? text = none)
    (hshorter : shorter <+: text) : read? shorter = none := by
  obtain ⟨more, rfl⟩ := hshorter
  refine Option.eq_none_iff_forall_ne_some.mpr ?_
  rintro ⟨tag, after⟩ hread
  obtain ⟨hfits, rfl⟩ := read?_eq_some_iff.mp hread
  rw [List.append_assoc, read?_eq_some_iff.mpr ⟨hfits, rfl⟩] at hnone
  cases hnone

/-- In front of a letter, an angle bracket begins a start tag that is kept piece by piece, or one
that has no end in the source, nor in any part of the source from its beginning on. -/
theorem read?_lossless {source front rest : List Char} {letter : Char}
    (hsource : source = front ++ '<' :: letter :: rest) (halpha : letter.isAlpha = true) :
    (∀ tag after, read? (letter :: rest) = some (tag, after) →
        source = front ++ (tag.text ++ after) ∧ tag.Spelled letter) ∧
      (read? (letter :: rest) = none → ∀ shorter, front ++ '<' :: shorter <+: source →
        read? shorter = none) := by
  constructor
  · intro tag after hread
    obtain ⟨hfits, htext⟩ := read?_eq_some_iff.mp hread
    obtain ⟨c, others, hname, -⟩ := Token.named_of_body halpha hfits htext
    refine ⟨by rw [hsource, htext]; rfl, hfits.spelled ?_⟩
    rw [body, hname] at htext
    rw [hname, (List.cons.inj htext).1]
    rfl
  · intro hnone shorter hshorter
    rw [hsource] at hshorter
    have htext := (List.cons_prefix_cons.mp ((List.prefix_append_right_inj front).mp hshorter)).2
    exact read?_eq_none_of_isPrefix hnone htext

/-- A tag with an equals sign for a name, a quote in a name, a slash in front of one and an empty
value, and the same tag with a quote more, which does not end. -/
theorem read?_lossless_odd :
    let rest := "a =b c'=\"d>\" /e f = g/ h=>x".toList
    let cut := "a =b c'=\"d>\" /e f = 'g/ h=>x".toList
    'a'.isAlpha = true ∧
      (∃ tag, read? ('a' :: rest) = some (tag, ['x']) ∧
        'é' :: '<' :: 'a' :: rest = ['é'] ++ (tag.text ++ ['x']) ∧ tag.Spelled 'a') ∧
      read? ('a' :: cut) = none ∧
        ∀ shorter, ['é'] ++ '<' :: shorter <+: 'é' :: '<' :: 'a' :: cut → read? shorter = none := by
  intro rest cut
  have hread : (read? ('a' :: rest)).map Prod.snd = some ['x'] := by decide +kernel
  have hnone : read? ('a' :: cut) = none := by decide +kernel
  obtain ⟨⟨tag, after⟩, htag, rfl⟩ := Option.map_eq_some_iff.mp hread
  have hsource : ∀ text, 'é' :: '<' :: 'a' :: text = ['é'] ++ '<' :: 'a' :: text := fun _ => rfl
  exact ⟨rfl, ⟨tag, htag, (read?_lossless (hsource rest) rfl).1 tag _ htag⟩, hnone,
    (read?_lossless (hsource cut) rfl).2 hnone⟩

end StartTag

end Markup
