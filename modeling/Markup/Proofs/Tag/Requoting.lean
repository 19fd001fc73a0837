import Markup.Proofs.Tag.Layout

/-!
# Start tags with other quotes

The attributes of a start tag are written one space apart, each with nothing but the equals sign
between its name and its value, and with the quotes that are chosen for it. They are read back as
they were, with those quotes. An empty value without quotes takes up what is written behind it,
which is why it is looked at apart from the others. Main statement: `StartTag.read?_rewritten`.
-/

namespace Markup

open Markup.Text

namespace Settings

variable (settings : Settings)

/-- The text of a start tag after its angle bracket, with its attributes rewritten on one line. -/
def rewritten (tag : StartTag) : List Char :=
  tag.name ++ (tag.attributes.flatMap
    (fun attr => ' ' :: joinPieces (attr.pieces (settings.quoteFor attr))) ++ [' ', '>'])

/-- What an attribute is read as that was rewritten: the same name and value, in the quotes that
were chosen. -/
structure ReadsAs (attr back : Attribute) : Prop where
  name : back.name = attr.name
  value : back.value.map (fun value => (value.raw, value.quote)) =
    attr.value.map fun value => (value.raw, settings.quoteFor attr)

/-- The quotes that are chosen for a value: those that are asked for if the value does not contain
them, and those of the source otherwise. -/
structure Chooses (value : AttributeValue) (chosen : Option Quote) : Prop where
  asked : settings.enforceQuotes = true → ∀ target, settings.quoteStyle.quote? = some target →
    chosen = if target.char ∈ value.raw then value.quote else some target
  own : settings.enforceQuotes = false ∨ settings.quoteStyle = .asIs → chosen = value.quote

theorem chooses_quoteFor {attr : Attribute} {value : AttributeValue}
    (hvalue : attr.value = some value) :
    settings.Chooses value (settings.quoteFor attr) := by
  unfold quoteFor
  rw [hvalue]
  refine ⟨fun henforce target htarget => ?_, fun hown => ?_⟩
  · simp [henforce, htarget]
  · rcases hown with hoff | hasIs
    · simp [hoff]
    · simp [hasIs, QuoteStyle.quote?]

/-! ## The attributes as they are rewritten -/

/-- The layout of an attribute that is rewritten. -/
def onLine (attr : Attribute) : AttributeLayout :=
  ⟨.space, settings.quoteFor attr⟩

theorem lays_onLine (attr : Attribute) : settings.Lays attr (settings.onLine attr) :=
  ⟨rfl, by simp [onLine, Gap.text], rfl⟩

theorem lays_map_onLine (attributes : List Attribute) :
    List.Forall₂ settings.Lays attributes (attributes.map settings.onLine) :=
  List.forall₂_map_right_iff.mpr (List.forall₂_same.mpr fun attr _ => settings.lays_onLine attr)

theorem readsAs_laid (attr : Attribute) :
    settings.ReadsAs attr (attr.laid (settings.onLine attr)) :=
  ⟨rfl, Option.map_map _ _ _⟩

theorem readsAs_zipWith_laid (attributes : List Attribute) :
    List.Forall₂ settings.ReadsAs attributes
      (attributes.zipWith Attribute.laid (attributes.map settings.onLine)) := by
  induction attributes with
  | nil => exact .nil
  | cons attr rest ih => exact .cons (settings.readsAs_laid attr) ih

theorem joinPieces_onLine (attributes : List Attribute) :
    attributes.flatMap (fun attr => ' ' :: joinPieces (attr.pieces (settings.quoteFor attr))) =
      (attributes.zipWith Attribute.laid (attributes.map settings.onLine)).flatMap
        Attribute.text := by
  induction attributes with
  | nil => rfl
  | cons attr rest ih =>
      rw [List.flatMap_cons, ih, List.map_cons, List.zipWith_cons_cons, List.flatMap_cons,
        ← Attribute.joinPieces_pieces, joinPieces_append, Gap.joinPieces_pieces]
      rfl

end Settings

namespace Attribute

/-- An attribute of this name with an empty value, as it is read in front of a space. -/
def spaced (name : List Char) : Attribute :=
  ⟨[' '], name, some ⟨['=', ' '], [], none⟩⟩

theorem fits_spaced {name : List Char} (hname : name ≠ []) (hin : ∀ c ∈ name, inName c = true) :
    (spaced name).Fits := by
  refine ⟨rfl, .inr ⟨hname, hin⟩, fun value hvalue => ?_⟩
  obtain rfl := Option.some.inj hvalue
  exact ⟨⟨[], [' '], rfl, rfl, rfl⟩, by simp, by simp, by simp⟩

end Attribute

namespace StartTag

variable {tag : StartTag}

/-- A start tag that is rewritten keeps the grammar, if it does not end with an empty value without
quotes. -/
theorem Fits.laid_onLine (settings : Settings) (hfits : tag.Fits)
    (hsolid : ∀ last ∈ tag.attributes.getLast?, ∀ value ∈ last.value,
      settings.quoteFor last = none → value.raw ≠ []) :
    Fits ⟨tag.name, tag.attributes.zipWith Attribute.laid (tag.attributes.map settings.onLine),
      [' '], .plain⟩ := by
  have hlays := settings.lays_map_onLine tag.attributes
  refine fits_of_fitAll hfits.name (settings.gap_ne_nil_of_laid hlays) ?_ rfl
  refine Attribute.fitAll_laid hlays hfits.attributes fun last hlast layout hlay => ?_
  obtain ⟨front, hattributes⟩ := List.getLast?_eq_some_iff.mp hlast
  obtain ⟨-, -, hends⟩ := fits_last hfits hattributes
  exact Attribute.ends_laid_of_gap hlay hends rfl (List.cons_ne_nil ' ' []) .plain
    (hsolid last hlast)

/-- A start tag that ends with an empty value without quotes has another space in that value's
sign. -/
theorem Fits.laid_spaced (settings : Settings) (hfits : tag.Fits) {front : List Attribute}
    {last : Attribute} (hattributes : tag.attributes = front ++ [last])
    (hvalue : last.value ≠ none) :
    Fits ⟨tag.name, front.zipWith Attribute.laid (front.map settings.onLine) ++
      [Attribute.spaced last.name], [], .plain⟩ := by
  obtain ⟨-, hlast, -⟩ := fits_last hfits hattributes
  obtain ⟨hname, hin⟩ : last.name ≠ [] ∧ ∀ c ∈ last.name, Attribute.inName c = true := by
    rcases hlast.name with ⟨-, hnone⟩ | hname
    · exact absurd hnone hvalue
    · exact hname
  refine settings.fits_replaced hfits hattributes (settings.lays_map_onLine front)
    (Attribute.fits_spaced hname hin) (List.cons_ne_nil _ _) rfl fun _ => ⟨?_, fun _ => rfl⟩
  rw [Ending.text, stopsAt_cons]
  decide

/-- Some start tag has the text that is rewritten. -/
theorem Fits.exists_rewritten (hfits : tag.Fits) (settings : Settings) :
    ∃ back : StartTag, back.Fits ∧ back.body = settings.rewritten tag ∧ back.name = tag.name ∧
      List.Forall₂ settings.ReadsAs tag.attributes back.attributes := by
  by_cases hsolid : ∀ last ∈ tag.attributes.getLast?, ∀ value ∈ last.value,
      settings.quoteFor last = none → value.raw ≠ []
  case pos =>
    refine ⟨_, hfits.laid_onLine settings hsolid, ?_, rfl, settings.readsAs_zipWith_laid _⟩
    rw [body, Settings.rewritten, settings.joinPieces_onLine]
    rfl
  case neg =>
    push Not at hsolid
    obtain ⟨last, hlast, value, hvalue, hquote, hraw⟩ := hsolid
    obtain ⟨front, hattributes⟩ := List.getLast?_eq_some_iff.mp hlast
    rw [Option.mem_def] at hvalue
    -- the space in front of the end is read as part of the sign of the empty value
    refine ⟨_, hfits.laid_spaced settings hattributes (by simp [hvalue]), ?_, rfl, ?_⟩
    · rw [body, Settings.rewritten, settings.joinPieces_onLine, hattributes, List.map_append,
        List.map_singleton, zipWith_concat (List.length_map _).symm]
      simp [Attribute.spaced, Attribute.laid, Attribute.text, Attribute.body, Settings.onLine,
        valueText, AttributeValue.text, quoteText, Gap.text, Ending.text, hvalue, hquote, hraw]
    · rw [hattributes]
      refine List.rel_append (settings.readsAs_zipWith_laid front) (.cons ⟨rfl, ?_⟩ .nil)
      simp [Attribute.spaced, hvalue, hquote, hraw]

/-- A start tag is read back from its rewritten text, with the same name and the same attributes. -/
theorem read?_rewritten {text after : List Char} (hread : read? text = some (tag, after))
    (settings : Settings) (next : List Char) :
    (∃ back, read? (settings.rewritten tag ++ next) = some (back, next) ∧ back.name = tag.name ∧
        List.Forall₂ settings.ReadsAs tag.attributes back.attributes) ∧
      ∀ attr ∈ tag.attributes, ∀ value ∈ attr.value,
        settings.Chooses value (settings.quoteFor attr) := by
  refine ⟨?_, fun attr _ value hvalue => settings.chooses_quoteFor hvalue⟩
  obtain ⟨hfits, -⟩ := read?_eq_some_iff.mp hread
  obtain ⟨back, hback, hbody, hname, hsame⟩ := hfits.exists_rewritten settings
  exact ⟨back, read?_eq_some_iff.mpr ⟨hback, by rw [hbody]⟩, hname, hsame⟩

/-- A tag with an equals sign for a name, a quote in a name, a slash in front of one, the wanted
quote in a value and a value of nothing, where double quotes are asked for and where they are
not. -/
theorem read?_rewritten_odd :
    let text := "a =b'= c /d e='\"' f = \"g>\" h=>".toList
    let asked : Settings := { enforceQuotes := true, quoteStyle := .double }
    let loose : Settings := { enforceQuotes := false, quoteStyle := .double }
    ∃ tag, read? text = some (tag, []) ∧
      asked.rewritten tag = "a = b'=\"c\" /d e='\"' f=\"g>\" h=\"\" >".toList ∧
      loose.rewritten tag = "a = b'=c /d e='\"' f=\"g>\" h= >".toList ∧
      ∀ settings ∈ [asked, loose],
        (∃ back, read? (settings.rewritten tag ++ ['x']) = some (back, ['x']) ∧
            back.name = tag.name ∧ List.Forall₂ settings.ReadsAs tag.attributes back.attributes) ∧
          ∀ attr ∈ tag.attributes, ∀ value ∈ attr.value,
            settings.Chooses value (settings.quoteFor attr) := by
  intro text asked loose
  have hread : (read? text).map (fun found => (asked.rewritten found.1, loose.rewritten found.1,
      found.2)) = some ("a = b'=\"c\" /d e='\"' f=\"g>\" h=\"\" >".toList,
        "a = b'=c /d e='\"' f=\"g>\" h= >".toList, []) := by decide +kernel
  obtain ⟨⟨tag, after⟩, htag, hfound⟩ := Option.map_eq_some_iff.mp hread
  simp only [Prod.mk.injEq] at hfound
  obtain ⟨hasked, hloose, rfl⟩ := hfound
  exact ⟨tag, htag, hasked, hloose, fun settings _ => read?_rewritten htag settings ['x']⟩

end StartTag

end Markup
