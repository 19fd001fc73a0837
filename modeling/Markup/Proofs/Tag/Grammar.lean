import Markup.Proofs.Text.Blank
import Markup.Proofs.Text.Splitting
import Markup.Tag.Reading

/-!
# The grammar of start tags

Which pieces a start tag can be made of. The reader of tags takes whatever comes, so the grammar is
what is left to say about its results: names and values have no characters that would end them, and
what stands behind each attribute lets it end there. Main statement: `StartTag.read?_eq_some_iff`,
by which a tag is read from a text exactly if it keeps the grammar and the text begins with it.
-/

namespace Markup

open Markup.Text

/-- An equals sign with nothing but blanks around it. -/
def IsSign (before : List Char) : Prop :=
  ∃ first second, allBlank first = true ∧ allBlank second = true ∧ before = first ++ '=' :: second

namespace Attribute

/-! ## Names -/

/-- Whether a character can stand in the name of an attribute at all. -/
def inName (c : Char) : Bool :=
  !isBlank c && c != '=' && c != '>'

/-- Whether no name goes on into this text. -/
def stopsName : List Char → Bool
  | [] => true
  | c :: rest => isBlank c || c == '=' || c == '>' || (c == '/' && rest.head? == some '>')

/-- The text behind a name lets it end there. A slash would go with a `>` that follows it. -/
structure NameEnds (name next : List Char) : Prop where
  stop : stopsName next = true
  slash : name.getLast? = some '/' → next.head? ≠ some '>'

theorem splitName_of_stopsName {text : List Char} (hstop : stopsName text = true) :
    splitName text = ([], text) := by
  cases text with
  | nil => rfl
  | cons c rest =>
      unfold splitName
      exact if_pos hstop

theorem splitName_cons_of_not_stopsName {c : Char} {rest : List Char}
    (hstop : stopsName (c :: rest) = false) :
    splitName (c :: rest) = (c :: (splitName rest).1, (splitName rest).2) := by
  rw [splitName]
  refine if_neg fun hstops => ?_
  have hstopped : stopsName (c :: rest) = true := hstops
  simp [hstop] at hstopped

theorem inName_of_not_stopsName {c : Char} {rest : List Char}
    (hstop : stopsName (c :: rest) = false) : inName c = true := by
  simp only [stopsName, Bool.or_eq_false_iff] at hstop
  simp [inName, hstop.1.1.1, ← beq_eq_false_iff_ne, hstop.1.1.2, hstop.1.2]

/-- A character that can stand in a name ends one only as the slash in front of a `>`. -/
theorem eq_slash_of_stopsName {c : Char} {rest : List Char}
    (hstop : stopsName (c :: rest) = true) (hin : inName c = true) :
    c = '/' ∧ rest.head? = some '>' := by
  simp only [inName, Bool.and_eq_true, Bool.not_eq_true', bne_iff_ne] at hin
  simpa [stopsName, hin.1.1, hin.1.2, hin.2] using hstop

theorem NameEnds.tail {c : Char} {name next : List Char} (hends : NameEnds (c :: name) next) :
    NameEnds name next :=
  ⟨hends.stop, fun hlast => hends.slash (by rw [List.getLast?_cons, hlast]; rfl)⟩

theorem NameEnds.cons {c : Char} {name next : List Char} (hends : NameEnds name next)
    (hslash : c = '/' → (name ++ next).head? ≠ some '>') : NameEnds (c :: name) next := by
  refine ⟨hends.stop, fun hlast hhead => ?_⟩
  cases name with
  | nil => exact hslash (by simpa using hlast) hhead
  | cons d tail => exact hends.slash (by simpa using hlast) hhead

theorem not_close_of_stopsName {c : Char} {rest : List Char} (hstop : stopsName (c :: rest) = false)
    (hslash : c = '/') : rest.head? ≠ some '>' := by
  intro hclose
  simp [stopsName, hslash, hclose] at hstop

/-- No name ends behind a place where it would have to end: such a text would be a slash in front of
a `>`, and ends no name. -/
theorem eq_nil_of_stopsName {name next : List Char} (hstop : stopsName (name ++ next) = true)
    (hname : ∀ c ∈ name, inName c = true) (hends : NameEnds name next) : name = [] := by
  cases name with
  | nil => rfl
  | cons c tail =>
      obtain ⟨rfl, hclose⟩ := eq_slash_of_stopsName hstop (hname c List.mem_cons_self)
      exfalso
      cases tail with
      | nil => exact hends.slash rfl hclose
      | cons d tail =>
          obtain rfl : d = '>' := by simpa using hclose
          have hlast := hname '>' (by simp)
          simp [inName] at hlast

/-- What a name is split off as, and where. -/
theorem splitName_eq_iff {text name next : List Char} :
    splitName text = (name, next) ↔
      text = name ++ next ∧ (∀ c ∈ name, inName c = true) ∧ NameEnds name next := by
  induction text generalizing name with
  | nil =>
      simp only [splitName, Prod.mk.injEq, List.nil_eq, List.append_eq_nil_iff]
      constructor
      · rintro ⟨rfl, rfl⟩
        exact ⟨⟨rfl, rfl⟩, by simp, rfl, by simp⟩
      · exact And.left
  | cons c rest ih =>
      cases hstop : stopsName (c :: rest) with
      | true =>
          rw [splitName_of_stopsName hstop, Prod.mk.injEq]
          constructor
          · rintro ⟨rfl, rfl⟩
            exact ⟨rfl, by simp, hstop, by simp⟩
          · rintro ⟨htext, hname, hends⟩
            obtain rfl := eq_nil_of_stopsName (htext ▸ hstop) hname hends
            exact ⟨rfl, htext⟩
      | false =>
          rw [splitName_cons_of_not_stopsName hstop, Prod.mk.injEq]
          constructor
          · rintro ⟨rfl, hnext⟩
            have hsplit : splitName rest = ((splitName rest).1, next) := Prod.ext rfl hnext
            obtain ⟨hrest, hin, hends⟩ := ih.mp hsplit
            refine ⟨by rw [List.cons_append, ← hrest], fun d hmem => ?_,
              hends.cons (hrest ▸ not_close_of_stopsName hstop)⟩
            rcases List.mem_cons.mp hmem with rfl | hmem
            · exact inName_of_not_stopsName hstop
            · exact hin d hmem
          · rintro ⟨htext, hname, hends⟩
            cases name with
            | nil =>
                rw [htext, List.nil_append, hends.stop] at hstop
                cases hstop
            | cons d tail =>
                obtain ⟨rfl, htail⟩ := List.cons.inj htext
                have hin : ∀ e ∈ tail, inName e = true := fun e hmem =>
                  hname e (List.mem_cons_of_mem _ hmem)
                rw [ih.mpr ⟨htail, hin, hends.tail⟩]
                exact ⟨rfl, rfl⟩

end Attribute

/-! ## Values -/

/-- A value that can be read back: a sign in front of it, and nothing in it that would end it. -/
structure AttributeValue.Fits (value : AttributeValue) : Prop where
  sign : IsSign value.before
  quoted : ∀ quote, value.quote = some quote → quote.char ∉ value.raw
  bare : value.quote = none → ∀ c ∈ value.raw, Attribute.inBareValue c = true
  unquoted : value.quote = none → ∀ c ∈ value.raw.head?, Quote.ofChar? c = none

namespace Attribute

/-- The text behind a value without quotes lets it end there. -/
def BareEnds (raw next : List Char) : Prop :=
  StopsAt inBareValue next ∧ (raw = [] → next.head? = some '>')

theorem readValue?_none_iff {text after : List Char} :
    readValue? text = some (none, after) ↔
      text = after ∧ (text.dropWhile isBlank).head? ≠ some '=' := by
  unfold readValue?
  split
  next afterSign hsign =>
    split
    next => simp [hsign]
    next c rest hrest =>
      dsimp only
      split <;> simp [hsign]
  next hsign =>
    simp only [Option.some.injEq, Prod.mk.injEq, true_and]
    refine ⟨fun heq => ⟨heq, fun hhead => ?_⟩, And.left⟩
    obtain ⟨rest, hrest⟩ := List.head?_eq_some_iff.mp hhead
    exact hsign rest hrest

theorem fits_of_readValue? {text after : List Char} {value : AttributeValue}
    (hread : readValue? text = some (some value, after)) :
    value.Fits ∧ (value.quote = none → BareEnds value.raw after) := by
  unfold readValue? at hread
  split at hread
  next afterSign hsign =>
    split at hread
    next => simp at hread
    next c rest hrest =>
      have hbefore : IsSign (text.takeWhile isBlank ++ '=' :: afterSign.takeWhile isBlank) :=
        ⟨_, _, allBlank_takeWhile _, allBlank_takeWhile _, rfl⟩
      dsimp only at hread
      split at hread
      next quote hquote =>
        obtain ⟨⟨raw, tail⟩, hfound, heq⟩ := Option.map_eq_some_iff.mp hread
        simp only [Prod.mk.injEq, Option.some.injEq] at heq
        obtain ⟨rfl, rfl⟩ := heq
        refine ⟨⟨hbefore, ?_, by simp, by simp⟩, by simp⟩
        intro other hother
        obtain rfl := Option.some.inj hother
        exact (splitAround_singleton_iff.mp hfound).1
      next hquote =>
        simp only [Option.some.injEq, Prod.mk.injEq] at hread
        obtain ⟨rfl, rfl⟩ := hread
        have hblank : isBlank c = false := by
          have hstop := stopsAt_dropWhile isBlank afterSign
          rwa [hrest, stopsAt_cons] at hstop
        refine ⟨⟨hbefore, by simp, fun _ d hmem => mem_takeWhile hmem, ?_⟩, fun _ => ⟨?_, ?_⟩⟩
        · intro _ d hhead
          by_cases hin : inBareValue c = true
          · simp only [List.takeWhile_cons_of_pos hin, List.head?_cons, Option.mem_def,
              Option.some.injEq] at hhead
            rw [← hhead, hquote]
          · simp [List.takeWhile_cons_of_neg hin] at hhead
        · exact stopsAt_dropWhile _ _
        · intro hempty
          by_cases hin : inBareValue c = true
          · simp [List.takeWhile_cons_of_pos hin] at hempty
          · have hclose : c = '>' := by simpa [inBareValue, hblank] using hin
            subst hclose
            rw [List.dropWhile_cons_of_neg (by decide)]
            rfl
  next => simp at hread

theorem readValue?_of_fits {value : AttributeValue} {next : List Char} (hfits : value.Fits)
    (hends : value.quote = none → BareEnds value.raw next) :
    readValue? (value.text ++ next) = some (some value, next) := by
  obtain ⟨before, raw, quote⟩ := value
  obtain ⟨⟨first, second, hfirst, hsecond, rfl⟩, hquoted, hbare, hunquoted⟩ := hfits
  have htake : ∀ blanks rest, allBlank blanks = true → StopsAt isBlank rest →
      (blanks ++ rest).takeWhile isBlank = blanks ∧ (blanks ++ rest).dropWhile isBlank = rest :=
    fun blanks rest hblanks hstop =>
      ⟨takeWhile_run (fun _ => isBlank_of_mem hblanks) hstop,
        dropWhile_run (fun _ => isBlank_of_mem hblanks) hstop⟩
  cases quote with
  | some quote =>
      have hstop : StopsAt isBlank (quote.char :: (raw ++ quote.char :: next)) := by
        rw [stopsAt_cons]
        cases quote <;> decide
      obtain ⟨htaken, hdropped⟩ := htake second _ hsecond hstop
      obtain ⟨hsignTaken, hsignDropped⟩ := htake first
        ('=' :: (second ++ quote.char :: (raw ++ quote.char :: next))) hfirst (by simp; decide)
      have hsplit : splitAround [quote.char] (raw ++ quote.char :: next) = some (raw, next) :=
        splitAround_singleton_iff.mpr ⟨hquoted quote rfl, rfl⟩
      have hquote : Quote.ofChar? quote.char = some quote :=
        (Quote.ofChar?_eq_some_iff _ _).mpr rfl
      have htext : AttributeValue.text ⟨first ++ '=' :: second, raw, some quote⟩ ++ next =
          first ++ '=' :: (second ++ quote.char :: (raw ++ quote.char :: next)) := by
        simp [AttributeValue.text, quoteText]
      simp [htext, readValue?, htaken, hdropped, hsignTaken, hsignDropped, hsplit, hquote]
  | none =>
      obtain ⟨hstops, hempty⟩ := hends rfl
      obtain ⟨c, rest, hrest, hc, hquote⟩ : ∃ c rest, raw ++ next = c :: rest ∧
          isBlank c = false ∧ Quote.ofChar? c = none := by
        cases raw with
        | nil =>
            obtain ⟨rest, rfl⟩ := List.head?_eq_some_iff.mp (hempty rfl)
            exact ⟨'>', rest, rfl, by decide, by decide⟩
        | cons c rest =>
            have hin := hbare rfl c List.mem_cons_self
            simp only [inBareValue, Bool.and_eq_true, Bool.not_eq_true'] at hin
            exact ⟨c, rest ++ next, rfl, hin.1, hunquoted rfl c rfl⟩
      obtain ⟨htaken, hdropped⟩ := htake second (c :: rest) hsecond (stopsAt_cons.mpr hc)
      obtain ⟨hsignTaken, hsignDropped⟩ := htake first ('=' :: (second ++ c :: rest)) hfirst
        (by simp; decide)
      have hraw : (c :: rest).takeWhile inBareValue = raw ∧
          (c :: rest).dropWhile inBareValue = next := by
        rw [← hrest]
        exact ⟨takeWhile_run (hbare rfl) hstops, dropWhile_run (hbare rfl) hstops⟩
      have htext : AttributeValue.text ⟨first ++ '=' :: second, raw, none⟩ ++ next =
          first ++ '=' :: (second ++ c :: rest) := by
        simp [AttributeValue.text, quoteText, hrest]
      simp [htext, readValue?, htaken, hdropped, hsignTaken, hsignDropped, hquote, hraw]

/-! ## Attributes -/

/-- An attribute that can be read back where the text behind it lets it end. An equals sign where a
name should be is the whole attribute. -/
structure Fits (attr : Attribute) : Prop where
  gap : allBlank attr.gap = true
  name : (attr.name = ['='] ∧ attr.value = none) ∨
    (attr.name ≠ [] ∧ ∀ c ∈ attr.name, inName c = true)
  value : ∀ value ∈ attr.value, value.Fits

/-- The text behind an attribute lets it end there. -/
def Ends (attr : Attribute) (next : List Char) : Prop :=
  match attr.value with
  | none =>
      attr.name = ['='] ∨
        (NameEnds attr.name next ∧ (next.dropWhile isBlank).head? ≠ some '=')
  | some value => value.quote = none → BareEnds value.raw next

/-- An attribute can begin here: the text is not at the end of the tag. -/
structure Begins (c : Char) (rest : List Char) : Prop where
  solid : isBlank c = false
  inside : c ≠ '>'
  slash : c = '/' → rest.head? ≠ some '>'

theorem fits_of_read? {gap rest after : List Char} {c : Char} {attr : Attribute}
    (hgap : allBlank gap = true) (hbegins : Begins c rest)
    (hread : read? gap c rest = some (attr, after)) : attr.Fits ∧ attr.Ends after := by
  unfold read? at hread
  split at hread
  next hsign =>
    obtain ⟨rfl, rfl⟩ := Prod.mk.inj (Option.some.inj hread)
    exact ⟨⟨hgap, .inl ⟨rfl, rfl⟩, by simp⟩, .inl rfl⟩
  next hsign =>
    obtain ⟨⟨value, tail⟩, hvalue, heq⟩ := Option.map_eq_some_iff.mp hread
    obtain ⟨rfl, rfl⟩ := Prod.mk.inj heq
    obtain ⟨hrest, hin, hends⟩ := splitName_eq_iff.mp (rfl : splitName rest = (_, _))
    have hname : ∀ d ∈ c :: (splitName rest).1, inName d = true := by
      intro d hmem
      rcases List.mem_cons.mp hmem with rfl | hmem
      · simp [inName, hbegins.solid, hbegins.inside, hsign]
      · exact hin d hmem
    have hnameEnds : NameEnds (c :: (splitName rest).1) (splitName rest).2 :=
      hends.cons (hrest ▸ hbegins.slash)
    cases value with
    | none =>
        obtain ⟨rfl, hsigned⟩ := readValue?_none_iff.mp hvalue
        exact ⟨⟨hgap, .inr ⟨by simp, hname⟩, by simp⟩, .inr ⟨hnameEnds, hsigned⟩⟩
    | some value =>
        obtain ⟨hfits, hbare⟩ := fits_of_readValue? hvalue
        refine ⟨⟨hgap, .inr ⟨by simp, hname⟩, ?_⟩, hbare⟩
        intro other hother
        obtain rfl := Option.some.inj hother
        exact hfits

/-- A sign lets a name end in front of it. -/
theorem nameEnds_of_isSign {name before : List Char} (hsign : IsSign before) (next : List Char) :
    NameEnds name (before ++ next) := by
  obtain ⟨first, second, hfirst, -, rfl⟩ := hsign
  cases first with
  | nil => exact ⟨by simp [stopsName], by simp⟩
  | cons d others =>
      have hblank : isBlank d = true := isBlank_of_mem hfirst List.mem_cons_self
      refine ⟨by simp [stopsName, hblank], fun _ hhead => ?_⟩
      obtain rfl : d = '>' := by simpa using hhead
      simp [isBlank] at hblank

theorem read?_of_fits {attr : Attribute} {next : List Char} (hfits : attr.Fits)
    (hends : attr.Ends next) :
    ∃ c rest, attr.body ++ next = c :: rest ∧ Begins c rest ∧
      read? attr.gap c rest = some (attr, next) := by
  obtain ⟨gap, name, value⟩ := attr
  obtain ⟨-, hname, hvalue⟩ := hfits
  rcases hname with ⟨rfl, rfl⟩ | ⟨hne, hname⟩
  · exact ⟨'=', next, by simp [body, valueText], ⟨by decide, by decide, by simp⟩, by simp [read?]⟩
  · obtain ⟨c, tail, rfl⟩ := List.exists_cons_of_ne_nil hne
    have hin := hname c List.mem_cons_self
    simp only [inName, Bool.and_eq_true, Bool.not_eq_true', bne_iff_ne] at hin
    -- what follows the name, be it a value or not, lets the name end
    obtain ⟨hnameEnds, hread⟩ : NameEnds (c :: tail) (valueText value ++ next) ∧
        readValue? (valueText value ++ next) = some (value, next) := by
      cases value with
      | none =>
          rcases hends with hsign | ⟨hnameEnds, hsigned⟩
          · exact absurd (List.cons.inj hsign).1 hin.1.2
          · exact ⟨hnameEnds, readValue?_none_iff.mpr ⟨rfl, hsigned⟩⟩
      | some value =>
          have hvalueFits := hvalue value rfl
          refine ⟨?_, readValue?_of_fits hvalueFits hends⟩
          simp only [valueText, AttributeValue.text, List.append_assoc]
          exact nameEnds_of_isSign hvalueFits.sign _
    have hsplit : splitName (tail ++ (valueText value ++ next)) =
        (tail, valueText value ++ next) :=
      splitName_eq_iff.mpr
        ⟨rfl, fun d hmem => hname d (List.mem_cons_of_mem _ hmem), hnameEnds.tail⟩
    refine ⟨c, tail ++ (valueText value ++ next), by simp [body], ⟨hin.1.1, hin.2, ?_⟩, ?_⟩
    · rintro rfl hhead
      cases tail with
      | nil => exact hnameEnds.slash rfl hhead
      | cons d others =>
          obtain rfl : d = '>' := by simpa using hhead
          have hlast := hname '>' (by simp)
          simp [inName] at hlast
    · simp [read?, hin.1.2, hsplit, hread]

theorem stopsName_ending (next after : List Char) (ending : Ending) :
    stopsName (next ++ (ending.text ++ after)) = stopsName (next ++ ending.text) := by
  cases next with
  | nil => cases ending <;> rfl
  | cons c rest =>
      cases rest with
      | nil => cases ending <;> rfl
      | cons d others => rfl

/-- Where an attribute ends does not depend on what follows the whole tag. -/
theorem ends_ending_iff (attr : Attribute) (next after : List Char) (ending : Ending) :
    attr.Ends (next ++ (ending.text ++ after)) ↔ attr.Ends (next ++ ending.text) := by
  have hhead : (next ++ (ending.text ++ after)).head? = (next ++ ending.text).head? := by
    cases next with
    | nil => cases ending <;> rfl
    | cons c rest => rfl
  have hdropped : ((next ++ (ending.text ++ after)).dropWhile isBlank).head? =
      ((next ++ ending.text).dropWhile isBlank).head? := by
    cases hdrop : next.dropWhile isBlank with
    | nil =>
        have hblank := List.dropWhile_eq_nil_iff.mp hdrop
        rw [List.dropWhile_append_of_pos hblank, List.dropWhile_append_of_pos hblank]
        cases ending <;> rfl
    | cons c rest => simp [List.dropWhile_append, hdrop]
  have hname : NameEnds attr.name (next ++ (ending.text ++ after)) ↔
      NameEnds attr.name (next ++ ending.text) := by
    constructor
    · rintro ⟨hstop, hslash⟩
      exact ⟨by rwa [← stopsName_ending next after], by rwa [← hhead]⟩
    · rintro ⟨hstop, hslash⟩
      exact ⟨by rwa [stopsName_ending], by rwa [hhead]⟩
  unfold Ends BareEnds StopsAt
  rw [hhead, hdropped, hname]

/-- Attributes that can be read back one after the other, in front of the end of a tag. -/
def FitAll : List Attribute → List Char → Prop
  | [], _ => True
  | attr :: rest, final =>
      attr.Fits ∧ attr.Ends (rest.flatMap Attribute.text ++ final) ∧ FitAll rest final

theorem FitAll.fits {attributes : List Attribute} {final : List Char}
    (hfit : FitAll attributes final) : ∀ attr ∈ attributes, attr.Fits := by
  induction attributes with
  | nil => simp
  | cons attr rest ih =>
      intro other hmem
      rcases List.mem_cons.mp hmem with rfl | hmem
      · exact hfit.1
      · exact ih hfit.2.2 other hmem

end Attribute

/-! ## Tags -/

namespace StartTag

/-- A start tag that is read back from its own text. -/
structure Fits (tag : StartTag) : Prop where
  name : ∀ c ∈ tag.name, Attribute.inTagName c = true
  named : StopsAt Attribute.inTagName
    (tag.attributes.flatMap Attribute.text ++ (tag.trailing ++ tag.ending.text))
  attributes : Attribute.FitAll tag.attributes (tag.trailing ++ tag.ending.text)
  trailing : allBlank tag.trailing = true

theorem readAttributes?_of_begins {gap rest : List Char} {c : Char}
    (hgap : allBlank gap = true) (hbegins : Attribute.Begins c rest) :
    readAttributes? (gap ++ c :: rest) =
      (Attribute.read? gap c rest).bind fun (attr, after) =>
        (readAttributes? after).map fun (attributes, found) => (attr :: attributes, found) := by
  have hstop : StopsAt isBlank (c :: rest) := stopsAt_cons.mpr hbegins.solid
  have htake := takeWhile_run (fun _ => isBlank_of_mem hgap) hstop
  have hdrop := dropWhile_run (fun _ => isBlank_of_mem hgap) hstop
  rw [readAttributes?]
  split
  next heq => simp [hdrop] at heq
  next after heq =>
    rw [hdrop] at heq
    exact absurd (List.cons.inj heq).1 hbegins.inside
  next after heq =>
    rw [hdrop] at heq
    obtain ⟨hc, hrest⟩ := List.cons.inj heq
    exact absurd (by rw [hrest]; rfl) (hbegins.slash hc)
  next d others _ _ heq =>
    rw [hdrop] at heq
    obtain ⟨rfl, rfl⟩ := List.cons.inj heq
    rw [htake]
    split
    next hread => rw [hread]; rfl
    next attr after hread => rw [hread]; rfl

theorem readAttributes?_of_ending {trailing : List Char} (htrailing : allBlank trailing = true)
    (ending : Ending) (after : List Char) :
    readAttributes? (trailing ++ (ending.text ++ after)) = some ([], trailing, ending, after) := by
  have hstop : StopsAt isBlank (ending.text ++ after) := by
    cases ending <;> simp [Ending.text] <;> decide
  have htake := takeWhile_run (fun _ => isBlank_of_mem htrailing) hstop
  have hdrop := dropWhile_run (fun _ => isBlank_of_mem htrailing) hstop
  rw [readAttributes?]
  cases ending with
  | plain =>
      simp only [Ending.text, List.singleton_append] at htake hdrop ⊢
      split
      next heq => simp [hdrop] at heq
      next found heq =>
        rw [hdrop] at heq
        rw [htake, (List.cons.inj heq).2]
      next found heq =>
        rw [hdrop] at heq
        exact absurd (List.cons.inj heq).1 (by decide)
      next c rest hclose _ heq =>
        rw [hdrop] at heq
        exact absurd (List.cons.inj heq).1.symm hclose
  | selfClosing =>
      simp only [Ending.text, List.cons_append, List.nil_append] at htake hdrop ⊢
      split
      next heq => simp [hdrop] at heq
      next found heq =>
        rw [hdrop] at heq
        exact absurd (List.cons.inj heq).1 (by decide)
      next found heq =>
        rw [hdrop] at heq
        rw [htake, (List.cons.inj (List.cons.inj heq).2).2]
      next c rest _ hslash heq =>
        rw [hdrop] at heq
        obtain ⟨hc, hrest⟩ := List.cons.inj heq
        exact absurd hrest.symm (hslash after hc.symm)

theorem readAttributes?_of_fitAll {attributes : List Attribute} {trailing : List Char}
    {ending : Ending} (after : List Char) (htrailing : allBlank trailing = true)
    (hfit : Attribute.FitAll attributes (trailing ++ ending.text)) :
    readAttributes? (attributes.flatMap Attribute.text ++ (trailing ++ (ending.text ++ after))) =
      some (attributes, trailing, ending, after) := by
  induction attributes with
  | nil => exact readAttributes?_of_ending htrailing ending after
  | cons attr rest ih =>
      obtain ⟨hfits, hends, hrest⟩ := hfit
      rw [← List.append_assoc] at hends
      have hlong := (Attribute.ends_ending_iff attr _ after ending).mpr hends
      rw [List.append_assoc] at hlong
      obtain ⟨c, others, hbody, hbegins, hread⟩ := Attribute.read?_of_fits hfits hlong
      have htext : (attr :: rest).flatMap Attribute.text ++ (trailing ++ (ending.text ++ after)) =
          attr.gap ++ c :: others := by
        rw [← hbody]
        simp [Attribute.text]
      rw [htext, readAttributes?_of_begins hfits.gap hbegins, hread, Option.bind_some]
      dsimp only
      rw [ih hrest]
      rfl

/-- What is read behind the name of a tag keeps the grammar. -/
theorem fitAll_of_readAttributes? {text after trailing : List Char} {attributes : List Attribute}
    {ending : Ending} (hread : readAttributes? text = some (attributes, trailing, ending, after)) :
    allBlank trailing = true ∧ Attribute.FitAll attributes (trailing ++ ending.text) := by
  fun_induction readAttributes? text generalizing attributes trailing ending after with
  | case1 => simp at hread
  | @case2 text _ tail htext =>
      simp only [Option.some.injEq, Prod.mk.injEq] at hread
      obtain ⟨rfl, rfl, rfl, rfl⟩ := hread
      exact ⟨allBlank_takeWhile _, trivial⟩
  | @case3 text _ tail htext =>
      simp only [Option.some.injEq, Prod.mk.injEq] at hread
      obtain ⟨rfl, rfl, rfl, rfl⟩ := hread
      exact ⟨allBlank_takeWhile _, trivial⟩
  | case4 => simp at hread
  | @case5 text _ c rest hclose hslash htext attr tail hattr ih =>
      obtain ⟨⟨others, found⟩, hothers, heq⟩ := Option.map_eq_some_iff.mp hread
      simp only [Prod.mk.injEq] at heq
      obtain ⟨rfl, rfl⟩ := heq
      obtain ⟨htrailing, hfit⟩ := ih hothers
      have hbegins : Attribute.Begins c rest := by
        refine ⟨?_, hclose, fun hc hhead => ?_⟩
        · have hstop := stopsAt_dropWhile isBlank text
          rwa [htext, stopsAt_cons] at hstop
        · obtain ⟨after, hafter⟩ := List.head?_eq_some_iff.mp hhead
          exact hslash after hc hafter
      obtain ⟨hfits, hends⟩ := Attribute.fits_of_read? (allBlank_takeWhile text) hbegins hattr
      refine ⟨htrailing, hfits, ?_, hfit⟩
      rw [← readAttributes?_append hothers, ← List.append_assoc, ← List.append_assoc,
        List.append_assoc _ ending.text, Attribute.ends_ending_iff] at hends
      simpa using hends

/-- A tag is read from a text exactly if it keeps the grammar and the text begins with it. -/
theorem read?_eq_some_iff {text after : List Char} {tag : StartTag} :
    read? text = some (tag, after) ↔ tag.Fits ∧ text = tag.body ++ after := by
  constructor
  · intro hread
    have htext := read?_append hread
    obtain ⟨⟨attributes, trailing, ending, tail⟩, hfound, heq⟩ := Option.map_eq_some_iff.mp hread
    obtain ⟨rfl, rfl⟩ := Prod.mk.inj heq
    obtain ⟨htrailing, hfit⟩ := fitAll_of_readAttributes? hfound
    refine ⟨⟨fun _ => mem_takeWhile, ?_, hfit, htrailing⟩, htext.symm⟩
    have hstop := stopsAt_dropWhile Attribute.inTagName text
    rw [← readAttributes?_append hfound] at hstop
    intro c hhead
    refine hstop c ?_
    rw [← List.append_assoc, ← List.append_assoc, List.append_assoc _ trailing, List.head?_append]
    rw [Option.mem_def] at hhead ⊢
    rw [hhead]
    rfl
  · rintro ⟨hfits, rfl⟩
    have hstop : StopsAt Attribute.inTagName (tag.attributes.flatMap Attribute.text ++
        (tag.trailing ++ (tag.ending.text ++ after))) := by
      intro c hhead
      refine hfits.named c ?_
      rw [← List.append_assoc, ← List.append_assoc, List.append_assoc _ tag.trailing,
        List.head?_append] at hhead
      cases hfirst : (tag.attributes.flatMap Attribute.text ++
          (tag.trailing ++ tag.ending.text)).head? with
      | some d => rw [hfirst] at hhead; exact hhead
      | none =>
          have hnil := List.head?_eq_none_iff.mp hfirst
          cases hending : tag.ending <;> simp [hending, Ending.text] at hnil
    have htake := takeWhile_run hfits.name hstop
    have hdrop := dropWhile_run hfits.name hstop
    have hrest := readAttributes?_of_fitAll after hfits.trailing hfits.attributes
    simp only [read?, body, List.append_assoc]
    rw [htake, hdrop, hrest]
    rfl

end StartTag

end Markup
