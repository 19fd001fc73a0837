import Mathlib.Data.List.Forall2
import Markup.Proofs.Plan.Gaps
import Markup.Proofs.Tag.Grammar
import Markup.Output.Rendering

/-!
# Start tags that are laid out

A start tag is written with other gaps and quotes than it had. It is read back as it was written,
with one exception: where nothing is left between the last attribute and the end of the tag, the two
can fuse. A slash behind a value without quotes is read as part of the value, and a slash at the end
of a name as part of the end of the tag. Main statements: `Settings.fits_layTag` and
`Settings.exists_twin`, by which a tag that is laid out can be read back exactly if it does not
fuse.
-/

namespace Markup

open Markup.Text

/-- An attribute as its layout has it. -/
def Attribute.laid (attr : Attribute) (layout : AttributeLayout) : Attribute :=
  ⟨layout.gap.text, attr.name, attr.value.map fun value => ⟨['='], value.raw, layout.quote⟩⟩

/-- A start tag as its layout has it. -/
def StartTag.laid (tag : StartTag) (layouts : List AttributeLayout) (tagEnd : Gap) : StartTag :=
  ⟨tag.name, tag.attributes.zipWith Attribute.laid layouts, tagEnd.text, tag.ending⟩

theorem Attribute.joinPieces_pieces (attr : Attribute) (layout : AttributeLayout) :
    joinPieces (layout.gap.pieces ++ attr.pieces layout.quote) = (attr.laid layout).text := by
  unfold pieces laid text body
  cases attr.value with
  | none =>
      rw [List.append_nil]
      simp [joinPieces_append, joinPieces_emit, Gap.joinPieces_pieces, valueText]
  | some value =>
      simp [joinPieces_append, joinPieces_emit, Gap.joinPieces_pieces, valueText,
        AttributeValue.text]

/-- A start tag is written as its layout has it. -/
theorem StartTag.joinPieces_pieces (tag : StartTag) (layouts : List AttributeLayout)
    (tagEnd : Gap) : joinPieces (tag.pieces layouts tagEnd) = (tag.laid layouts tagEnd).text := by
  have hattributes : ∀ (attributes : List Attribute) (layouts : List AttributeLayout),
      joinPieces ((attributes.zip layouts).flatMap fun both =>
        both.2.gap.pieces ++ both.1.pieces both.2.quote) =
      (attributes.zipWith Attribute.laid layouts).flatMap Attribute.text := by
    intro attributes
    induction attributes with
    | nil => intro layouts; rfl
    | cons attr rest ih =>
        intro layouts
        cases layouts with
        | nil => rfl
        | cons layout others =>
            rw [List.zip_cons_cons, List.flatMap_cons, joinPieces_append, ih,
              Attribute.joinPieces_pieces]
            rfl
  unfold pieces text body laid
  simp only [joinPieces_append, joinPieces_emit, Gap.joinPieces_pieces, hattributes,
    List.singleton_append]

theorem StartTag.joinPieces_pieces_ne_nil (tag : StartTag) (layouts : List AttributeLayout)
    (tagEnd : Gap) : joinPieces (tag.pieces layouts tagEnd) ≠ [] := by
  rw [joinPieces_pieces, text]
  exact List.cons_ne_nil _ _

namespace Settings

/-! ## The layouts of attributes -/

/-- A layout that an attribute can get: a gap that parts it from what stands in front, and the
quotes for its value. -/
structure Lays (settings : Settings) (attr : Attribute) (layout : AttributeLayout) : Prop where
  gap : layout.gap.Blank
  parts : layout.gap.text ≠ []
  quote : layout.quote = settings.quoteFor attr

variable (settings : Settings)

theorem attributeGap_parts (broken : Bool) (aligned : Nat) :
    (attributeGap broken aligned).text ≠ [] := by
  cases broken <;> simp [attributeGap, Gap.text]

theorem lays_layoutAttribute (cursor : Cursor) (attr : Attribute) (broken : Bool) (aligned : Nat) :
    settings.Lays attr (settings.layoutAttribute cursor attr broken aligned).1 :=
  ⟨blank_attributeGap _ _, attributeGap_parts _ _, rfl⟩

theorem lays_layoutFurther (wrapped : Bool) (aligned : Nat) (cursor : Cursor)
    (attributes : List Attribute) :
    List.Forall₂ settings.Lays attributes
      (settings.layoutFurther wrapped aligned cursor attributes).1 := by
  induction attributes generalizing cursor with
  | nil => exact .nil
  | cons attr rest ih =>
      unfold layoutFurther
      exact .cons (settings.lays_layoutAttribute cursor attr _ aligned) (ih _)

/-- Every attribute of a tag gets a layout. -/
theorem lays_layoutStartTag (tag : StartTag) (indent : Nat) (cursor : Cursor) :
    List.Forall₂ settings.Lays tag.attributes (settings.layoutStartTag tag indent cursor).1 := by
  unfold layoutStartTag
  dsimp only
  cases tag.attributes with
  | nil => exact .nil
  | cons attr rest =>
      unfold layoutAttributes
      exact .cons (settings.lays_layoutAttribute (cursor.place (1 + tag.name.length)) attr _ _)
        (settings.lays_layoutFurther _ _ _ rest)

/-- A start tag as it is laid out at a cursor. -/
def layTag (tag : StartTag) (indent : Nat) (cursor : Cursor) : StartTag :=
  tag.laid (settings.layoutStartTag tag indent cursor).1
    (settings.layoutStartTag tag indent cursor).2.1

/-- Whether the last attribute of a start tag and the end of the tag are written without anything
between them, and are not read back as they are written. -/
def fuses (tag : StartTag) : Bool :=
  settings.tagEndGap tag 0 == .nothing &&
    tag.attributes.getLast?.any fun attr =>
      match attr.value, tag.ending with
      | some _, .selfClosing => (settings.quoteFor attr).isNone
      | none, .plain => attr.name.getLast? == some '/'
      | _, _ => false

/-- Whether anything is left in front of the end of a tag does not depend on the indent. -/
theorem tagEndGap_eq_nothing_iff (tag : StartTag) (indent : Nat) :
    settings.tagEndGap tag indent = .nothing ↔ settings.keepsBreakInTag tag.trailing = false ∧
      (tag.ending = .selfClosing → settings.spaceInsideEmptyTag = false) := by
  unfold tagEndGap
  split
  next hkeeps => simp [hkeeps]
  next hkeeps =>
    split
    next hspace => simp_all
    next hspace => simp_all

theorem tagEndGap_eq_nothing_of_text {tag : StartTag} {indent : Nat}
    (htext : (settings.tagEndGap tag indent).text = []) :
    settings.tagEndGap tag indent = .nothing := by
  unfold tagEndGap at htext ⊢
  split at htext
  next => simp [Gap.text] at htext
  next hkeeps =>
    rw [if_neg hkeeps]
    split at htext
    next => simp [Gap.text] at htext
    next hspace => rw [if_neg hspace]

end Settings

/-! ## Quotes -/

theorem Settings.quoteFor_spec (settings : Settings) {attr : Attribute} {value : AttributeValue}
    (hvalue : attr.value = some value) (hfits : value.Fits) :
    (∀ quote, settings.quoteFor attr = some quote → quote.char ∉ value.raw) ∧
      (settings.quoteFor attr = none → value.quote = none) := by
  unfold quoteFor
  rw [hvalue]
  dsimp only
  split
  next =>
    split
    next => exact ⟨hfits.quoted, id⟩
    next target htarget =>
      split
      next => exact ⟨hfits.quoted, id⟩
      next hfree =>
        refine ⟨fun quote hquote => ?_, by simp⟩
        obtain rfl := Option.some.inj hquote
        simpa using hfree
  next => exact ⟨hfits.quoted, id⟩

namespace Attribute

variable {settings : Settings} {attr other : Attribute} {layout : AttributeLayout}

/-! ## Attributes -/

theorem isSign_equals : IsSign ['='] :=
  ⟨[], [], rfl, rfl, rfl⟩

/-- An attribute that is laid out keeps the grammar, whatever comes behind it. -/
theorem fits_laid (hfits : attr.Fits) (hlays : settings.Lays attr layout) :
    (attr.laid layout).Fits := by
  obtain ⟨-, hname, hvalues⟩ := hfits
  refine ⟨hlays.gap, ?_, ?_⟩
  · rcases hname with ⟨hname, hnone⟩ | hname
    · exact .inl ⟨hname, by simp [laid, hnone]⟩
    · exact .inr hname
  · intro value hvalue
    obtain ⟨source, hsource, rfl⟩ := Option.map_eq_some_iff.mp hvalue
    have hsourceFits := hvalues source hsource
    obtain ⟨hquoted, hbare⟩ := settings.quoteFor_spec hsource hsourceFits
    rw [← hlays.quote] at hquoted hbare
    exact ⟨isSign_equals, hquoted, fun hnone => hsourceFits.bare (hbare hnone),
      fun hnone => hsourceFits.unquoted (hbare hnone)⟩

/-- A text behind a gap begins with a blank. -/
theorem head?_text_of_gap {gap : List Char} (hgap : allBlank gap = true) (hne : gap ≠ [])
    (rest : List Char) :
    ∃ c tail, gap ++ rest = c :: tail ∧ isBlank c = true := by
  cases gap with
  | nil => exact absurd rfl hne
  | cons c tail => exact ⟨c, tail ++ rest, rfl, isBlank_of_mem hgap List.mem_cons_self⟩

theorem name_ne_nil (hfits : attr.Fits) : attr.name ≠ [] := by
  rcases hfits.name with ⟨hname, -⟩ | ⟨hne, -⟩
  · simp [hname]
  · exact hne

/-- The first character of a name is no blank and does not end a tag. -/
theorem Fits.head (hfits : attr.Fits) {c : Char} (hhead : attr.name.head? = some c) :
    isBlank c = false ∧ c ≠ '>' := by
  rcases hfits.name with ⟨hname, -⟩ | ⟨-, hname⟩
  · obtain rfl : '=' = c := by simpa [hname] using hhead
    decide
  · have hin := hname c (List.mem_of_mem_head? hhead)
    simp only [inName, Bool.and_eq_true, Bool.not_eq_true', bne_iff_ne] at hin
    exact ⟨hin.1.1, hin.2⟩

/-- A text that begins with an attribute does not begin with the end of a tag. -/
theorem Fits.head?_text_ne (hfits : attr.Fits) (rest : List Char) :
    (attr.text ++ rest).head? ≠ some '>' := by
  intro hhead
  rw [text, List.append_assoc] at hhead
  cases hgap : attr.gap with
  | cons c blanks =>
      rw [hgap] at hhead
      obtain rfl : c = '>' := by simpa using hhead
      have hblank := isBlank_of_mem hfits.gap (hgap ▸ List.mem_cons_self)
      simp [isBlank] at hblank
  | nil =>
      cases hname : attr.name with
      | nil => exact name_ne_nil hfits hname
      | cons c tail =>
          have hfirst := hfits.head (by rw [hname]; rfl : attr.name.head? = some c)
          rw [hgap, List.nil_append, body, hname] at hhead
          exact hfirst.2 (by simpa using hhead)

/-- Blanks in front of the end of a tag do not begin with `>`, unless there are none and the tag
ends plainly. -/
theorem eq_nil_of_head?_ending {blanks : List Char} {ending : Ending}
    (hblanks : allBlank blanks = true) (hhead : (blanks ++ ending.text).head? = some '>') :
    blanks = [] ∧ ending = .plain := by
  cases blanks with
  | nil =>
      cases ending with
      | plain => exact ⟨rfl, rfl⟩
      | selfClosing => simp [Ending.text] at hhead
  | cons c rest =>
      obtain rfl : c = '>' := by simpa using hhead
      have hblank := isBlank_of_mem hblanks List.mem_cons_self
      simp [isBlank] at hblank

theorem dropWhile_isBlank_append {blanks rest : List Char} (hblanks : allBlank blanks = true)
    (hrest : StopsAt isBlank rest) : (blanks ++ rest).dropWhile isBlank = rest :=
  dropWhile_run (fun _ => isBlank_of_mem hblanks) hrest

/-- In front of another attribute, an attribute ends behind any gap if it ended there before. -/
theorem ends_laid_of_ends (hfits : attr.Fits) (hlays : settings.Lays attr layout)
    {final gap rest : List Char} (hother : other.Fits) (hends : attr.Ends (other.text ++ final))
    (hgap : allBlank gap = true) (hne : gap ≠ []) (hrest : rest.head? = other.name.head?) :
    (attr.laid layout).Ends (gap ++ rest) := by
  obtain ⟨c, hhead⟩ : ∃ c, other.name.head? = some c := by
    cases hname : other.name with
    | nil => exact absurd hname (name_ne_nil hother)
    | cons c tail => exact ⟨c, rfl⟩
  obtain ⟨hsolid, -⟩ := hother.head hhead
  have hbody : (other.body ++ final).head? = some c := by
    simp [body, List.head?_append, hhead]
  have hstops : ∀ text : List Char, text.head? = some c → StopsAt isBlank text := by
    intro text htext d hd
    rw [htext] at hd
    obtain rfl := Option.some.inj hd
    exact hsolid
  have hdropped : (other.text ++ final).dropWhile isBlank = other.body ++ final := by
    rw [text, List.append_assoc, dropWhile_isBlank_append hother.gap (hstops _ hbody)]
  obtain ⟨d, tail, hcons, hblank⟩ := head?_text_of_gap hgap hne rest
  unfold Ends at hends ⊢
  cases hvalue : attr.value with
  | none =>
      simp only [hvalue] at hends
      simp only [laid, hvalue, Option.map_none]
      refine hends.imp_right fun hplain => ⟨⟨?_, fun _ => ?_⟩, ?_⟩
      · simp [hcons, stopsName, hblank]
      · rintro hclosed
        obtain rfl : d = '>' := by simpa [hcons] using hclosed
        simp [isBlank] at hblank
      · rw [dropWhile_isBlank_append hgap (hstops _ (hrest.trans hhead)), hrest, hhead]
        have hsign := hplain.2
        rwa [hdropped, hbody] at hsign
  | some value =>
      simp only [hvalue] at hends
      simp only [laid, hvalue, Option.map_some]
      intro hnone
      rw [hlays.quote] at hnone
      have hbare := (settings.quoteFor_spec hvalue (hfits.value value hvalue)).2 hnone
      refine ⟨?_, fun hempty => ?_⟩
      · rw [hcons, stopsAt_cons]
        simp [inBareValue, hblank]
      · -- a value of nothing stands right in front of the end of the tag
        exact absurd ((hends hbare).2 hempty) (hother.head?_text_ne final)

theorem stopsAt_ending (ending : Ending) : StopsAt isBlank ending.text := by
  cases ending <;> (rw [Ending.text, stopsAt_cons]; decide)

/-- Behind a gap, the end of a tag ends an attribute that ended before, unless its value is empty
and without quotes. -/
theorem ends_laid_of_gap (hlays : settings.Lays attr layout) {final gap : List Char}
    (hends : attr.Ends final) (hgap : allBlank gap = true) (hne : gap ≠ []) (ending : Ending)
    (hsolid : ∀ value ∈ attr.value, settings.quoteFor attr = none → value.raw ≠ []) :
    (attr.laid layout).Ends (gap ++ ending.text) := by
  obtain ⟨c, tail, hcons, hblank⟩ := head?_text_of_gap hgap hne ending.text
  have hdropped := dropWhile_isBlank_append hgap (stopsAt_ending ending)
  unfold Ends at hends ⊢
  cases hvalue : attr.value with
  | none =>
      simp only [hvalue] at hends
      simp only [laid, hvalue, Option.map_none]
      refine hends.imp_right fun _ => ⟨⟨?_, fun _ hclose => ?_⟩, ?_⟩
      · simp [hcons, stopsName, hblank]
      · obtain rfl : c = '>' := by simpa [hcons] using hclose
        simp [isBlank] at hblank
      · rw [hdropped]
        cases ending <;> simp [Ending.text]
  | some value =>
      simp only [laid, hvalue, Option.map_some]
      intro hnone
      have hraw := hsolid value hvalue (hlays.quote.symm.trans hnone)
      refine ⟨?_, fun hempty => absurd hempty hraw⟩
      rw [hcons, stopsAt_cons]
      simp [inBareValue, hblank]

/-- Without a gap, the end of a tag ends an attribute that ended before, unless a slash between them
goes with the other one. -/
theorem ends_laid_of_ending (hlays : settings.Lays attr layout) {final : List Char}
    (hends : attr.Ends final) {ending : Ending}
    (hslash : attr.value = none → attr.name.getLast? = some '/' → ending = .selfClosing)
    (hbare : ∀ value ∈ attr.value, settings.quoteFor attr = none → ending = .plain) :
    (attr.laid layout).Ends ending.text := by
  unfold Ends at hends ⊢
  cases hvalue : attr.value with
  | none =>
      simp only [hvalue] at hends
      simp only [laid, hvalue, Option.map_none]
      refine hends.imp_right fun _ => ⟨⟨by cases ending <;> rfl, fun hlast => ?_⟩, ?_⟩
      · rw [hslash hvalue hlast]
        simp [Ending.text]
      · cases ending <;> simp [Ending.text, isBlank]
  | some value =>
      simp only [laid, hvalue, Option.map_some]
      intro hnone
      obtain rfl := hbare value hvalue (hlays.quote.symm.trans hnone)
      refine ⟨?_, fun _ => rfl⟩
      rw [Ending.text, stopsAt_cons]
      decide

theorem fitAll_append {first second : List Attribute} {final : List Char} :
    FitAll (first ++ second) final ↔
      FitAll first (second.flatMap text ++ final) ∧ FitAll second final := by
  induction first with
  | nil => simp [FitAll]
  | cons attr rest ih => simp [FitAll, ih, and_assoc]

/-- Attributes that are laid out can be read back if the last of them ends. -/
theorem fitAll_laid {attributes : List Attribute} {layouts : List AttributeLayout}
    (hlays : List.Forall₂ settings.Lays attributes layouts) {final next : List Char}
    (hfit : FitAll attributes final)
    (hlast : ∀ attr ∈ attributes.getLast?, ∀ layout, settings.Lays attr layout →
      (attr.laid layout).Ends next) :
    FitAll (attributes.zipWith laid layouts) next := by
  induction hlays with
  | nil => trivial
  | @cons attr layout rest layouts hlay hrest ih =>
      obtain ⟨hfits, hends, hfitRest⟩ := hfit
      refine ⟨fits_laid hfits hlay, ?_, ih hfitRest ?_⟩
      · cases hrest with
        | nil => exact hlast attr rfl layout hlay
        | @cons following behind others layouts hnext _ =>
            rw [List.flatMap_cons, List.append_assoc] at hends
            have hname := name_ne_nil hfitRest.1
            have hhead : (following.laid behind).body.head? = following.name.head? := by
              cases hcons : following.name with
              | nil => exact absurd hcons hname
              | cons c tail => simp [body, laid, hcons]
            rw [List.zipWith_cons_cons, List.flatMap_cons, text, List.append_assoc,
              List.append_assoc]
            refine ends_laid_of_ends hfits hlay hfitRest.1 hends hnext.gap hnext.parts ?_
            rw [List.head?_append, hhead]
            cases hcons : following.name with
            | nil => exact absurd hcons hname
            | cons c tail => rfl
      · intro last hmem
        refine hlast last ?_
        cases rest with
        | nil => simp at hmem
        | cons following others => simpa using hmem

end Attribute

/-! ## Tags -/

theorem forall₂_concat {α β : Type} {Holds : α → β → Prop} {front : List α} {last : α}
    {images : List β} (hholds : List.Forall₂ Holds (front ++ [last]) images) :
    ∃ others image, images = others ++ [image] ∧ List.Forall₂ Holds front others ∧
      Holds last image := by
  induction front generalizing images with
  | nil =>
      cases hholds with
      | cons hlast hnil =>
          cases hnil
          exact ⟨[], _, rfl, .nil, hlast⟩
  | cons first rest ih =>
      cases hholds with
      | cons hfirst hrest =>
          obtain ⟨others, image, rfl, hothers, hlast⟩ := ih hrest
          exact ⟨_ :: others, image, rfl, .cons hfirst hothers, hlast⟩

theorem zipWith_concat {front : List Attribute} {others : List AttributeLayout} {last : Attribute}
    {layout : AttributeLayout} (hlength : front.length = others.length) :
    (front ++ [last]).zipWith Attribute.laid (others ++ [layout]) =
      front.zipWith Attribute.laid others ++ [last.laid layout] := by
  rw [List.zipWith_append hlength]
  rfl

namespace StartTag

/-- Another start tag has the same text, and is the one that is read from it. -/
def Twin (tag : StartTag) : Prop :=
  ∃ other : StartTag, other.Fits ∧ other.text = tag.text ∧ other.ending ≠ tag.ending

/-- Behind gaps, attributes that can be read back make up a tag that can. -/
theorem fits_of_fitAll {tag : StartTag} (hname : ∀ c ∈ tag.name, Attribute.inTagName c = true)
    (hgaps : ∀ attr ∈ tag.attributes, attr.gap ≠ [])
    (hfit : Attribute.FitAll tag.attributes (tag.trailing ++ tag.ending.text))
    (htrailing : allBlank tag.trailing = true) : tag.Fits := by
  refine ⟨hname, ?_, hfit, htrailing⟩
  have hblank : ∀ {blanks rest : List Char}, allBlank blanks = true → blanks ≠ [] →
      StopsAt Attribute.inTagName (blanks ++ rest) := by
    intro blanks rest hblanks hne
    obtain ⟨c, tail, hcons, hc⟩ := Attribute.head?_text_of_gap hblanks hne rest
    rw [hcons, stopsAt_cons]
    simp [Attribute.inTagName, hc]
  cases hattributes : tag.attributes with
  | nil =>
      rw [List.flatMap_nil, List.nil_append]
      by_cases hne : tag.trailing = []
      · rw [hne, List.nil_append]
        cases tag.ending <;> simp [Ending.text] <;> decide
      · exact hblank htrailing hne
  | cons attr rest =>
      have hattr := hfit.fits attr (by simp [hattributes])
      rw [List.flatMap_cons, List.append_assoc, Attribute.text, List.append_assoc]
      exact hblank hattr.gap (hgaps attr (by simp [hattributes]))

theorem fits_last {tag : StartTag} (hfits : tag.Fits) {front : List Attribute} {last : Attribute}
    (hattributes : tag.attributes = front ++ [last]) :
    Attribute.FitAll front (last.text ++ (tag.trailing ++ tag.ending.text)) ∧ last.Fits ∧
      last.Ends (tag.trailing ++ tag.ending.text) := by
  have hfit := hfits.attributes
  rw [hattributes, Attribute.fitAll_append] at hfit
  obtain ⟨hfront, hlast, hends, -⟩ := hfit
  exact ⟨by simpa using hfront, hlast, hends⟩

end StartTag

namespace Settings

variable (settings : Settings)

theorem gap_ne_nil_of_laid {attributes : List Attribute} {layouts : List AttributeLayout}
    (hlays : List.Forall₂ settings.Lays attributes layouts) :
    ∀ attr ∈ attributes.zipWith Attribute.laid layouts, attr.gap ≠ [] := by
  induction hlays with
  | nil => simp
  | cons hlay _ ih =>
      intro attr hmem
      rcases List.mem_cons.mp hmem with rfl | hmem
      · exact hlay.parts
      · exact ih attr hmem

/-- In front of the end of a tag that does not fuse, the last attribute ends. -/
theorem ends_laid_last {tag : StartTag} (hfits : tag.Fits) (hfuses : settings.fuses tag = false)
    {attr : Attribute} (hlast : tag.attributes.getLast? = some attr) {layout : AttributeLayout}
    (hlays : settings.Lays attr layout) (indent : Nat) :
    (attr.laid layout).Ends ((settings.tagEndGap tag indent).text ++ tag.ending.text) := by
  obtain ⟨front, hattributes⟩ := List.getLast?_eq_some_iff.mp hlast
  obtain ⟨-, hattr, hends⟩ := StartTag.fits_last hfits hattributes
  by_cases hgap : (settings.tagEndGap tag indent).text = []
  case pos =>
    have hnothing : settings.tagEndGap tag 0 = .nothing := by
      rw [tagEndGap_eq_nothing_iff, ← tagEndGap_eq_nothing_iff settings tag indent]
      exact settings.tagEndGap_eq_nothing_of_text hgap
    rw [hgap, List.nil_append]
    refine Attribute.ends_laid_of_ending hlays hends (fun hvalue hslash => ?_)
      fun value hvalue hquote => ?_
    · cases hending : tag.ending with
      | plain => simp [fuses, hnothing, hlast, hvalue, hending, hslash] at hfuses
      | selfClosing => rfl
    · rw [Option.mem_def] at hvalue
      cases hending : tag.ending with
      | plain => rfl
      | selfClosing => simp [fuses, hnothing, hlast, hvalue, hending, hquote] at hfuses
  case neg =>
    refine Attribute.ends_laid_of_gap hlays hends (settings.blank_tagEndGap tag indent) hgap _
      fun value hvalue hquote hraw => hgap ?_
    -- a value of nothing is read only where the tag ends with it, and then stays there
    have hbare := (settings.quoteFor_spec hvalue (hattr.value value hvalue)).2 hquote
    rw [Option.mem_def] at hvalue
    simp only [Attribute.Ends, hvalue] at hends
    obtain ⟨htrailing, hending⟩ :=
      Attribute.eq_nil_of_head?_ending hfits.trailing ((hends hbare).2 hraw)
    have hnothing : settings.tagEndGap tag indent = .nothing := by
      rw [tagEndGap_eq_nothing_iff]
      simp [hending, htrailing, keepsBreakInTag]
    rw [hnothing]
    rfl

/-- A start tag that does not fuse can be read back as it is laid out. -/
theorem fits_layTag {tag : StartTag} (hfits : tag.Fits) (hfuses : settings.fuses tag = false)
    (indent : Nat) (cursor : Cursor) : (settings.layTag tag indent cursor).Fits := by
  have hlays := settings.lays_layoutStartTag tag indent cursor
  refine StartTag.fits_of_fitAll hfits.name (settings.gap_ne_nil_of_laid hlays) ?_
    (settings.blank_tagEndGap tag indent)
  refine Attribute.fitAll_laid hlays hfits.attributes fun attr hmem layout hlay => ?_
  exact settings.ends_laid_last hfits hfuses hmem hlay indent

/-- The attributes in front of the last one can be read back in front of anything that begins as the
last one did. -/
theorem fitAll_front {tag : StartTag} (hfits : tag.Fits) {front : List Attribute} {last : Attribute}
    (hattributes : tag.attributes = front ++ [last]) {layouts : List AttributeLayout}
    (hlays : List.Forall₂ settings.Lays front layouts) {gap rest : List Char}
    (hgap : allBlank gap = true) (hne : gap ≠ []) (hrest : rest.head? = last.name.head?) :
    Attribute.FitAll (front.zipWith Attribute.laid layouts) (gap ++ rest) := by
  obtain ⟨hfront, hlast, -⟩ := StartTag.fits_last hfits hattributes
  refine Attribute.fitAll_laid hlays hfront fun attr hmem layout hlay => ?_
  obtain ⟨others, rfl⟩ := List.getLast?_eq_some_iff.mp hmem
  obtain ⟨-, hattr, hends, -⟩ := Attribute.fitAll_append.mp hfront
  exact Attribute.ends_laid_of_ends hattr hlay hlast hends hgap hne hrest

/-- A last attribute can be replaced by another one that begins as it did, and ends in front of the
end of the tag. -/
theorem fits_replaced {tag : StartTag} (hfits : tag.Fits) {front : List Attribute}
    {last other : Attribute} (hattributes : tag.attributes = front ++ [last])
    {layouts : List AttributeLayout} (hlays : List.Forall₂ settings.Lays front layouts)
    (hother : other.Fits) (hgap : other.gap ≠ []) (hname : other.name.head? = last.name.head?)
    {ending : Ending} (hends : other.Ends ending.text) :
    StartTag.Fits ⟨tag.name, front.zipWith Attribute.laid layouts ++ [other], [], ending⟩ := by
  refine StartTag.fits_of_fitAll hfits.name ?_ ?_ rfl
  · intro attr hmem
    rcases List.mem_append.mp hmem with hmem | hmem
    · exact settings.gap_ne_nil_of_laid hlays attr hmem
    · obtain rfl := List.mem_singleton.mp hmem
      exact hgap
  · have hhead : (other.body ++ ending.text).head? = last.name.head? := by
      rw [Attribute.body, List.append_assoc,
        List.head?_append_of_ne_nil _ (Attribute.name_ne_nil hother), hname]
    have hfront := settings.fitAll_front hfits hattributes hlays hother.gap hgap hhead
    rw [Attribute.fitAll_append]
    exact ⟨by simpa [Attribute.text] using hfront, hother, hends, trivial⟩

/-- A slash behind a value without quotes is read as part of the value. -/
theorem twin_of_value {tag : StartTag} (hfits : tag.Fits) {front : List Attribute}
    {last : Attribute} (hattributes : tag.attributes = front ++ [last]) {value : AttributeValue}
    (hvalue : last.value = some value) (hquote : settings.quoteFor last = none)
    (hending : tag.ending = .selfClosing) {layouts : List AttributeLayout}
    {layout : AttributeLayout} (hlays : List.Forall₂ settings.Lays front layouts)
    (hlay : settings.Lays last layout) :
    (tag.laid (layouts ++ [layout]) .nothing).Twin := by
  obtain ⟨-, hlast, hends⟩ := StartTag.fits_last hfits hattributes
  have hvalueFits := hlast.value value hvalue
  have hbare := (settings.quoteFor_spec hvalue hvalueFits).2 hquote
  have hnone : layout.quote = none := hlay.quote.trans hquote
  have hraw : value.raw ≠ [] := by
    intro hempty
    simp only [Attribute.Ends, hvalue] at hends
    have hplain := (Attribute.eq_nil_of_head?_ending hfits.trailing ((hends hbare).2 hempty)).2
    simp [hending] at hplain
  let longer : Attribute :=
    ⟨layout.gap.text, last.name, some ⟨['='], value.raw ++ ['/'], none⟩⟩
  have hlonger : longer.Fits := by
    obtain ⟨-, hname, -⟩ := hlast
    refine ⟨hlay.gap, .inr ?_, ?_⟩
    · rcases hname with ⟨-, hno⟩ | hname
      · simp [hvalue] at hno
      · exact hname
    · intro other hother
      obtain rfl := Option.some.inj hother
      refine ⟨Attribute.isSign_equals, by simp, fun _ c hmem => ?_, fun _ c hhead => ?_⟩
      · rcases List.mem_append.mp hmem with hmem | hmem
        · exact hvalueFits.bare hbare c hmem
        · obtain rfl := List.mem_singleton.mp hmem
          decide
      · refine hvalueFits.unquoted hbare c ?_
        rwa [List.head?_append_of_ne_nil _ hraw] at hhead
  have htext : (tag.laid (layouts ++ [layout]) .nothing).attributes =
      front.zipWith Attribute.laid layouts ++ [last.laid layout] := by
    rw [StartTag.laid, hattributes, zipWith_concat hlays.length_eq]
  refine ⟨⟨tag.name, front.zipWith Attribute.laid layouts ++ [longer], [], .plain⟩, ?_, ?_, ?_⟩
  · refine settings.fits_replaced hfits hattributes hlays hlonger hlay.parts rfl fun _ =>
      ⟨?_, by simp⟩
    rw [Ending.text, stopsAt_cons]
    decide
  · rw [StartTag.text, StartTag.text, StartTag.body, StartTag.body, htext]
    simp [StartTag.laid, hending, Ending.text, Gap.text, Attribute.text, Attribute.body, longer,
      Attribute.laid, hvalue, valueText, AttributeValue.text, hnone, quoteText]
  · simp [StartTag.laid, hending]

/-- A slash at the end of a name is read as part of the end of the tag. -/
theorem twin_of_name {tag : StartTag} (hfits : tag.Fits) {front : List Attribute}
    {last : Attribute} (hattributes : tag.attributes = front ++ [last]) (hvalue : last.value = none)
    (hslash : last.name.getLast? = some '/') (hending : tag.ending = .plain)
    {layouts : List AttributeLayout} {layout : AttributeLayout}
    (hlays : List.Forall₂ settings.Lays front layouts) (hlay : settings.Lays last layout) :
    (tag.laid (layouts ++ [layout]) .nothing).Twin := by
  obtain ⟨-, hlast, -⟩ := StartTag.fits_last hfits hattributes
  obtain ⟨stem, hstem⟩ := List.getLast?_eq_some_iff.mp hslash
  have hname : ∀ c ∈ last.name, Attribute.inName c = true := by
    rcases hlast.name with ⟨hsign, -⟩ | ⟨-, hname⟩
    · simp [hsign] at hslash
    · exact hname
  have htext : (tag.laid (layouts ++ [layout]) .nothing).attributes =
      front.zipWith Attribute.laid layouts ++ [last.laid layout] := by
    rw [StartTag.laid, hattributes, zipWith_concat hlays.length_eq]
  cases stem with
  | nil =>
      refine ⟨⟨tag.name, front.zipWith Attribute.laid layouts, layout.gap.text, .selfClosing⟩,
        ?_, ?_, ?_⟩
      · refine StartTag.fits_of_fitAll hfits.name (settings.gap_ne_nil_of_laid hlays) ?_ hlay.gap
        exact settings.fitAll_front hfits hattributes hlays hlay.gap hlay.parts
          (by rw [hstem]; rfl)
      · rw [StartTag.text, StartTag.text, StartTag.body, StartTag.body, htext]
        simp [StartTag.laid, hending, Ending.text, Gap.text, Attribute.text, Attribute.body,
          Attribute.laid, hvalue, valueText, hstem]
      · simp [StartTag.laid, hending]
  | cons c tail =>
      let shorter : Attribute := ⟨layout.gap.text, c :: tail, none⟩
      have hshorter : shorter.Fits := by
        refine ⟨hlay.gap, .inr ⟨by simp [shorter], fun d hmem => hname d ?_⟩, by simp [shorter]⟩
        rw [hstem]
        exact List.mem_append_left _ hmem
      refine ⟨⟨tag.name, front.zipWith Attribute.laid layouts ++ [shorter], [], .selfClosing⟩,
        ?_, ?_, ?_⟩
      · refine settings.fits_replaced hfits hattributes hlays hshorter hlay.parts ?_ (.inr
          ⟨⟨rfl, by simp [Ending.text]⟩, by simp [Ending.text, isBlank]⟩)
        rw [hstem]
        rfl
      · rw [StartTag.text, StartTag.text, StartTag.body, StartTag.body, htext]
        simp [StartTag.laid, hending, Ending.text, Gap.text, Attribute.text, Attribute.body,
          Attribute.laid, hvalue, valueText, hstem, shorter]
      · simp [StartTag.laid, hending]

/-- A start tag that fuses is read as another one than is laid out. -/
theorem exists_twin {tag : StartTag} (hfits : tag.Fits) (hfuses : settings.fuses tag = true)
    (indent : Nat) (cursor : Cursor) : (settings.layTag tag indent cursor).Twin := by
  have hlays := settings.lays_layoutStartTag tag indent cursor
  simp only [fuses, Bool.and_eq_true, beq_iff_eq] at hfuses
  obtain ⟨hnothing, hlast⟩ := hfuses
  have htagEnd : (settings.layoutStartTag tag indent cursor).2.1 = .nothing := by
    refine (?_ : settings.tagEndGap tag indent = .nothing)
    rwa [tagEndGap_eq_nothing_iff, ← tagEndGap_eq_nothing_iff settings tag 0]
  unfold layTag
  rw [htagEnd]
  generalize (settings.layoutStartTag tag indent cursor).1 = layouts at hlays
  cases hattributes : tag.attributes.getLast? with
  | none => simp [hattributes] at hlast
  | some last =>
      obtain ⟨front, hfront⟩ := List.getLast?_eq_some_iff.mp hattributes
      rw [hfront] at hlays
      obtain ⟨others, layout, rfl, hothers, hlay⟩ := forall₂_concat hlays
      simp only [hattributes, Option.any_some] at hlast
      split at hlast
      next value hvalue hending =>
        exact settings.twin_of_value hfits hfront hvalue (by simpa using hlast) hending hothers hlay
      next hvalue hending =>
        exact settings.twin_of_name hfits hfront hvalue (by simpa using hlast) hending hothers hlay
      next => simp at hlast

end Settings

end Markup
