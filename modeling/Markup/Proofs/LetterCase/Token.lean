import Mathlib.Data.List.Infix
import Mathlib.Tactic.Simps.Basic
import Markup.Proofs.LetterCase.Text
import Markup.Proofs.Token

/-!
# Tokens in lower case

Nothing that the tokens of a text depend on is a letter in a certain case, with one exception: the
mark that begins a CDATA section has to be in upper case. A text in lower case that has no such mark
in it is cut into the tokens of the text itself, put in lower case. Main statement:
`Token.ofText_lower`.
-/

namespace Markup

open Markup.Text

/-! ## Tags -/

@[simps]
def AttributeValue.lower (value : AttributeValue) : AttributeValue :=
  { value with before := Text.lower value.before, raw := Text.lower value.raw }

@[simps]
def Attribute.lower (attr : Attribute) : Attribute :=
  ⟨Text.lower attr.gap, Text.lower attr.name, attr.value.map AttributeValue.lower⟩

@[simps]
def StartTag.lower (tag : StartTag) : StartTag :=
  ⟨Text.lower tag.name, tag.attributes.map Attribute.lower, Text.lower tag.trailing, tag.ending⟩

@[simps]
def EndTag.lower (tag : EndTag) : EndTag :=
  ⟨Text.lower tag.name, Text.lower tag.raw⟩

@[simp]
theorem Tag.isVoid_lower (name : List Char) : isVoid (lower name) = isVoid name :=
  listed_lower _ name

@[simp]
theorem Tag.isRawText_lower (name : List Char) : isRawText (lower name) = isRawText name :=
  listed_lower _ name

@[simp]
theorem Tag.impliesEnd_lower (current next : List Char) :
    impliesEnd (lower current) (lower next) = impliesEnd current next := by
  simp only [impliesEnd, sameName_lower_right, listed_lower]

theorem lower_quoteText (quote : Option Quote) : lower (quoteText quote) = quoteText quote := by
  cases quote with
  | none => rfl
  | some quote => cases quote <;> rfl

theorem Quote.isAlpha_char (quote : Quote) : quote.char.isAlpha = false := by
  cases quote <;> rfl

namespace Attribute

theorem text_lower (attr : Attribute) : attr.lower.text = Text.lower attr.text := by
  obtain ⟨gap, name, value⟩ := attr
  cases value with
  | none => simp [lower, text, body, valueText]
  | some value => simp [lower, text, body, valueText, AttributeValue.text, AttributeValue.lower,
      lower_quoteText]

theorem caseless_inTagName : Caseless inTagName :=
  .of_letters (by decide)

theorem caseless_inBareValue : Caseless inBareValue :=
  .of_letters (by decide)

theorem splitName_lower (text : List Char) :
    splitName (Text.lower text) = Prod.map Text.lower Text.lower (splitName text) := by
  induction text with
  | nil => rfl
  | cons c rest ih =>
      have hhead : ((Text.lower rest).head? == some '>') = (rest.head? == some '>') := by
        cases rest with
        | nil => rfl
        | cons d more => exact caseless_beq rfl d
      have hmark : ∀ mark : Char, mark.isAlpha = false → (c.toLower == mark) = (c == mark) :=
        fun mark hplain => caseless_beq hplain c
      rw [lower_cons, splitName, splitName, caseless_isBlank c, hmark '=' rfl, hmark '>' rfl,
        hmark '/' rfl, hhead, ih]
      split <;> rfl

theorem readValue?_lower (text : List Char) :
    readValue? (Text.lower text) =
      (readValue? text).map (Prod.map (Option.map AttributeValue.lower) Text.lower) := by
  unfold readValue?
  rw [dropWhile_lower caseless_isBlank, takeWhile_lower caseless_isBlank]
  cases text.dropWhile isBlank with
  | nil => rfl
  | cons c afterSign =>
      by_cases hsign : c = '='
      · subst hsign
        have hlower : Text.lower ('=' :: afterSign) = '=' :: Text.lower afterSign := rfl
        simp only [hlower, dropWhile_lower caseless_isBlank, takeWhile_lower caseless_isBlank]
        cases afterSign.dropWhile isBlank with
        | nil => rfl
        | cons d rest =>
            have hquote : Quote.ofChar? d.toLower = Quote.ofChar? d :=
              Caseless.of_letters (f := Quote.ofChar?) (by decide) d
            simp only [lower_cons, hquote]
            cases Quote.ofChar? d with
            | none =>
                simp only [← lower_cons, takeWhile_lower caseless_inBareValue,
                  dropWhile_lower caseless_inBareValue]
                simp [AttributeValue.lower]
            | some quote =>
                have hplain : [quote.char].any Char.isAlpha = false := by cases quote <;> rfl
                simp only [splitAround_lower hplain]
                cases splitAround [quote.char] rest <;> simp [AttributeValue.lower]
      · have hlower : ¬ c.toLower = '=' := fun hsame => hsign ((toLower_eq_iff rfl).mp hsame)
        simp only [lower_cons]
        split
        next hfound => exact absurd (List.cons.inj hfound).1 hlower
        next =>
          split
          next hfound => exact absurd (List.cons.inj hfound).1 hsign
          next => rfl

theorem read?_lower (gap : List Char) (c : Char) (rest : List Char) :
    read? (Text.lower gap) c.toLower (Text.lower rest) =
      (read? gap c rest).map (Prod.map lower Text.lower) := by
  unfold read?
  by_cases hsign : c = '='
  · subst hsign
    rfl
  · rw [if_neg hsign, if_neg fun hsame => hsign ((toLower_eq_iff rfl).mp hsame), splitName_lower]
    simp only [Prod.map_fst, Prod.map_snd, readValue?_lower]
    cases readValue? (splitName rest).2 <;> rfl

end Attribute

namespace StartTag

theorem text_lower (tag : StartTag) : tag.lower.text = Text.lower tag.text := by
  have hending : Text.lower tag.ending.text = tag.ending.text := by cases tag.ending <;> rfl
  have hattributes : (tag.attributes.map Attribute.lower).flatMap Attribute.text =
      Text.lower (tag.attributes.flatMap Attribute.text) := by
    induction tag.attributes with
    | nil => rfl
    | cons attr rest ih =>
        rw [List.map_cons, List.flatMap_cons, List.flatMap_cons, ih, lower_append,
          Attribute.text_lower]
  simp only [text, body, lower, lower_cons, lower_append, hattributes, hending]
  rfl

theorem readAttributes?_lower (text : List Char) :
    readAttributes? (Text.lower text) = (readAttributes? text).map
      (Prod.map (List.map Attribute.lower) (Prod.map Text.lower (Prod.map id Text.lower))) := by
  have hwhole : ∀ text : List Char, Text.lower text =
      Text.lower (text.takeWhile isBlank) ++ Text.lower (text.dropWhile isBlank) := fun text => by
    rw [← lower_append, List.takeWhile_append_dropWhile]
  have hgap : ∀ text : List Char, allBlank (Text.lower (text.takeWhile isBlank)) = true :=
    fun text => by rw [allBlank_lower, allBlank_takeWhile]
  have hbegins : ∀ {text : List Char} {c : Char} {rest : List Char}, text.dropWhile isBlank =
      c :: rest → (c = '>' → False) → (∀ after, c = '/' → rest = '>' :: after → False) →
        Attribute.Begins c.toLower (Text.lower rest) := by
    intro text c rest htext hclose hslash
    refine ⟨?_, fun hsame => hclose ((toLower_eq_iff rfl).mp hsame), fun hsame hhead => ?_⟩
    · have hstop := stopsAt_dropWhile isBlank text
      rw [htext, stopsAt_cons] at hstop
      rwa [caseless_isBlank]
    · cases rest with
      | nil => cases hhead
      | cons d more =>
          have hd : d = '>' := (toLower_eq_iff rfl).mp (Option.some.inj hhead)
          exact hslash more ((toLower_eq_iff rfl).mp hsame) (by rw [hd])
  fun_induction readAttributes? text with
  | @case1 text htext =>
      rw [readAttributes?]
      split
      next => rfl
      all_goals
        next hfound =>
          rw [dropWhile_lower caseless_isBlank, htext] at hfound
          cases hfound
  | @case2 text _ after htext =>
      rw [hwhole text, htext]
      exact readAttributes?_of_ending (hgap text) .plain (Text.lower after)
  | @case3 text _ after htext =>
      rw [hwhole text, htext]
      exact readAttributes?_of_ending (hgap text) .selfClosing (Text.lower after)
  | @case4 text _ c rest hclose hslash htext hread =>
      rw [hwhole text, htext, lower_cons, readAttributes?_of_begins (hgap text)
        (hbegins htext hclose hslash), Attribute.read?_lower, hread]
      rfl
  | @case5 text _ c rest hclose hslash htext attr after hread ih =>
      rw [hwhole text, htext, lower_cons, readAttributes?_of_begins (hgap text)
        (hbegins htext hclose hslash), Attribute.read?_lower, hread]
      simp only [Option.map_some, Option.bind_some, Prod.map, ih]
      cases readAttributes? after <;> rfl

theorem read?_lower (text : List Char) :
    read? (Text.lower text) = (read? text).map (Prod.map lower Text.lower) := by
  rw [read?, read?, dropWhile_lower Attribute.caseless_inTagName, readAttributes?_lower,
    takeWhile_lower Attribute.caseless_inTagName]
  cases readAttributes? (text.dropWhile Attribute.inTagName) <;> rfl

end StartTag

/-! ## Tokens -/

namespace Token

def lower : Token → Token
  | text raw => text (Text.lower raw)
  | comment raw => comment (Text.lower raw)
  | cdata raw => cdata (Text.lower raw)
  | declaration raw => declaration (Text.lower raw)
  | startTag tag => startTag tag.lower
  | endTag tag => endTag tag.lower
  | rawElement tag content close =>
      rawElement tag.lower (Text.lower content) (close.map EndTag.lower)
  | unterminated construct raw => unterminated construct (Text.lower raw)

theorem closeText_lower (close : Option EndTag) :
    closeText (close.map EndTag.lower) = Text.lower (closeText close) := by
  cases close <;> rfl

theorem endsHere_lower (name text : List Char) :
    endsHere (Text.lower name) (Text.lower text) = endsHere name text := by
  rw [endsHere, endsHere, dropStart?_lower rfl]
  cases dropStart? ['<', '/'] text with
  | none => rfl
  | some after =>
      have hstop : ∀ c : Char, (isBlank c.toLower || c.toLower == '>' || c.toLower == '/') =
          (isBlank c || c == '>' || c == '/') :=
        Caseless.of_letters (f := fun c => isBlank c || c == '>' || c == '/') (by decide)
      simp only [Option.map_some, length_lower, take_lower, drop_lower, sameName_lower_left,
        sameName_lower_right]
      cases after.drop name.length with
      | nil => rfl
      | cons c rest => simp only [lower_cons, hstop]

theorem splitAtEnd_lower (name text : List Char) :
    splitAtEnd (Text.lower name) (Text.lower text) =
      (splitAtEnd name text).map (Prod.map Text.lower Text.lower) := by
  induction text with
  | nil => rfl
  | cons c rest ih =>
      rw [lower_cons, splitAtEnd, splitAtEnd, ← lower_cons, endsHere_lower, ih]
      split
      next => rfl
      next => cases splitAtEnd name rest <;> rfl

theorem readEndTag?_lower (text : List Char) :
    readEndTag? (Text.lower text) =
      (readEndTag? text).map (Prod.map EndTag.lower Text.lower) := by
  rw [readEndTag?, readEndTag?, splitAround_lower rfl]
  cases splitAround ['>'] text with
  | none => rfl
  | some found =>
      obtain ⟨raw, after⟩ := found
      have hname : ((Text.lower raw ++ ['>']).drop 2).takeWhile Attribute.inTagName =
          Text.lower (((raw ++ ['>']).drop 2).takeWhile Attribute.inTagName) := by
        rw [← takeWhile_lower Attribute.caseless_inTagName, Text.lower, Text.lower, List.map_drop,
          List.map_append]
        rfl
      simp [endTagOf, EndTag.lower, hname]

theorem readRawText_lower (name text : List Char) :
    readRawText (Text.lower name) (Text.lower text) =
      Prod.map Text.lower (Prod.map (Option.map EndTag.lower) Text.lower)
        (readRawText name text) := by
  rw [readRawText, readRawText, splitAtEnd_lower]
  cases splitAtEnd name text with
  | none => rfl
  | some found =>
      simp only [Option.map_some, Prod.map, readEndTag?_lower]
      cases readEndTag? found.2 <;> rfl

theorem readUntil_lower (construct : Construct) {token : List Char → Token}
    (htoken : ∀ raw, token (Text.lower raw) = (token raw).lower) (opening : List Char)
    {pattern : List Char} (hpattern : pattern.any Char.isAlpha = false) (text : List Char) :
    readUntil construct token (Text.lower opening) pattern (Text.lower text) =
      Prod.map lower Text.lower (readUntil construct token opening pattern text) := by
  have hplain : Text.lower pattern = pattern := lower_of_plain hpattern
  rw [readUntil, readUntil, splitAround_lower hpattern]
  cases splitAround pattern text with
  | none => simp [lower]
  | some found => simp [← htoken, hplain]

theorem readStartTag_lower (text : List Char) :
    readStartTag (Text.lower text) = Prod.map lower Text.lower (readStartTag text) := by
  rw [readStartTag, readStartTag, StartTag.read?_lower]
  cases StartTag.read? text with
  | none => rfl
  | some found =>
      obtain ⟨tag, after⟩ := found
      simp only [Option.map_some, Prod.map, StartTag.lower_name, StartTag.lower_ending,
        Tag.isVoid_lower, Tag.isRawText_lower]
      split
      next =>
        simp only [readRawText_lower]
        rfl
      next => rfl

/-! ## Sections -/

/-- Whether a text has the mark of a CDATA section in it, in any case. -/
def marksSection (text : List Char) : Bool :=
  text.tails.any fun rest => sameName (rest.take 9) "<![CDATA[".toList

theorem marksSection_iff {text : List Char} :
    marksSection text = true ↔
      ∃ found, found <:+: text ∧ sameName found "<![CDATA[".toList = true := by
  simp only [marksSection, List.any_eq_true, List.mem_tails]
  constructor
  · rintro ⟨rest, hsuffix, hsame⟩
    exact ⟨rest.take 9, (List.take_prefix 9 rest).isInfix.trans hsuffix.isInfix, hsame⟩
  · rintro ⟨found, ⟨before, after, rfl⟩, hsame⟩
    have hlength : found.length = 9 := by
      simpa using congrArg List.length (sameName_iff.mp hsame)
    refine ⟨found ++ after, ⟨before, by simp⟩, ?_⟩
    rwa [← hlength, List.take_left]

/-- A text without the mark of a section has none in what is left of it either. -/
theorem marksSection_of_isSuffix {text rest : List Char} (hsuffix : rest <:+ text)
    (hplain : marksSection text = false) : marksSection rest = false := by
  rw [← Bool.not_eq_true, marksSection_iff] at hplain ⊢
  rintro ⟨found, hinfix, hsame⟩
  exact hplain ⟨found, hinfix.trans hsuffix.isInfix, hsame⟩

/-- What follows an angle bracket begins a section in neither case. -/
theorem dropStart?_section_lower {rest : List Char} (hplain : marksSection ('<' :: rest) = false) :
    dropStart? ['!', '[', 'C', 'D', 'A', 'T', 'A', '['] rest = none ∧
      dropStart? ['!', '[', 'C', 'D', 'A', 'T', 'A', '['] (Text.lower rest) = none := by
  rw [← Bool.not_eq_true, marksSection_iff] at hplain
  constructor
  · by_contra hsome
    obtain ⟨body, hbody⟩ := Option.ne_none_iff_exists'.mp hsome
    rw [dropStart?_eq_some_iff.mp hbody] at hplain
    exact hplain ⟨"<![CDATA[".toList, ⟨[], body, rfl⟩, rfl⟩
  · by_contra hsome
    obtain ⟨body, hbody⟩ := Option.ne_none_iff_exists'.mp hsome
    have hfound := congrArg (fun text => Text.lower (text.take 8)) (dropStart?_eq_some_iff.mp hbody)
    rw [take_lower, lower_lower] at hfound
    exact hplain ⟨'<' :: rest.take 8, ⟨[], rest.drop 8, by simp⟩,
      sameName_iff.mpr (congrArg ('<' :: ·) hfound)⟩

/-! ## Cutting a text -/

theorem opens_lower (text : List Char) : opens (Text.lower text) = opens text := by
  cases text with
  | nil => rfl
  | cons c rest =>
      have hhead : (Text.lower rest).head?.any Char.isAlpha = rest.head?.any Char.isAlpha := by
        cases rest with
        | nil => rfl
        | cons d more => exact caseless_isAlpha d
      rw [lower_cons, opens, opens, hhead, caseless_isAlpha c,
        show (c.toLower == '!') = (c == '!') from caseless_beq rfl c,
        show (c.toLower == '?') = (c == '?') from caseless_beq rfl c,
        show (c.toLower == '/') = (c == '/') from caseless_beq rfl c]

theorem Declares.lower {rest : List Char} (hdeclares : Declares rest)
    (hplain : marksSection ('<' :: rest) = false) : Declares (Text.lower rest) := by
  obtain ⟨hmark, hcomment, -⟩ := hdeclares
  refine ⟨?_, ?_, (dropStart?_section_lower hplain).2⟩
  · rcases hmark with hmark | hmark <;> obtain ⟨tail, rfl⟩ := List.head?_eq_some_iff.mp hmark
    · exact .inl rfl
    · exact .inr rfl
  · rw [dropStart?_lower rfl, hcomment]
    rfl

theorem readMarkup_lower {rest : List Char} (hplain : marksSection ('<' :: rest) = false) :
    readMarkup (Text.lower rest) = Prod.map lower Text.lower (readMarkup rest) := by
  rcases opens_cases rest with hopens | ⟨body, rfl⟩ | ⟨body, rfl⟩ | hdeclares |
    ⟨c, body, halpha, rfl⟩ | ⟨c, body, halpha, rfl⟩
  · rw [readMarkup_of_not_opens hopens, readMarkup_of_not_opens ((opens_lower rest).trans hopens)]
    rfl
  · exact readUntil_lower .comment (fun _ => rfl) ['<', '!', '-', '-'] rfl body
  · -- the one mark that is told by its case, which a text without the mark does not have
    cases (dropStart?_section_lower hplain).1
  · rw [readMarkup_declaration hdeclares, readMarkup_declaration (hdeclares.lower hplain)]
    exact readUntil_lower .declaration (fun _ => rfl) ['<'] rfl rest
  · have hread := readEndTag?_lower ('<' :: '/' :: c :: body)
    have hlower : Text.lower ('/' :: c :: body) = '/' :: c.toLower :: Text.lower body := rfl
    have hbracket : '<' :: '/' :: c.toLower :: Text.lower body =
      Text.lower ('<' :: '/' :: c :: body) := rfl
    rw [readMarkup_endTag halpha, hlower, readMarkup_endTag ((caseless_isAlpha c).trans halpha),
      hbracket, hread]
    cases readEndTag? ('<' :: '/' :: c :: body) <;> rfl
  · rw [readMarkup_startTag halpha, lower_cons,
      readMarkup_startTag ((caseless_isAlpha c).trans halpha), ← lower_cons, readStartTag_lower]

theorem read_lower {c : Char} {rest : List Char} (hplain : marksSection (c :: rest) = false) :
    read c.toLower (Text.lower rest) = Prod.map lower Text.lower (read c rest) := by
  rw [read, read]
  by_cases hbracket : c = '<'
  · subst hbracket
    exact readMarkup_lower hplain
  · rw [if_neg hbracket, if_neg fun hsame => hbracket ((toLower_eq_iff rfl).mp hsame),
      takeWhile_lower (caseless_bne rfl), dropWhile_lower (caseless_bne rfl)]
    rfl

/-- A text in lower case is cut into the same tokens, unless the case of a section is in
question. -/
theorem ofText_lower {text : List Char} (hplain : marksSection text = false) :
    ofText (Text.lower text) = (ofText text).map lower := by
  fun_induction ofText text with
  | case1 => simp [ofText]
  | case2 c rest ih =>
      -- what is left behind a token is a suffix, so that it has no mark of a section either
      have hsuffix : (read c rest).2 <:+ c :: rest := ⟨_, read_append c rest⟩
      rw [lower_cons, ofText, read_lower hplain, Prod.map_fst, Prod.map_snd,
        ih (marksSection_of_isSuffix hsuffix hplain), List.map_cons]

end Token

end Markup
