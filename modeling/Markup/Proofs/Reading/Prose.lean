import Markup.Proofs.Tag.Spacing
import Markup.Proofs.Token
import Markup.Proofs.Tree.Listing

/-!
# Running text and what joins it

A node of text may be made of several tokens: running text, angle brackets that begin no markup, end
tags that no open element matches, and at the end of the source a construct that never ends. A text
that consists of such tokens is prose. Other spacing of prose is prose again. Main statements:
`Prose.of_squeeze`, `exists_prose`, by which every text begins with prose, and `addAll_prose`, by
which prose is held back wherever it stands.
-/

namespace Markup

open Markup.Text

namespace Token

/-- A text made of tokens that become text, given the names that end no open element, and whether
the source may end with the text. -/
inductive Prose (stray : List Char → Prop) (last : Prop) : List Char → Prop
  | nil : Prose stray last []
  | char {c : Char} {rest : List Char} : c ≠ '<' → Prose stray last rest →
      Prose stray last (c :: rest)
  | bracket {rest : List Char} : opens rest = false → Prose stray last rest →
      Prose stray last ('<' :: rest)
  | endTag {body rest : List Char} : '>' ∉ body → Named (body.takeWhile Attribute.inTagName) →
      stray (body.takeWhile Attribute.inTagName) → Prose stray last rest →
      Prose stray last ('<' :: '/' :: (body ++ '>' :: rest))
  | hanging (construct : Construct) {rest : List Char} : last →
      readMarkup rest = (unterminated construct ('<' :: rest), []) →
      Prose stray last ('<' :: rest)

variable {stray : List Char → Prop} {last : Prop}

theorem ne_bracket_of_isBlank {c : Char} (hblank : isBlank c = true) : c ≠ '<' := by
  rintro rfl
  simp [isBlank] at hblank

theorem Prose.chars_append {run rest : List Char} (hprose : Prose stray last rest)
    (hrun : ∀ c ∈ run, c ≠ '<') : Prose stray last (run ++ rest) := by
  induction run with
  | nil => exact hprose
  | cons c others ih =>
      exact .char (hrun c List.mem_cons_self)
        (ih fun d hmem => hrun d (List.mem_cons_of_mem _ hmem))

theorem Prose.blank_append {blanks rest : List Char} (hblank : allBlank blanks = true)
    (hprose : Prose stray last rest) : Prose stray last (blanks ++ rest) :=
  hprose.chars_append fun _ hmem => ne_bracket_of_isBlank (isBlank_of_mem hblank hmem)

theorem prose_of_allBlank {blanks : List Char} (hblank : allBlank blanks = true) :
    Prose stray last blanks := by
  have hprose : Prose stray last (blanks ++ []) := Prose.nil.blank_append hblank
  rwa [List.append_nil] at hprose

/-! ## Other spacing -/

theorem opens_eq_of_squeeze {text other : List Char} (hsame : squeeze text = squeeze other) :
    opens text = opens other := by
  have hforth : ∀ {text other : List Char}, squeeze text = squeeze other →
      opens text = true → opens other = true := by
    intro text other hsame hopens
    cases text with
    | nil => simp [opens] at hopens
    | cons c rest =>
        have hsolid : isBlank c = false := by
          cases hblank : isBlank c with
          | false => rfl
          | true =>
              rcases isBlank_iff.mp hblank with rfl | rfl | rfl | rfl | rfl <;>
                simp [opens] at hopens
        obtain ⟨tail, rfl, htail⟩ := exists_of_squeeze_eq hsolid hsame
        simp only [opens, Bool.or_eq_true, beq_iff_eq, Bool.and_eq_true,
          Option.any_eq_true] at hopens ⊢
        refine hopens.imp_right ?_
        rintro ⟨hslash, d, hd, halpha⟩
        exact ⟨hslash, d, head?_eq_of_squeeze (isBlank_eq_false_of_isAlpha halpha) htail hd, halpha⟩
  rw [Bool.eq_iff_iff]
  exact ⟨hforth hsame, hforth hsame.symm⟩

theorem dropStart?_eq_none_of_squeeze {pattern text other : List Char}
    (hpattern : ∀ c ∈ pattern, isBlank c = false) (hsame : squeeze text = squeeze other)
    (hnone : dropStart? pattern text = none) : dropStart? pattern other = none := by
  rw [Option.eq_none_iff_forall_ne_some] at hnone ⊢
  intro after hafter
  rw [dropStart?_eq_some_iff.mp hafter, squeeze_solid_append hpattern] at hsame
  obtain ⟨tail, htail, -⟩ := exists_of_squeeze_eq_append hpattern hsame
  exact hnone tail (dropStart?_eq_some_iff.mpr htail)

theorem Declares.of_squeeze {text other : List Char} (hdeclares : Declares text)
    (hsame : squeeze text = squeeze other) : Declares other where
  mark := hdeclares.mark.imp (head?_eq_of_squeeze rfl hsame) (head?_eq_of_squeeze rfl hsame)
  comment := dropStart?_eq_none_of_squeeze (by simp [isBlank]) hsame hdeclares.comment
  cdata := dropStart?_eq_none_of_squeeze (by simp [isBlank]) hsame hdeclares.cdata

theorem readUntil_hanging_iff {construct : Construct} {token : List Char → Token}
    (htoken : ∀ raw, (token raw).isMarkup = true) {opening pattern text : List Char} :
    (∃ found raw, readUntil construct token opening pattern text = (unterminated found raw, [])) ↔
      splitAround pattern text = none := by
  unfold readUntil
  split
  next body after hsplit =>
    simp only [hsplit, Prod.mk.injEq, reduceCtorEq, iff_false, not_exists, not_and]
    intro found raw heq
    have hmarkup := htoken (opening ++ (body ++ pattern))
    simp [heq, isMarkup] at hmarkup
  next hsplit => simp [hsplit]

/-- A construct that never ends does not do so however it is spaced. -/
theorem hanging_of_squeeze {construct : Construct} {text other : List Char}
    (hsame : squeeze text = squeeze other)
    (hhanging : readMarkup text = (unterminated construct ('<' :: text), [])) :
    ∃ found, readMarkup other = (unterminated found ('<' :: other), []) := by
  -- it is enough that the other text hangs, since it is kept whole if it does
  suffices hfound : ∃ found raw, readMarkup other = (unterminated found raw, []) by
    obtain ⟨found, raw, hread⟩ := hfound
    have hwhole := readMarkup_append other
    rw [hread] at hwhole
    obtain rfl : raw = '<' :: other := by simpa [source] using hwhole
    exact ⟨found, hread⟩
  have hnone : ∃ found raw, readMarkup text = (unterminated found raw, []) := ⟨_, _, hhanging⟩
  rcases opens_cases text with hopens | ⟨body, rfl⟩ | ⟨body, rfl⟩ | hdeclares |
    ⟨c, body, halpha, rfl⟩ | ⟨c, body, halpha, rfl⟩
  · simp [readMarkup_of_not_opens hopens] at hhanging
  · have hopening : ∀ c ∈ ['!', '-', '-'], isBlank c = false := by simp [isBlank]
    obtain ⟨tail, rfl, htail⟩ := exists_of_squeeze_eq_append hopening
      (hsame.symm.trans (squeeze_solid_append hopening body))
    simp only [List.cons_append, List.nil_append, readMarkup_comment] at hnone ⊢
    rw [readUntil_hanging_iff fun _ => rfl] at hnone ⊢
    exact splitAround_eq_none_of_squeeze (by simp) (by simp [isBlank]) htail.symm hnone
  · have hopening : ∀ c ∈ ['!', '[', 'C', 'D', 'A', 'T', 'A', '['], isBlank c = false := by
      simp [isBlank]
    obtain ⟨tail, rfl, htail⟩ := exists_of_squeeze_eq_append hopening
      (hsame.symm.trans (squeeze_solid_append hopening body))
    rw [readMarkup_cdata, readUntil_hanging_iff fun _ => rfl] at hnone ⊢
    exact splitAround_eq_none_of_squeeze (by simp) (by simp [isBlank]) hsame hnone
  · rw [readMarkup_declaration hdeclares, readUntil_hanging_iff fun _ => rfl] at hnone
    rw [readMarkup_declaration (hdeclares.of_squeeze hsame), readUntil_hanging_iff fun _ => rfl]
    exact splitAround_eq_none_of_squeeze (by simp) (by simp [isBlank]) hsame hnone
  · have hc := isBlank_eq_false_of_isAlpha halpha
    obtain ⟨slash, rfl, hslash⟩ := exists_of_squeeze_eq (by decide) hsame
    obtain ⟨tail, rfl, htail⟩ := exists_of_squeeze_eq hc hslash
    rw [readMarkup_endTag halpha] at hhanging ⊢
    cases hread : readEndTag? ('<' :: '/' :: c :: tail) with
    | none => exact ⟨_, _, rfl⟩
    | some found =>
        obtain ⟨tag, after⟩ := found
        obtain ⟨body', hbody, rfl, htext⟩ := readEndTag?_eq_some_iff.mp hread
        have hsplit : splitAround ['>'] (c :: tail) = some (body', after) :=
          splitAround_singleton_iff.mpr ⟨hbody, htext⟩
        obtain ⟨start, last, hstart, -⟩ :=
          exists_splitAround_of_squeeze (by decide) hslash.symm hsplit
        obtain ⟨hnot, hlast⟩ := splitAround_singleton_iff.mp hstart
        rw [readEndTag?_eq_some_iff.mpr ⟨start, hnot, rfl, hlast⟩] at hhanging
        simp at hhanging
  · have hc := isBlank_eq_false_of_isAlpha halpha
    obtain ⟨tail, rfl, htail⟩ := exists_of_squeeze_eq hc hsame
    rw [readMarkup_startTag halpha] at hhanging ⊢
    have hread : StartTag.read? (c :: body) = none := by
      unfold readStartTag at hhanging
      split at hhanging
      next hread => exact hread
      next => split at hhanging <;> simp at hhanging
    rw [readStartTag, StartTag.read?_eq_none_of_squeeze hsame hread]
    exact ⟨_, _, rfl⟩

/-- Prose is prose however it is spaced. -/
theorem Prose.of_squeeze {text other : List Char} (hprose : Prose stray last text)
    (hsame : squeeze text = squeeze other) : Prose stray last other := by
  induction hprose generalizing other with
  | nil => exact prose_of_allBlank ((squeeze_eq_nil_iff other).mp hsame.symm)
  | @char c rest hc hrest ih =>
      cases hblank : isBlank c with
      | false =>
          obtain ⟨tail, rfl, htail⟩ := exists_of_squeeze_eq hblank hsame
          exact .char hc (ih htail)
      | true =>
          rw [squeeze_cons_of_blank hblank] at hsame
          -- whether there is a space in front makes no difference to what follows it
          by_cases hspaced : spaced (squeeze rest) = squeeze rest
          · exact ih (hspaced ▸ hsame)
          · rw [← List.takeWhile_append_dropWhile (p := isBlank) (l := other)]
            refine Prose.blank_append (allBlank_takeWhile other) (ih ?_)
            rw [squeeze_dropWhile_isBlank, ← hsame]
            cases hrest : squeeze rest with
            | nil => simp [hrest, spaced] at hspaced
            | cons d others =>
                by_cases hspace : d = ' '
                · simp [hrest, spaced, hspace] at hspaced
                · simp [spaced, hspace]
  | @bracket rest hopens hrest ih =>
      obtain ⟨tail, rfl, htail⟩ := exists_of_squeeze_eq (by decide) hsame
      exact .bracket (opens_eq_of_squeeze htail ▸ hopens) (ih htail)
  | @endTag body rest hbody hnamed hstray hrest ih =>
      obtain ⟨slash, rfl, hslash⟩ := exists_of_squeeze_eq (by decide) hsame
      obtain ⟨tail, rfl, htail⟩ := exists_of_squeeze_eq (by decide) hslash
      have hsplit : splitAround ['>'] (body ++ '>' :: rest) = some (body, rest) :=
        splitAround_singleton_iff.mpr ⟨hbody, rfl⟩
      obtain ⟨start, after, hstart, hafter⟩ :=
        exists_splitAround_of_squeeze (by decide) htail hsplit
      obtain ⟨hnot, rfl⟩ := splitAround_singleton_iff.mp hstart
      have hname : start.takeWhile Attribute.inTagName = body.takeWhile Attribute.inTagName := by
        have hrun := takeWhile_congr Attribute.inTagName_of_isBlank htail
        rw [takeWhile_append_cons rfl, takeWhile_append_cons rfl] at hrun
        exact hrun.symm
      exact .endTag hnot (hname ▸ hnamed) (hname ▸ hstray) (ih hafter)
  | @hanging construct rest hlast hread =>
      obtain ⟨tail, rfl, htail⟩ := exists_of_squeeze_eq (by decide) hsame
      obtain ⟨found, hfound⟩ := hanging_of_squeeze htail hread
      exact .hanging found hlast hfound

end Token

/-! ## Holding prose back -/

namespace Builder

open Token

/-- The names of end tags that would be text now. -/
def Stray (builder : Builder) (name : List Char) : Prop :=
  builder.nesting.inside? name = none

theorem name_endTagOf (body : List Char) :
    (endTagOf ('<' :: '/' :: (body ++ ['>']))).name = body.takeWhile Attribute.inTagName :=
  takeWhile_append_cons rfl body []

theorem add_of_stray {builder : Builder} {tag : EndTag} (hstray : builder.Stray tag.name) :
    builder.add (.endTag tag) = .ok (builder.hold tag.raw) := by
  rw [add, endElement, hstray]

theorem addAll_cons {builder : Builder} (added : Builder) {token : Token} {rest : List Token}
    (hadd : builder.add token = .ok added) :
    builder.addAll (token :: rest) = added.addAll rest := by
  unfold addAll
  rw [List.foldlM_cons, hadd]
  rfl

theorem addAll_char (builder : Builder) {c : Char} (hc : c ≠ '<') (rest : List Char) :
    builder.addAll (ofText (c :: rest)) = (builder.hold [c]).addAll (ofText rest) := by
  have hread : ∀ {d : Char} (others : List Char), d ≠ '<' → ofText (d :: others) =
      .text (d :: others.takeWhile (· != '<')) :: ofText (others.dropWhile (· != '<')) := by
    intro d others hd
    rw [ofText_cons, Token.read, if_neg hd]
  rw [hread rest hc, addAll_cons (builder.hold (c :: rest.takeWhile (· != '<'))) rfl]
  cases rest with
  | nil => rfl
  | cons d others =>
      by_cases hd : d = '<'
      · subst hd
        rfl
      · rw [hread others hd, addAll_cons ((builder.hold [c]).hold
          (d :: others.takeWhile (· != '<'))) rfl]
        simp [hold, hd]

/-- Whether a character can go on with prose. -/
def inProse (c : Char) : Bool :=
  !isBlank c && c != '<'

theorem opens_append_eq_false {text next : List Char} (hopens : opens text = false)
    (hnext : StopsAt inProse next) : opens (text ++ next) = false := by
  have hhead : next.head?.any Char.isAlpha = false ∧ opens next = false := by
    cases next with
    | nil => exact ⟨rfl, rfl⟩
    | cons c rest =>
        have hc : c = ' ' ∨ c = '\t' ∨ c = '\n' ∨ c = '\r' ∨ c = '\x0c' ∨ c = '<' := by
          have hstop : isBlank c = true ∨ c = '<' := by
            simpa [inProse, or_iff_not_imp_left] using stopsAt_cons.mp hnext
          rw [isBlank_iff] at hstop
          simpa [or_assoc] using hstop
        rcases hc with rfl | rfl | rfl | rfl | rfl | rfl <;> exact ⟨rfl, rfl⟩
  cases text with
  | nil => exact hhead.2
  | cons c rest =>
      cases rest with
      | nil =>
          simp only [opens, List.head?_nil, Option.any_none, Bool.and_false,
            Bool.or_false] at hopens
          simp [opens, hopens, hhead.1]
      | cons d others => simpa [opens] using hopens

/-- Prose is held back as a whole in front of markup or a blank, and at the end of the source. -/
theorem addAll_prose {builder : Builder} {last : Prop} {prose next : List Char}
    (hprose : Prose builder.Stray last prose) (hnext : StopsAt inProse next)
    (hlast : last → next = []) :
    ∃ reports, builder.addAll (ofText (prose ++ next)) =
      addAll ({ builder with reports := reports }.hold prose) (ofText next) := by
  generalize hstray : builder.Stray = stray at hprose
  induction hprose generalizing builder with
  | nil => exact ⟨builder.reports, by simp [hold]⟩
  | @char c rest hc hrest ih =>
      obtain ⟨reports, hreports⟩ := @ih (builder.hold [c]) hstray
      refine ⟨reports, ?_⟩
      rw [List.cons_append, addAll_char builder hc, hreports]
      simp [hold]
  | @bracket rest hopens hrest ih =>
      obtain ⟨reports, hreports⟩ := @ih (builder.hold ['<']) hstray
      refine ⟨reports, ?_⟩
      rw [List.cons_append, ofText_bracket,
        readMarkup_of_not_opens (opens_append_eq_false hopens hnext),
        addAll_cons (builder.hold ['<']) rfl, hreports]
      simp [hold]
  | @endTag body rest hbody hnamed hnone hrest ih =>
      subst hstray
      rw [← name_endTagOf] at hnamed hnone
      have hlegible := legible_endTag ⟨body, hbody, rfl⟩ hnamed (rest ++ next)
      obtain ⟨reports, hreports⟩ := @ih (builder.hold ('<' :: '/' :: (body ++ ['>']))) rfl
      refine ⟨reports, ?_⟩
      have htext : '<' :: '/' :: (body ++ '>' :: rest) ++ next =
          (Token.endTag (endTagOf ('<' :: '/' :: (body ++ ['>'])))).source ++ (rest ++ next) := by
        simp [source, endTagOf]
      rw [htext, hlegible, addAll_cons _ (add_of_stray hnone)]
      refine hreports.trans ?_
      simp [hold]
  | @hanging construct rest hends hread =>
      obtain rfl := hlast hends
      refine ⟨builder.reports ++ [⟨builder.offset, construct⟩], ?_⟩
      rw [List.append_nil, ofText_bracket, hread, addAll_cons _ rfl]

/-! ## The prose that a text begins with -/

/-- What a text goes on with behind prose: nothing, or markup that does not become text. -/
def GoesOn (builder : Builder) (rest : List Char) : Prop :=
  rest = [] ∨ ∃ token after, token.isMarkup = true ∧ token.Fits ∧
    (∀ tag, token = .endTag tag → ¬builder.Stray tag.name) ∧
      ofText rest = token :: ofText after ∧ rest = token.source ++ after

/-- Every text begins with prose, which is held back; what follows is markup. -/
theorem exists_prose (builder : Builder) (text : List Char) :
    ∃ prose rest reports, text = prose ++ rest ∧ Prose builder.Stray (rest = []) prose ∧
      builder.addAll (ofText text) =
        addAll ({ builder with reports := reports }.hold prose) (ofText rest) ∧
      builder.GoesOn rest := by
  fun_induction ofText text generalizing builder with
  | case1 => exact ⟨[], [], builder.reports, rfl, .nil, by simp [hold, ofText], .inl rfl⟩
  | case2 c rest ih =>
      by_cases hc : c = '<'
      · subst hc
        have hread := readAs_readMarkup rest
        have hwhole := readMarkup_append rest
        rw [show Token.read '<' rest = readMarkup rest from if_pos rfl] at ih ⊢
        generalize hfound : readMarkup rest = found at hread hwhole ih ⊢
        cases hread with
        | bracket hopens =>
            obtain ⟨prose, behind, reports, rfl, hprose, haddAll, hgoesOn⟩ :=
              ih (builder.hold ['<'])
            refine ⟨'<' :: prose, behind, reports, rfl, .bracket ?_ hprose, ?_, hgoesOn⟩
            · rw [← Bool.not_eq_true]
              intro hprose
              simp [opens_append hprose] at hopens
            · rw [addAll_cons (builder.hold ['<']) rfl, haddAll]
              simp [hold]
        | hanging construct =>
            refine ⟨'<' :: rest, [], builder.reports ++ [⟨builder.offset, construct⟩], by simp,
              .hanging construct rfl hfound, addAll_cons _ rfl, .inl rfl⟩
        | @markup token after hmarkup hfits =>
            by_cases hstray : ∃ tag, token = .endTag tag ∧ builder.Stray tag.name
            · obtain ⟨tag, rfl, hstray⟩ := hstray
              obtain ⟨prose, behind, reports, rfl, hprose, haddAll, hgoesOn⟩ :=
                ih (builder.hold tag.raw)
              obtain ⟨⟨body, hbody, rfl⟩, hnamed⟩ := hfits
              have hname := name_endTagOf body
              refine ⟨'<' :: '/' :: (body ++ '>' :: prose), behind, reports, ?_,
                .endTag hbody (hname ▸ hnamed) (hname ▸ hstray) hprose, ?_, hgoesOn⟩
              · rw [← hwhole]
                simp [source, endTagOf]
              · rw [addAll_cons _ (add_of_stray hstray), haddAll]
                simp [hold, endTagOf]
            · refine ⟨[], '<' :: rest, builder.reports, rfl, .nil,
                by simp [hold, ofText_bracket, hfound],
                .inr
                  ⟨token, after, hmarkup, hfits, ?_, by rw [ofText_bracket, hfound], hwhole.symm⟩⟩
              exact fun tag htag hnone => hstray ⟨tag, htag, hnone⟩
      · rw [show Token.read c rest = (.text (c :: rest.takeWhile (· != '<')),
          rest.dropWhile (· != '<')) from if_neg hc] at ih ⊢
        obtain ⟨prose, behind, reports, htext, hprose, haddAll, hgoesOn⟩ :=
          ih (builder.hold (c :: rest.takeWhile (· != '<')))
        refine ⟨c :: rest.takeWhile (· != '<') ++ prose, behind, reports, ?_, ?_, ?_, hgoesOn⟩
        · rw [List.append_assoc, List.cons_append, ← htext, List.takeWhile_append_dropWhile]
        · refine .char hc (hprose.chars_append fun d hmem => ?_)
          simpa using mem_takeWhile hmem
        · rw [addAll_cons (builder.hold (c :: rest.takeWhile (· != '<'))) rfl, haddAll]
          simp [hold]

end Builder

end Markup
