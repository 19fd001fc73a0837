import Markup.Proofs.Output.Content
import Markup.Proofs.Tree.Legibility

/-!
# Colours can be taken away

A terminal is told about colours by control sequences between the characters that it shows. They are
taken away without regard to what is between them, by one pass over the text. This gives back the
output without colours, provided that no control sequence comes from the source: formatting adds no
characters but blanks and quotes, and a control sequence begins with neither. Main statement:
`format_terminal_erases`.
-/

namespace Markup

open Markup.Text

/-! ## Control sequences -/

/-- The characters that parameters of a control sequence are written with. -/
def isParameter (c : Char) : Bool :=
  c.isDigit || c == ';'

/-- What is behind a control sequence that a text begins with, if it begins with one that sets
colours: an escape character, an opening bracket, parameters, and the letter m. -/
def behindCode? : List Char → Option (List Char)
  | '\x1b' :: '[' :: rest =>
      match rest.dropWhile isParameter with
      | 'm' :: after => some after
      | _ => none
  | _ => none

theorem behindCode?_eq_some_iff {text after : List Char} : behindCode? text = some after ↔
    ∃ parameters, (∀ c ∈ parameters, isParameter c = true) ∧
      text = '\x1b' :: '[' :: (parameters ++ 'm' :: after) := by
  constructor
  · intro hbehind
    unfold behindCode? at hbehind
    split at hbehind
    next rest =>
      split at hbehind
      next found hrest =>
        obtain rfl := Option.some.inj hbehind
        refine ⟨rest.takeWhile isParameter, fun c hmem => List.mem_takeWhile_imp hmem, ?_⟩
        rw [← hrest, List.takeWhile_append_dropWhile]
      next => cases hbehind
    next => cases hbehind
  · rintro ⟨parameters, hparameters, rfl⟩
    have hdrop : (parameters ++ 'm' :: after).dropWhile isParameter = 'm' :: after := by
      rw [List.dropWhile_append_of_pos hparameters]
      rfl
    simp only [behindCode?, hdrop]

theorem length_of_behindCode? {text after : List Char} (hbehind : behindCode? text = some after) :
    after.length < text.length := by
  obtain ⟨parameters, -, rfl⟩ := behindCode?_eq_some_iff.mp hbehind
  simp only [List.length_cons, List.length_append]
  omega

/-- The text without the control sequences in it that set colours. -/
def eraseCodes : List Char → List Char
  | [] => []
  | c :: rest =>
      match hbehind : behindCode? (c :: rest) with
      | some after =>
          have := length_of_behindCode? hbehind
          eraseCodes after
      | none => c :: eraseCodes rest
termination_by text => text.length
decreasing_by
  · assumption
  · exact Nat.lt_succ_self _

theorem eraseCodes_escapeCode {parameters : String}
    (hparameters : parameters.toList.all isParameter = true) (rest : List Char) :
    eraseCodes (escapeCode parameters ++ rest) = eraseCodes rest := by
  have hcode : escapeCode parameters ++ rest =
      '\x1b' :: ('[' :: (parameters.toList ++ 'm' :: rest)) := by
    simp [escapeCode]
  have hbehind : behindCode? ('\x1b' :: ('[' :: (parameters.toList ++ 'm' :: rest))) = some rest :=
    behindCode?_eq_some_iff.mpr ⟨parameters.toList, List.all_eq_true.mp hparameters, rfl⟩
  rw [hcode, eraseCodes]
  split
  next after hfound =>
    obtain rfl := Option.some.inj (hbehind.symm.trans hfound)
    rfl
  next hnone => cases hnone.symm.trans hbehind

theorem eraseCodes_cons {c : Char} (hplain : c ≠ '\x1b') (rest : List Char) :
    eraseCodes (c :: rest) = c :: eraseCodes rest := by
  rw [eraseCodes]
  split
  next after hfound =>
    obtain ⟨parameters, -, heq⟩ := behindCode?_eq_some_iff.mp hfound
    exact absurd (List.cons.inj heq).1 hplain
  next => rfl

/-! ## What shows a text -/

/-- Of the first text, the second is left when control sequences are erased, whatever stands behind
it. -/
def Shows (shown text : List Char) : Prop :=
  ∀ rest, eraseCodes (shown ++ rest) = text ++ eraseCodes rest

namespace Shows

variable {shown other text more : List Char}

theorem of_not_mem (hplain : '\x1b' ∉ text) : Shows text text := by
  intro rest
  induction text with
  | nil => rfl
  | cons c text ih =>
      rw [List.mem_cons, not_or] at hplain
      obtain ⟨hc, htext⟩ := hplain
      rw [List.cons_append, List.cons_append, eraseCodes_cons (Ne.symm hc), ih htext]

theorem append (hfirst : Shows shown text) (hsecond : Shows other more) :
    Shows (shown ++ other) (text ++ more) := by
  intro rest
  rw [List.append_assoc, hfirst, hsecond, List.append_assoc]

theorem between {opening closing : String} (hopening : opening.toList.all isParameter = true)
    (hclosing : closing.toList.all isParameter = true) (hshows : Shows shown text) :
    Shows (between opening closing shown) text := by
  intro rest
  rw [Markup.between, List.append_assoc, List.append_assoc, eraseCodes_escapeCode hopening, hshows,
    eraseCodes_escapeCode hclosing]

theorem coloured (red green blue : Nat) (hshows : Shows shown text) :
    Shows (coloured red green blue shown) text := by
  refine between (List.all_eq_true.mpr fun c hmem => ?_) (by decide) hshows
  have hdigit : ∀ {part : Nat}, c ∈ (toString part).toList → isParameter c = true := by
    intro part hpart
    have hdigits : c ∈ Nat.toDigits 10 part := by simpa using hpart
    simp [isParameter, Nat.isDigit_of_mem_toDigits (by decide) (by decide) hdigits]
  have hfixed : "38;2;".toList.all isParameter = true := by decide
  have hbetween : ";".toList.all isParameter = true := by decide
  simp only [String.toList_append, List.mem_append] at hmem
  rcases hmem with ((((hmem | hred) | hmem) | hgreen) | hmem) | hblue
  · exact List.all_eq_true.mp hfixed c hmem
  · exact hdigit hred
  · exact List.all_eq_true.mp hbetween c hmem
  · exact hdigit hgreen
  · exact List.all_eq_true.mp hbetween c hmem
  · exact hdigit hblue

theorem bold (hshows : Shows shown text) : Shows (bold shown) text :=
  between (by decide) (by decide) hshows

theorem italic (hshows : Shows shown text) : Shows (italic shown) text :=
  between (by decide) (by decide) hshows

theorem eraseCodes_eq (hshows : Shows shown text) : eraseCodes shown = text := by
  have hall := hshows []
  rwa [List.append_nil, eraseCodes, List.append_nil] at hall

end Shows

/-- In any role, a text is shown in colours only. -/
theorem Palette.shows_style (palette : Palette) (role : Role) {text : List Char}
    (hplain : '\x1b' ∉ text) : Shows (palette.style role text) text := by
  have htext := Shows.of_not_mem hplain
  cases palette with
  | plain => exact htext
  | terminal =>
      cases role with
      | neutral | indent | newline | text => exact htext
      | tag | quote | entity => exact (htext.coloured _ _ _).bold
      | comment => exact (htext.coloured _ _ _).italic
      | bracket | attributeName | attributeValue | doctype | verbatim => exact htext.coloured _ _ _

theorem Palette.shows_render (palette : Palette) {pieces : List OutputPiece}
    (hplain : '\x1b' ∉ joinPieces pieces) : Shows (palette.render pieces) (joinPieces pieces) := by
  induction pieces with
  | nil => exact fun rest => rfl
  | cons piece rest ih =>
      have hparts : '\x1b' ∉ piece.text ∧ '\x1b' ∉ joinPieces rest := by
        simpa [joinPieces] using hplain
      exact (palette.shows_style piece.role hparts.1).append (ih hparts.2)

/-! ## The characters of the output -/

/-- Every character is one of the source, or a quote. -/
def DrawnFrom (source text : List Char) : Prop :=
  ∀ c ∈ text, c ∈ source ∨ ∃ quote : Quote, c = quote.char

namespace DrawnFrom

variable {source other text more : List Char}

theorem of_subset (hsubset : text ⊆ source) : DrawnFrom source text :=
  fun _ hmem => .inl (hsubset hmem)

theorem refl (text : List Char) : DrawnFrom text text :=
  of_subset (List.Subset.refl text)

theorem append (hfirst : DrawnFrom source text) (hsecond : DrawnFrom other more) :
    DrawnFrom (source ++ other) (text ++ more) := by
  intro c hmem
  rw [List.mem_append, or_assoc]
  rcases List.mem_append.mp hmem with hin | hin
  · exact (hfirst c hin).imp_right .inr
  · exact .inr (hsecond c hin)

theorem quote (source : List Char) (quote : Option Quote) : DrawnFrom source (quoteText quote) := by
  intro c hmem
  cases quote with
  | none => cases hmem
  | some quote => exact .inr ⟨quote, List.mem_singleton.mp hmem⟩

theorem requoted (attr : Attribute) (quote : Option Quote) :
    DrawnFrom attr.text (attr.requoted quote).text := by
  obtain ⟨gap, name, value⟩ := attr
  refine (refl gap).append ((refl name).append ?_)
  cases value with
  | none => exact refl []
  | some value =>
      exact (((refl value.before).append (.quote _ _)).append (refl value.raw)).append (.quote _ _)

theorem requoteAll (attributes : List Attribute) (layouts : List AttributeLayout) :
    DrawnFrom (attributes.flatMap Attribute.text)
      ((Attribute.requoteAll attributes layouts).flatMap Attribute.text) := by
  induction attributes generalizing layouts with
  | nil => exact refl []
  | cons attr rest ih =>
      cases layouts with
      | nil => exact refl _
      | cons layout layouts => exact (requoted attr layout.quote).append (ih layouts)

theorem startTag (tag : StartTag) (layouts : List AttributeLayout) :
    DrawnFrom tag.text (tag.requoted layouts).text :=
  (refl ['<']).append ((refl tag.name).append ((requoteAll tag.attributes layouts).append (refl _)))

theorem endTag {tag : EndTag} (hfits : tag.Fits) : DrawnFrom tag.raw tag.rewritten := by
  obtain ⟨body, -, rfl⟩ := hfits
  have hname : (body ++ ['>']).takeWhile Attribute.inTagName ⊆ body ++ ['>'] :=
    (List.takeWhile_prefix _).subset
  have hname : (body ++ ['>']).takeWhile Attribute.inTagName ++ ['>'] ⊆ body ++ ['>'] :=
    List.append_subset.mpr ⟨hname, by simp⟩
  exact of_subset (List.cons_subset_cons _ (List.cons_subset_cons _ hname))

/-- The end of an element, of whose end tag only the name is kept. -/
theorem rewrittenEnd {elem : Element} (hclose : ∀ close ∈ elem.endTag, close.Legible) :
    DrawnFrom elem.endText (rewrittenEnd elem.endTag) := by
  unfold Element.endText
  cases hend : elem.endTag with
  | none => exact refl []
  | some close => exact endTag (hclose close hend).1

end DrawnFrom

namespace Plan

variable {plan : Plan} {settings : Settings}

mutual

theorem drawn_rewritten (node : Node) (hlegible : node.Legible)
    (hsuits : plan.Suits settings node) :
    DrawnFrom node.text (plan.rewritten node) := by
  cases node with
  | leaf leaf =>
      rw [rewritten, Node.text_leaf]
      exact .refl _
  | element elem children =>
      obtain ⟨hown, hsealed, hinner⟩ := hsuits
      -- raw text is always preserved, and what is preserved is not rewritten
      have hlegible : settings.contentOf elem.tag ≠ .verbatim →
          (∀ close ∈ elem.endTag, close.Legible) ∧ Node.LegibleAll children := by
        intro hcontent
        have hplain : ¬elem.tag.takesRawText = true := fun hraw =>
          hcontent (Settings.contentOf_of_takesRawText hraw)
        have hinside := hlegible.2
        rwa [if_neg hplain] at hinside
      have hchildren : DrawnFrom (Node.textOfAll children) (plan.rewrittenAll children) := by
        by_cases hcontent : settings.contentOf elem.tag = .verbatim
        · rw [rewrittenAll_of_undecided plan children (hsealed hcontent)]
          exact .refl _
        · exact drawn_rewrittenAll children (hlegible hcontent).2 hinner
      rw [rewritten, Node.text_element]
      cases hdecision : plan.get? elem.id with
      | none => exact (DrawnFrom.refl _).append (hchildren.append (.refl _))
      | some decision =>
          have hlayout := (hown decision hdecision).layout
          rw [Option.map_some]
          generalize decision.layout = layout at hlayout
          cases hlayout with
          | @element attributes tagEnd endTag hlength hgaps hend hclose =>
              refine (DrawnFrom.startTag elem.tag attributes).append (hchildren.append ?_)
              split
              next hformatted => exact .rewrittenEnd (hlegible (by simp [hformatted])).1
              next => exact .refl _

/-- Rewriting adds nothing to a source but quotes. -/
theorem drawn_rewrittenAll (nodes : List Node) (hlegible : Node.LegibleAll nodes)
    (hsuits : plan.SuitsAll settings nodes) :
    DrawnFrom (Node.textOfAll nodes) (plan.rewrittenAll nodes) := by
  cases nodes with
  | nil => exact .refl []
  | cons node rest =>
      rw [rewrittenAll, Node.textOfAll_cons]
      exact (drawn_rewritten node hlegible.1 hsuits.1).append
        (drawn_rewrittenAll rest hlegible.2 hsuits.2)

end

end Plan

/-- Colouring adds colour and nothing else. For settings that are accepted and a text without escape
characters that can be read, the output of any part of it without colours is what is left of the
output with colours when control sequences are erased. -/
theorem format_terminal_erases {settings : Settings} {text : String} {document : Document}
    (hcheck : settings.check = .ok ()) (hparse : parse text.toList = .ok document)
    (hplain : '\x1b' ∉ text.toList) (range : Option Span) :
    ∃ plain coloured, format .plain settings text range = .ok plain ∧
      format .terminal settings text range = .ok coloured ∧
        eraseCodes coloured.toList = plain.toList := by
  obtain ⟨plan, hplan, hsuits, hending⟩ := Settings.exists_plan hcheck hparse range
  obtain ⟨pieces, hpieces, hwrites⟩ :=
    plan.renderAll_writes document.children (Document.sound_of_parse hparse) hsuits
  have hrender : plan.renderDocument document = .ok (pieces ++ plan.ending.pieces) := by
    simp only [Plan.renderDocument, hpieces]
    rfl
  have houtput := (hwrites.append (Writes.gap hending)).strip
  rw [List.append_nil] at houtput
  have hdrawn := plan.drawn_rewrittenAll document.children (Document.legible_of_parse hparse) hsuits
  rw [Document.textOfAll_of_parse hparse] at hdrawn
  have hclean : '\x1b' ∉ joinPieces (pieces ++ plan.ending.pieces) := by
    intro hmem
    have hkept : '\x1b' ∈ strip (joinPieces (pieces ++ plan.ending.pieces)) :=
      List.mem_filter.mpr ⟨hmem, by decide⟩
    rw [houtput] at hkept
    rcases hdrawn _ (List.mem_of_mem_filter hkept) with hsource | ⟨quote, hquote⟩
    · exact hplain hsource
    · cases quote <;> exact absurd hquote (by decide)
  refine ⟨_, _, format_eq_ok hcheck hparse hplan hrender,
    format_eq_ok hcheck hparse hplan hrender, ?_⟩
  rw [String.toList_ofList, String.toList_ofList, Palette.render_plain]
  exact (Palette.terminal.shows_render hclean).eraseCodes_eq

/-- The text begins like what is behind the escape character of a control sequence, right behind
one. -/
theorem format_terminal_erases_bracket :
    let text := "<p>[1m&lt;3;m</p>"
    '\x1b' ∉ text.toList ∧ ∃ coloured, format .plain {} text none = .ok text ∧
      format .terminal {} text none = .ok coloured ∧ coloured ≠ text ∧
        eraseCodes coloured.toList = text.toList := by
  intro text
  have hcheck : Settings.check {} = .ok () := by with_unfolding_all rfl
  have hread : (parse text.toList).toOption.isSome = true := by decide +kernel
  obtain ⟨document, hdocument⟩ := Option.isSome_iff_exists.mp hread
  have hformat : format .plain {} text none = .ok text := by
    rw [← toOption_eq_some_iff]
    decide +kernel
  have hescape : '\x1b' ∉ text.toList := by decide
  obtain ⟨plain, coloured, hplain, hcoloured, herase⟩ :=
    format_terminal_erases hcheck (toOption_eq_some_iff.mp hdocument) hescape none
  obtain rfl : text = plain := Except.ok.inj (hformat.symm.trans hplain)
  have hchanged : (format .terminal {} text none).toOption ≠ some text := by decide +kernel
  refine ⟨hescape, coloured, hformat, hcoloured, fun hsame => hchanged ?_, herase⟩
  rw [hcoloured, hsame]
  rfl

end Markup
