import Markup.Proofs.Tag.Grammar
import Markup.Proofs.Text.Spacing
import Markup.Token
import Markup.Tree.Basic

/-!
# What is known of tokens

Every tag among the tokens of a text keeps the grammar of tags, and content goes with a start tag
exactly where it is that of a raw text element. A token of markup ends where it ends whatever
follows it, unless it is an element whose raw text never ends. Main statement: `read_cases`, which
tells the tokens that a text can begin with apart.
-/

namespace Markup

open Markup.Text

/-- Whether the content behind a start tag belongs to the token of the tag. -/
def StartTag.takesRawText (tag : StartTag) : Bool :=
  tag.ending = .plain && !Tag.isVoid tag.name && Tag.isRawText tag.name

/-- A name that begins with a letter, as those of all elements do. -/
def Named (name : List Char) : Prop :=
  ∃ c rest, name = c :: rest ∧ c.isAlpha = true

theorem isBlank_eq_false_of_isAlpha {c : Char} (halpha : c.isAlpha = true) : isBlank c = false :=
  isBlank_eq_false_of_isAlphanum (by simp [Char.isAlphanum, halpha])

theorem ne_of_isAlpha {c d : Char} (halpha : c.isAlpha = true) (hd : d.isAlpha = false) :
    c ≠ d := by
  rintro rfl
  simp [halpha] at hd

/-- An end tag with nothing behind the character that ends it. -/
def EndTag.Fits (tag : EndTag) : Prop :=
  ∃ body, '>' ∉ body ∧ tag = Token.endTagOf ('<' :: '/' :: (body ++ ['>']))

namespace Token

/-! ## Where markup begins -/

/-- Whether a text that follows an angle bracket makes markup of the bracket. -/
def opens : List Char → Bool
  | [] => false
  | c :: rest =>
      c == '!' || c == '?' || c.isAlpha || (c == '/' && rest.head?.any Char.isAlpha)

theorem opens_append {text : List Char} (hopens : opens text = true) (more : List Char) :
    opens (text ++ more) = true := by
  cases text with
  | nil => simp [opens] at hopens
  | cons c rest =>
      cases rest with
      | nil => simp_all [opens]
      | cons d others => simpa [opens] using hopens

theorem readMarkup_of_not_opens {rest : List Char} (hopens : opens rest = false) :
    readMarkup rest = (text ['<'], rest) := by
  unfold readMarkup
  split
  next body hbody =>
    rw [dropStart?_eq_some_iff.mp hbody] at hopens
    simp [opens] at hopens
  next =>
    split
    next body hbody =>
      rw [dropStart?_eq_some_iff.mp hbody] at hopens
      simp [opens] at hopens
    next =>
      split
      next => simp [opens] at hopens
      next => simp [opens] at hopens
      next c tail => simp_all [opens]
      next =>
        simp only [opens, Bool.or_eq_false_iff] at hopens
        simp [hopens.1.2]
      next => rfl

theorem readMarkup_comment (body : List Char) :
    readMarkup ('!' :: '-' :: '-' :: body) =
      readUntil .comment comment ['<', '!', '-', '-'] ['-', '-', '>'] body := rfl

theorem readMarkup_cdata (body : List Char) :
    readMarkup (['!', '[', 'C', 'D', 'A', 'T', 'A', '['] ++ body) =
      readUntil .cdata cdata ['<'] [']', ']', '>']
        (['!', '[', 'C', 'D', 'A', 'T', 'A', '['] ++ body) := rfl

/-- A text that begins a declaration, and neither a comment nor a CDATA section. -/
structure Declares (rest : List Char) : Prop where
  mark : rest.head? = some '!' ∨ rest.head? = some '?'
  comment : dropStart? ['!', '-', '-'] rest = none
  cdata : dropStart? ['!', '[', 'C', 'D', 'A', 'T', 'A', '['] rest = none

theorem readMarkup_declaration {rest : List Char} (hdeclares : Declares rest) :
    readMarkup rest = readUntil .declaration declaration ['<'] ['>'] rest := by
  obtain ⟨hmark, hcomment, hcdata⟩ := hdeclares
  unfold readMarkup
  rw [hcomment, hcdata]
  rcases hmark with hmark | hmark <;> obtain ⟨tail, rfl⟩ := List.head?_eq_some_iff.mp hmark <;> rfl

theorem readMarkup_endTag {c : Char} (halpha : c.isAlpha = true) (rest : List Char) :
    readMarkup ('/' :: c :: rest) =
      match readEndTag? ('<' :: '/' :: c :: rest) with
      | some (tag, after) => (endTag tag, after)
      | none => (unterminated .endTag ('<' :: '/' :: c :: rest), []) := by
  unfold readMarkup
  simp only [dropStart?, halpha]
  rfl

theorem readMarkup_startTag {c : Char} (halpha : c.isAlpha = true) (rest : List Char) :
    readMarkup (c :: rest) = readStartTag (c :: rest) := by
  have hmark := ne_of_isAlpha halpha (by decide : '!'.isAlpha = false)
  have hquery := ne_of_isAlpha halpha (by decide : '?'.isAlpha = false)
  have hslash := ne_of_isAlpha halpha (by decide : '/'.isAlpha = false)
  unfold readMarkup
  simp only [dropStart?, if_neg hmark.symm]
  split <;> simp_all

/-- What follows an angle bracket begins no markup, or one of the five kinds of it. -/
theorem opens_cases (rest : List Char) :
    opens rest = false ∨ (∃ body, rest = '!' :: '-' :: '-' :: body) ∨
      (∃ body, rest = ['!', '[', 'C', 'D', 'A', 'T', 'A', '['] ++ body) ∨ Declares rest ∨
        (∃ c body, c.isAlpha = true ∧ rest = '/' :: c :: body) ∨
          ∃ c body, c.isAlpha = true ∧ rest = c :: body := by
  cases hcomment : dropStart? ['!', '-', '-'] rest with
  | some body => exact .inr (.inl ⟨body, dropStart?_eq_some_iff.mp hcomment⟩)
  | none =>
      cases hcdata : dropStart? ['!', '[', 'C', 'D', 'A', 'T', 'A', '['] rest with
      | some body => exact .inr (.inr (.inl ⟨body, dropStart?_eq_some_iff.mp hcdata⟩))
      | none =>
          cases hopens : opens rest with
          | false => exact .inl rfl
          | true =>
              refine .inr (.inr (.inr ?_))
              cases rest with
              | nil => simp [opens] at hopens
              | cons c tail =>
                  simp only [opens, Bool.or_eq_true, beq_iff_eq, Bool.and_eq_true,
                    Option.any_eq_true] at hopens
                  rcases hopens with ((rfl | rfl) | halpha) | ⟨rfl, d, hd, halpha⟩
                  · exact .inl ⟨.inl rfl, hcomment, hcdata⟩
                  · exact .inl ⟨.inr rfl, hcomment, hcdata⟩
                  · exact .inr (.inr ⟨c, tail, halpha, rfl⟩)
                  · obtain ⟨others, rfl⟩ := List.head?_eq_some_iff.mp hd
                    exact .inr (.inl ⟨d, others, halpha, rfl⟩)

/-! ## Raw text -/

theorem eq_of_toLower_eq {c d : Char} (hd : d.isAlpha = false) (hlower : c.toLower = d) :
    c = d := by
  unfold Char.toLower at hlower
  split at hlower
  next hupper =>
    subst hlower
    exfalso
    rw [Bool.eq_false_iff, ne_eq, isAlpha_iff, isLower_iff] at hd
    have hbounds : 65 ≤ c.toNat ∧ c.toNat ≤ 90 := hupper
    have hshift : (c.val + ('a'.val - 'A'.val)).toNat = c.toNat + 32 := by
      rw [UInt32.toNat_add]
      change (c.toNat + 32) % 4294967296 = c.toNat + 32
      omega
    refine hd (.inr ?_)
    change 97 ≤ (c.val + ('a'.val - 'A'.val)).toNat ∧ (c.val + ('a'.val - 'A'.val)).toNat ≤ 122
    omega
  next => exact hlower

/-- Names that are the same up to case have the same characters other than letters. -/
theorem mem_of_sameName {first second : List Char} {d : Char} (hd : d.isAlpha = false)
    (hsame : sameName first second = true) (hmem : d ∈ first) : d ∈ second := by
  have hmapped : first.map Char.toLower = second.map Char.toLower := by
    simpa [sameName] using hsame
  have hlower : d.toLower ∈ second.map Char.toLower := hmapped ▸ List.mem_map_of_mem hmem
  obtain ⟨c, hc, heq⟩ := List.mem_map.mp hlower
  have hself : d.toLower = d := by
    unfold Char.toLower
    split
    next hupper =>
      rw [Bool.eq_false_iff, ne_eq, isAlpha_iff, isUpper_iff] at hd
      exact absurd (.inl hupper) hd
    next => rfl
  rw [hself] at heq
  rwa [← eq_of_toLower_eq hd heq]

/-- Whether an end tag with a name begins here is decided before the end of the first tag. -/
theorem endsHere_append_cons {name : List Char} (hname : '>' ∉ name)
    (text first second : List Char) :
    endsHere name (text ++ '>' :: first) = endsHere name (text ++ '>' :: second) := by
  unfold endsHere
  rw [dropStart?_append_cons (by decide), dropStart?_append_cons (by decide)]
  cases dropStart? ['<', '/'] text with
  | none => rfl
  | some after =>
      simp only [Option.map_some]
      by_cases hlong : name.length ≤ after.length
      · rw [List.take_append_of_le_length hlong, List.take_append_of_le_length hlong,
          List.drop_append_of_le_length hlong, List.drop_append_of_le_length hlong]
        cases List.drop name.length after <;> rfl
      · -- a name that goes on behind the end of the tag would have the end in it
        have hnot : ∀ rest : List Char,
            sameName ((after ++ '>' :: rest).take name.length) name = false := by
          intro rest
          rw [← Bool.not_eq_true]
          intro hsame
          refine hname (mem_of_sameName (by decide) hsame ?_)
          obtain ⟨more, hmore⟩ : ∃ more, name.length = after.length + 1 + more :=
            ⟨name.length - after.length - 1, by omega⟩
          rw [hmore, Nat.add_assoc, List.take_length_add_append, Nat.add_comm 1]
          simp
        rw [hnot, hnot, Bool.false_and, Bool.false_and]

theorem endsHere_of_splitAtEnd {name text content close : List Char}
    (hsplit : splitAtEnd name text = some (content, close)) : endsHere name close = true := by
  induction text generalizing content with
  | nil => simp [splitAtEnd] at hsplit
  | cons c rest ih =>
      rw [splitAtEnd] at hsplit
      split at hsplit
      next hends =>
        obtain ⟨-, rfl⟩ := Prod.mk.inj (Option.some.inj hsplit)
        exact hends
      next =>
        obtain ⟨⟨found, last⟩, hfound, heq⟩ := Option.map_eq_some_iff.mp hsplit
        obtain ⟨-, rfl⟩ := Prod.mk.inj heq
        exact ih hfound

theorem splitAtEnd_append_cons {name content after : List Char} (close : List Char)
    (hname : '>' ∉ name) (hsplit : splitAtEnd name (content ++ (close ++ '>' :: after)) =
      some (content, close ++ '>' :: after)) (rest : List Char) :
    splitAtEnd name (content ++ (close ++ '>' :: rest)) = some (content, close ++ '>' :: rest) := by
  induction content with
  | nil =>
      rw [List.nil_append] at hsplit ⊢
      cases hclose : close ++ '>' :: after with
      | nil => simp at hclose
      | cons c tail =>
          rw [hclose, splitAtEnd] at hsplit
          split at hsplit
          next hends =>
            rw [← hclose, endsHere_append_cons hname close after rest] at hends
            cases hother : close ++ '>' :: rest with
            | nil => simp at hother
            | cons d others =>
                rw [hother] at hends
                rw [splitAtEnd, if_pos hends]
          next =>
            obtain ⟨found, -, heq⟩ := Option.map_eq_some_iff.mp hsplit
            simp at heq
  | cons c tail ih =>
      rw [List.cons_append, splitAtEnd] at hsplit
      split at hsplit
      next => simp at hsplit
      next hends =>
        obtain ⟨⟨found, last⟩, hfound, heq⟩ := Option.map_eq_some_iff.mp hsplit
        simp only [Prod.mk.injEq, List.cons.injEq, true_and] at heq
        obtain ⟨rfl, rfl⟩ := heq
        rw [← List.append_assoc, ← List.cons_append,
          endsHere_append_cons hname _ after rest] at hends
        rw [List.cons_append, splitAtEnd, ih hfound, if_neg]
        · rfl
        · simpa using hends

theorem readEndTag?_eq_some_iff {rest after : List Char} {tag : EndTag} :
    readEndTag? ('<' :: '/' :: rest) = some (tag, after) ↔
      ∃ body, '>' ∉ body ∧ tag = endTagOf ('<' :: '/' :: (body ++ ['>'])) ∧
        rest = body ++ '>' :: after := by
  unfold readEndTag?
  rw [Option.map_eq_some_iff]
  constructor
  · rintro ⟨⟨raw, tail⟩, hsplit, heq⟩
    obtain ⟨rfl, rfl⟩ := Prod.mk.inj heq
    obtain ⟨hnot, htext⟩ := splitAround_singleton_iff.mp hsplit
    cases raw with
    | nil => simp at htext
    | cons c raw =>
        cases raw with
        | nil => simp at htext
        | cons d body =>
            simp only [List.cons_append, List.cons.injEq] at htext
            obtain ⟨rfl, rfl, rfl⟩ := htext
            exact ⟨body, fun hmem => hnot (by simp [hmem]), rfl, rfl⟩
  · rintro ⟨body, hbody, rfl, rfl⟩
    refine ⟨('<' :: '/' :: body, after), splitAround_singleton_iff.mpr ⟨?_, rfl⟩, rfl⟩
    simpa using hbody

/-- The content of a raw text element with this name, and the end tag behind it, if there is one.
Without an end tag the content goes on to the end of the text. -/
def Encloses (name content : List Char) : Option EndTag → Prop
  | none => readRawText name content = (content, none, [])
  | some tag =>
      tag.Fits ∧ ∀ rest, readRawText name (content ++ (tag.raw ++ rest)) = (content, some tag, rest)

theorem encloses_readRawText {name : List Char} (hname : '>' ∉ name) (text : List Char) :
    Encloses name (readRawText name text).1 (readRawText name text).2.1 ∧
      ((readRawText name text).2.1 = none → (readRawText name text).1 = text ∧
        (readRawText name text).2.2 = []) := by
  cases hread : readRawText name text with
  | mk content found =>
      obtain ⟨close, after⟩ := found
      have hwhole := hread
      unfold readRawText at hread
      split at hread
      next =>
        simp only [Prod.mk.injEq] at hread
        obtain ⟨rfl, rfl, rfl⟩ := hread
        exact ⟨hwhole, fun _ => ⟨rfl, rfl⟩⟩
      next before rest hsplit =>
        split at hread
        next =>
          simp only [Prod.mk.injEq] at hread
          obtain ⟨rfl, rfl, rfl⟩ := hread
          exact ⟨hwhole, fun _ => ⟨rfl, rfl⟩⟩
        next tag tail htag =>
          simp only [Prod.mk.injEq] at hread
          obtain ⟨rfl, rfl, rfl⟩ := hread
          have htext := splitAtEnd_append hsplit
          obtain ⟨inner, rfl⟩ : ∃ inner, rest = '<' :: '/' :: inner := by
            have hends := endsHere_of_splitAtEnd hsplit
            unfold endsHere at hends
            split at hends
            next => simp at hends
            next inner hinner => exact ⟨inner, dropStart?_eq_some_iff.mp hinner⟩
          obtain ⟨body, hbody, rfl, rfl⟩ := readEndTag?_eq_some_iff.mp htag
          refine ⟨⟨⟨body, hbody, rfl⟩, fun other => ?_⟩, by simp⟩
          rw [← htext] at hsplit
          have hmoved := splitAtEnd_append_cons ('<' :: '/' :: body) hname hsplit other
          have hagain :=
            readEndTag?_eq_some_iff.mpr ⟨body, hbody, rfl, (rfl : body ++ '>' :: other = _)⟩
          have hraw : (endTagOf ('<' :: '/' :: (body ++ ['>']))).raw ++ other =
              '<' :: '/' :: body ++ '>' :: other := by simp [endTagOf]
          rw [hraw, readRawText, hmoved]
          simp only [List.cons_append, hagain]

/-! ## Raw text without an end -/

section Endless

variable {name blanks : List Char}

theorem endsHere_append_blank (hname : ∀ c ∈ name, isBlank c = false)
    (hblank : allBlank blanks = true) (text : List Char) :
    endsHere name (text ++ blanks) = endsHere name text := by
  unfold endsHere
  rw [dropStart?_append_blank (by simp [isBlank]) hblank]
  cases dropStart? ['<', '/'] text with
  | none => rfl
  | some after =>
      simp only [Option.map_some]
      by_cases hlong : name.length ≤ after.length
      · rw [List.take_append_of_le_length hlong, List.drop_append_of_le_length hlong]
        cases List.drop name.length after with
        | cons c rest => rfl
        | nil =>
            cases blanks with
            | nil => rfl
            | cons c rest => simp [isBlank_of_mem hblank List.mem_cons_self]
      · -- neither text has enough characters that could be those of the name
        have hshort : sameName (after.take name.length) name = false := by
          rw [← Bool.not_eq_true]
          intro hsame
          have hlength := congrArg List.length (by simpa [sameName] using hsame :
            (after.take name.length).map Char.toLower = name.map Char.toLower)
          simp at hlength
          omega
        have hpadded : sameName ((after ++ blanks).take name.length) name = false := by
          cases hblanks : blanks with
          | nil => simpa using hshort
          | cons c rest =>
              rw [hblanks] at hblank
              have hc := isBlank_of_mem hblank List.mem_cons_self
              have halpha : c.isAlpha = false := by
                cases hc' : c.isAlpha with
                | false => rfl
                | true => simp [isBlank_eq_false_of_isAlpha hc'] at hc
              rw [← Bool.not_eq_true]
              intro hsame
              have hmem := mem_of_sameName halpha hsame (by
                obtain ⟨more, hmore⟩ : ∃ more, name.length = after.length + 1 + more :=
                  ⟨name.length - after.length - 1, by omega⟩
                rw [hmore, Nat.add_assoc, List.take_length_add_append, Nat.add_comm 1]
                simp)
              simp [hname c hmem] at hc
        rw [hshort, hpadded, Bool.false_and, Bool.false_and]

theorem splitAtEnd_append_blank (hname : ∀ c ∈ name, isBlank c = false)
    (hblank : allBlank blanks = true) (text : List Char) :
    splitAtEnd name (text ++ blanks) =
      (splitAtEnd name text).map fun (content, close) => (content, close ++ blanks) := by
  induction text with
  | cons c rest ih =>
      have hends := endsHere_append_blank hname hblank (c :: rest)
      rw [List.cons_append] at hends
      rw [List.cons_append, splitAtEnd, splitAtEnd, hends, ih]
      split
      next => simp
      next => cases splitAtEnd name rest <;> rfl
  | nil =>
      have hnever : ∀ text, allBlank text = true → splitAtEnd name text = none := by
        intro text htext
        induction text with
        | nil => rfl
        | cons c rest ih =>
            have hends := endsHere_append_blank hname htext []
            rw [List.nil_append] at hends
            have hrest : allBlank rest = true := by simp_all
            rw [splitAtEnd, hends, ih hrest]
            rfl
      exact hnever blanks hblank

/-- Raw text that never ends does not do so whatever blanks there are at its end. -/
theorem encloses_none_append_blank (hname : ∀ c ∈ name, isBlank c = false)
    (hblank : allBlank blanks = true) (content : List Char) :
    Encloses name (content ++ blanks) none ↔ Encloses name content none := by
  have hiff : ∀ text, Encloses name text none ↔ ∀ before after,
      splitAtEnd name text = some (before, after) → '>' ∉ after := by
    intro text
    unfold Encloses readRawText readEndTag?
    constructor
    · intro hread before after hsplit
      rw [hsplit] at hread
      dsimp only at hread
      cases hfound : splitAround ['>'] after with
      | none => exact splitAround_singleton_eq_none_iff.mp hfound
      | some found => simp [hfound] at hread
    · intro hnot
      cases hsplit : splitAtEnd name text with
      | none => rfl
      | some found =>
          have hnone := splitAround_singleton_eq_none_iff.mpr (hnot found.1 found.2 hsplit)
          simp [hnone]
  have hnot : '>' ∉ blanks := fun hmem => by
    have hblankClose := isBlank_of_mem hblank hmem
    simp [isBlank] at hblankClose
  rw [hiff, hiff, splitAtEnd_append_blank hname hblank]
  constructor
  · intro hall before after hsplit hmem
    exact hall before (after ++ blanks) (by simp [hsplit]) (by simp [hmem])
  · intro hall before after hsplit hmem
    obtain ⟨⟨start, tail⟩, hfound, heq⟩ := Option.map_eq_some_iff.mp hsplit
    obtain ⟨rfl, rfl⟩ := Prod.mk.inj heq
    rcases List.mem_append.mp hmem with hmem | hmem
    · exact hall start tail hfound hmem
    · exact hnot hmem

end Endless

/-! ## Tokens that are read back -/

theorem ofText_cons (c : Char) (rest : List Char) :
    ofText (c :: rest) = (read c rest).1 :: ofText (read c rest).2 := by
  rw [ofText]

theorem ofText_bracket (rest : List Char) :
    ofText ('<' :: rest) = (readMarkup rest).1 :: ofText (readMarkup rest).2 := by
  rw [ofText_cons, read, if_pos rfl]

/-- A token that is read back from its source, whatever follows it. -/
def Legible (token : Token) : Prop :=
  ∀ rest, ofText (token.source ++ rest) = token :: ofText rest

theorem legible_of_readMarkup {token : Token} (tail : List Char)
    (hsource : token.source = '<' :: tail)
    (hread : ∀ rest, readMarkup (tail ++ rest) = (token, rest)) : token.Legible := by
  intro rest
  rw [hsource, List.cons_append, ofText_bracket, hread]

/-- What is known of a token that was read from a text. -/
def Fits : Token → Prop
  | comment raw => (comment raw).Legible
  | cdata raw => (cdata raw).Legible
  | declaration raw => (declaration raw).Legible
  | startTag tag => tag.Fits ∧ Named tag.name ∧ tag.takesRawText = false
  | endTag tag => tag.Fits ∧ Named tag.name
  | rawElement tag content close =>
      tag.Fits ∧ Named tag.name ∧ tag.takesRawText = true ∧ Encloses tag.name content close
  | text _ => True
  | unterminated _ _ => True

/-- Whether a token is markup that ends. -/
def isMarkup : Token → Bool
  | text _ => false
  | unterminated _ _ => false
  | _ => true

/-- Markup that is read back begins with an angle bracket. -/
theorem Legible.exists_source {token : Token} (hlegible : token.Legible)
    (hmarkup : token.isMarkup = true) : ∃ tail, token.source = '<' :: tail := by
  have hread := hlegible []
  rw [List.append_nil] at hread
  cases hsource : token.source with
  | nil =>
      rw [hsource, ofText] at hread
      exact absurd hread (by simp)
  | cons c tail =>
      by_cases hc : c = '<'
      · exact ⟨tail, by rw [hc]⟩
      · rw [hsource, ofText_cons, read, if_neg hc] at hread
        rw [← (List.cons.inj hread).1] at hmarkup
        simp [isMarkup] at hmarkup

/-- The ways in which what follows an angle bracket can be read, with the bracket. -/
inductive ReadAs (rest : List Char) : Token × List Char → Prop
  | bracket : opens rest = false → ReadAs rest (text ['<'], rest)
  | hanging (construct : Construct) : ReadAs rest (unterminated construct ('<' :: rest), [])
  | markup {token : Token} {after : List Char} : token.isMarkup = true → token.Fits →
      ReadAs rest (token, after)

theorem readUntil_of_splitAround (construct : Construct) (token : List Char → Token)
    (opening : List Char) {pattern text body after : List Char}
    (hsplit : splitAround pattern text = some (body, after)) (hpattern : pattern ≠ [])
    (rest : List Char) :
    readUntil construct token opening pattern (body ++ (pattern ++ rest)) =
      (token (opening ++ (body ++ pattern)), rest) := by
  rw [readUntil, splitAround_of_append hsplit hpattern]

theorem readAs_comment (body : List Char) :
    ReadAs ('!' :: '-' :: '-' :: body) (readMarkup ('!' :: '-' :: '-' :: body)) := by
  rw [readMarkup_comment]
  cases hsplit : splitAround ['-', '-', '>'] body with
  | none =>
      rw [readUntil, hsplit]
      exact .hanging .comment
  | some found =>
      obtain ⟨inside, after⟩ := found
      rw [readUntil, hsplit]
      refine .markup rfl (legible_of_readMarkup ('!' :: '-' :: '-' :: (inside ++ ['-', '-', '>']))
        rfl fun rest => ?_)
      have hread := readUntil_of_splitAround .comment comment ['<', '!', '-', '-'] hsplit
        (by simp) rest
      simpa [readMarkup_comment] using hread

theorem readAs_cdata (body : List Char) :
    ReadAs (['!', '[', 'C', 'D', 'A', 'T', 'A', '['] ++ body)
      (readMarkup (['!', '[', 'C', 'D', 'A', 'T', 'A', '['] ++ body)) := by
  rw [readMarkup_cdata]
  have hopening : ∀ text, splitAround [']', ']', '>'] (['!', '[', 'C', 'D', 'A', 'T', 'A', '['] ++
      text) = (splitAround [']', ']', '>'] text).map fun (before, after) =>
        (['!', '[', 'C', 'D', 'A', 'T', 'A', '['] ++ before, after) := by
    intro text
    simp only [List.cons_append, List.nil_append, splitAround, dropStart?]
    cases splitAround [']', ']', '>'] text <;> simp
  cases hsplit : splitAround [']', ']', '>'] body with
  | none =>
      rw [readUntil, hopening, hsplit]
      exact .hanging .cdata
  | some found =>
      obtain ⟨inside, after⟩ := found
      have hwhole := hopening body
      rw [hsplit] at hwhole
      rw [readUntil, hwhole]
      refine .markup rfl (legible_of_readMarkup (['!', '[', 'C', 'D', 'A', 'T', 'A', '['] ++
        (inside ++ [']', ']', '>'])) rfl fun rest => ?_)
      have hread := readUntil_of_splitAround .cdata cdata ['<'] hwhole (by simp) rest
      rw [List.append_assoc, readMarkup_cdata, List.append_assoc, ← List.append_assoc, hread]

theorem Declares.append_cons {body after : List Char} (hdeclares : Declares (body ++ '>' :: after))
    (rest : List Char) : Declares (body ++ '>' :: rest) := by
  obtain ⟨hmark, hcomment, hcdata⟩ := hdeclares
  rw [dropStart?_append_cons (by decide), Option.map_eq_none_iff] at hcomment hcdata
  refine ⟨?_, ?_, ?_⟩
  · cases body with
    | nil => simp at hmark
    | cons c tail => simpa using hmark
  · rw [dropStart?_append_cons (by decide), hcomment]; rfl
  · rw [dropStart?_append_cons (by decide), hcdata]; rfl

theorem readAs_declaration {rest : List Char} (hdeclares : Declares rest) :
    ReadAs rest (readMarkup rest) := by
  rw [readMarkup_declaration hdeclares]
  cases hsplit : splitAround ['>'] rest with
  | none =>
      rw [readUntil, hsplit]
      exact .hanging .declaration
  | some found =>
      obtain ⟨inside, after⟩ := found
      rw [readUntil, hsplit]
      obtain ⟨-, rfl⟩ := splitAround_singleton_iff.mp hsplit
      refine .markup rfl (legible_of_readMarkup (inside ++ ['>']) rfl fun more => ?_)
      have hread := readUntil_of_splitAround .declaration declaration ['<'] hsplit (by simp) more
      rw [List.append_assoc, List.singleton_append,
        readMarkup_declaration (hdeclares.append_cons more)]
      exact hread

theorem readAs_endTag {c : Char} (halpha : c.isAlpha = true) (rest : List Char) :
    ReadAs ('/' :: c :: rest) (readMarkup ('/' :: c :: rest)) := by
  rw [readMarkup_endTag halpha]
  split
  next tag after hread =>
    obtain ⟨body, hbody, rfl, htext⟩ := readEndTag?_eq_some_iff.mp hread
    refine .markup rfl ⟨⟨body, hbody, rfl⟩, ?_⟩
    have hc := ne_of_isAlpha halpha (by decide : '>'.isAlpha = false)
    cases body with
    | nil => exact absurd (List.cons.inj htext).1 hc
    | cons d others =>
        obtain ⟨rfl, -⟩ := List.cons.inj htext
        have hslash := ne_of_isAlpha halpha (by decide : '/'.isAlpha = false)
        have hin : Attribute.inTagName c = true := by
          simp [Attribute.inTagName, isBlank_eq_false_of_isAlpha halpha, hc, hslash]
        refine ⟨c, (others ++ ['>']).takeWhile Attribute.inTagName, ?_, halpha⟩
        simp [endTagOf, hin]
  next => exact .hanging .endTag

theorem named_of_body {tag : StartTag} {c : Char} {rest after : List Char}
    (halpha : c.isAlpha = true) (hfits : tag.Fits) (htext : c :: rest = tag.body ++ after) :
    Named tag.name := by
  have hc := ne_of_isAlpha halpha (by decide : '>'.isAlpha = false)
  have hslash := ne_of_isAlpha halpha (by decide : '/'.isAlpha = false)
  have hin : Attribute.inTagName c = true := by
    simp [Attribute.inTagName, isBlank_eq_false_of_isAlpha halpha, hc, hslash]
  cases hname : tag.name with
  | cons d others =>
      rw [StartTag.body, hname] at htext
      obtain ⟨rfl, -⟩ := List.cons.inj htext
      exact ⟨c, others, rfl, halpha⟩
  | nil =>
      -- the tag begins with a character that goes on with its name
      have hread := congrArg (fun found => found.map fun pair => pair.1.name)
        (StartTag.read?_eq_some_iff.mpr ⟨hfits, htext⟩)
      simp [StartTag.read?, hname, hin] at hread

theorem readAs_startTag {c : Char} (halpha : c.isAlpha = true) (rest : List Char) :
    ReadAs (c :: rest) (readMarkup (c :: rest)) := by
  rw [readMarkup_startTag halpha]
  unfold readStartTag
  split
  next => exact .hanging .startTag
  next tag after hread =>
    obtain ⟨hfits, htext⟩ := StartTag.read?_eq_some_iff.mp hread
    have hnamed := named_of_body halpha hfits htext
    split
    next hraw =>
      have hclose : '>' ∉ tag.name := fun hmem => by
        have hin := hfits.name '>' hmem
        simp [Attribute.inTagName] at hin
      exact .markup rfl ⟨hfits, hnamed, hraw, (encloses_readRawText hclose after).1⟩
    next hraw => exact .markup rfl ⟨hfits, hnamed, Bool.not_eq_true _ ▸ hraw⟩

/-- What follows an angle bracket is read in one of three ways. -/
theorem readAs_readMarkup (rest : List Char) : ReadAs rest (readMarkup rest) := by
  rcases opens_cases rest with hopens | ⟨body, rfl⟩ | ⟨body, rfl⟩ | hdeclares |
    ⟨c, body, halpha, rfl⟩ | ⟨c, body, halpha, rfl⟩
  · rw [readMarkup_of_not_opens hopens]
    exact .bracket hopens
  · exact readAs_comment body
  · exact readAs_cdata body
  · exact readAs_declaration hdeclares
  · exact readAs_endTag halpha body
  · exact readAs_startTag halpha body

theorem fits_read (c : Char) (rest : List Char) : (read c rest).1.Fits := by
  unfold read
  split
  next =>
    have hread := readAs_readMarkup rest
    generalize readMarkup rest = found at hread
    cases hread with
    | bracket => trivial
    | hanging => trivial
    | markup _ hfits => exact hfits
  next => trivial

theorem fits_of_mem_ofText {text : List Char} {token : Token} (hmem : token ∈ ofText text) :
    token.Fits := by
  fun_induction ofText text with
  | case1 => simp at hmem
  | case2 c rest ih =>
      rcases List.mem_cons.mp hmem with rfl | hmem
      · exact fits_read c rest
      · exact ih hmem

/-- The token that a leaf outside raw text elements is made of. -/
def ofLeaf (kind : LeafKind) (raw : List Char) : Token :=
  match kind with
  | .text => text raw
  | .comment => comment raw
  | .verbatim => cdata raw
  | .doctype => declaration raw

/-! ## Reading back -/

theorem legible_startTag {tag : StartTag} (hfits : tag.Fits) (hnamed : Named tag.name)
    (hraw : tag.takesRawText = false) : (startTag tag).Legible := by
  obtain ⟨c, others, hname, halpha⟩ := hnamed
  refine legible_of_readMarkup tag.body rfl fun rest => ?_
  have hread := StartTag.read?_eq_some_iff.mpr ⟨hfits, (rfl : tag.body ++ rest = _)⟩
  obtain ⟨tail, htail⟩ : ∃ tail, tag.body ++ rest = c :: tail := by
    rw [StartTag.body, hname]
    exact ⟨_, rfl⟩
  rw [htail] at hread ⊢
  rw [readMarkup_startTag halpha, readStartTag, hread]
  exact if_neg (by simpa [StartTag.takesRawText] using hraw)

theorem legible_endTag {tag : EndTag} (hfits : tag.Fits) (hnamed : Named tag.name) :
    (endTag tag).Legible := by
  obtain ⟨body, hbody, rfl⟩ := hfits
  obtain ⟨c, others, hname, halpha⟩ := hnamed
  obtain ⟨tail, rfl⟩ : ∃ tail, body = c :: tail := by
    cases body with
    | nil => simp [endTagOf, Attribute.inTagName] at hname
    | cons d tail =>
        by_cases hin : Attribute.inTagName d = true
        · simp only [endTagOf, List.drop_succ_cons, List.drop_zero, List.cons_append,
            List.takeWhile_cons_of_pos hin, List.cons.injEq] at hname
          exact ⟨tail, by rw [hname.1]⟩
        · simp [endTagOf, List.takeWhile_cons_of_neg hin] at hname
  refine legible_of_readMarkup ('/' :: c :: (tail ++ ['>'])) rfl fun rest => ?_
  have hread := readEndTag?_eq_some_iff.mpr
    ⟨c :: tail, hbody, rfl, (rfl : c :: tail ++ '>' :: rest = _)⟩
  have htext : '/' :: c :: (tail ++ ['>']) ++ rest = '/' :: c :: (tail ++ '>' :: rest) := by simp
  rw [htext, readMarkup_endTag halpha]
  simp only [List.cons_append] at hread
  rw [hread]
  rfl

/-- A raw text element with content behind its start tag is read as the content is. -/
theorem ofText_rawElement {tag : StartTag} (hfits : tag.Fits) (hnamed : Named tag.name)
    (hraw : tag.takesRawText = true) (text : List Char) :
    ofText (tag.text ++ text) =
      rawElement tag (readRawText tag.name text).1 (readRawText tag.name text).2.1 ::
        ofText (readRawText tag.name text).2.2 := by
  obtain ⟨c, others, hname, halpha⟩ := hnamed
  have hread := StartTag.read?_eq_some_iff.mpr ⟨hfits, (rfl : tag.body ++ text = _)⟩
  obtain ⟨tail, htail⟩ : ∃ tail, tag.body ++ text = c :: tail := by
    rw [StartTag.body, hname]
    exact ⟨_, rfl⟩
  rw [StartTag.text, List.cons_append, ofText_bracket]
  rw [htail] at hread ⊢
  have hstart : readMarkup (c :: tail) =
      (rawElement tag (readRawText tag.name text).1 (readRawText tag.name text).2.1,
        (readRawText tag.name text).2.2) := by
    rw [readMarkup_startTag halpha, readStartTag, hread]
    exact if_pos hraw
  rw [hstart]

theorem legible_rawElement {tag : StartTag} {content : List Char} {close : EndTag}
    (hfits : tag.Fits) (hnamed : Named tag.name) (hraw : tag.takesRawText = true)
    (hencloses : Encloses tag.name content (some close)) :
    (rawElement tag content (some close)).Legible := by
  intro rest
  have hread := hencloses.2 rest
  have htext : (rawElement tag content (some close)).source ++ rest =
      tag.text ++ (content ++ (close.raw ++ rest)) := by simp [source, closeText]
  rw [htext, ofText_rawElement hfits hnamed hraw, hread]

theorem source_ofLeaf (kind : LeafKind) (content : List Char) :
    (ofLeaf kind content).source = content := by
  cases kind <;> rfl

theorem legible_ofLeaf {kind : LeafKind} {content : List Char} (hkind : kind ≠ .text)
    (hfits : (ofLeaf kind content).Fits) :
    (ofLeaf kind content).isMarkup = true ∧ (ofLeaf kind content).Legible := by
  cases kind with
  | text => exact absurd rfl hkind
  | comment => exact ⟨rfl, hfits⟩
  | verbatim => exact ⟨rfl, hfits⟩
  | doctype => exact ⟨rfl, hfits⟩

theorem getLast?_of_readMarkup {rest content : List Char} {kind : LeafKind} (hkind : kind ≠ .text)
    (hread : (readMarkup rest).1 = ofLeaf kind content) : content.getLast? = some '>' := by
  have huntil : ∀ {construct : Construct} {token : List Char → Token} {opening pattern : List Char}
      {text : List Char}, pattern.getLast? = some '>' →
      (∀ raw, token raw = ofLeaf kind content → raw = content) →
      (readUntil construct token opening pattern text).1 = ofLeaf kind content →
      content.getLast? = some '>' := by
    intro construct token opening pattern text hpattern htoken hread
    unfold readUntil at hread
    split at hread
    next body after _ =>
      rw [← htoken _ hread]
      simp [List.getLast?_append, hpattern]
    next => cases kind <;> simp [ofLeaf] at hread hkind
  rcases opens_cases rest with hopens | ⟨body, rfl⟩ | ⟨body, rfl⟩ | hdeclares |
    ⟨c, body, halpha, rfl⟩ | ⟨c, body, halpha, rfl⟩
  · rw [readMarkup_of_not_opens hopens] at hread
    cases kind <;> simp [ofLeaf] at hread hkind
  · rw [readMarkup_comment] at hread
    exact huntil rfl (fun raw htoken => by cases kind <;> simp_all [ofLeaf]) hread
  · rw [readMarkup_cdata] at hread
    exact huntil rfl (fun raw htoken => by cases kind <;> simp_all [ofLeaf]) hread
  · rw [readMarkup_declaration hdeclares] at hread
    exact huntil rfl (fun raw htoken => by cases kind <;> simp_all [ofLeaf]) hread
  · rw [readMarkup_endTag halpha] at hread
    split at hread <;> cases kind <;> simp [ofLeaf] at hread hkind
  · rw [readMarkup_startTag halpha, readStartTag] at hread
    split at hread
    next => cases kind <;> simp [ofLeaf] at hread hkind
    next => split at hread <;> cases kind <;> simp [ofLeaf] at hread hkind

/-- What is neither running text nor an element ends with an angle bracket. -/
theorem getLast?_of_fits {kind : LeafKind} {content : List Char} (hkind : kind ≠ .text)
    (hfits : (ofLeaf kind content).Fits) : content.getLast? = some '>' := by
  obtain ⟨hmarkup, hlegible⟩ := legible_ofLeaf hkind hfits
  obtain ⟨tail, htail⟩ := hlegible.exists_source hmarkup
  have hread := hlegible []
  rw [htail, List.append_nil, ofText_bracket] at hread
  exact getLast?_of_readMarkup hkind (List.cons.inj hread).1

end Token

end Markup
