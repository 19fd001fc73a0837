import Markup.Text.Blank
import Markup.Tag.Basic
import Markup.Tag.Kinds
import Markup.Tag.Reading

/-!
# Tokens

A text is cut into tokens without looking at which elements are open: running text, comments,
declarations and tags. The only content that a token takes with it is that of a raw text element,
since what stands there is not markup. Cutting never fails and loses nothing: a construct that
does not end before the text does is a last token of its own. Main statement:
`flatMap_source_ofText`, which says that the tokens of a text, written one after the other, are the
text.
-/

namespace Markup

open Markup.Text

/-- The constructs that have to be ended. -/
inductive Construct where
  | comment
  | cdata
  | declaration
  | endTag
  | startTag
  deriving DecidableEq, Repr, Inhabited

namespace Construct

def label : Construct → String
  | comment => "comment"
  | cdata => "CDATA section"
  | declaration => "declaration"
  | endTag => "end tag"
  | startTag => "start tag"

end Construct

/-- A piece of the source. An angle bracket that begins no markup is a text of its own. -/
inductive Token where
  | text (raw : List Char)
  | comment (raw : List Char)
  | cdata (raw : List Char)
  | declaration (raw : List Char)
  | startTag (tag : StartTag)
  | endTag (tag : EndTag)
  | rawElement (tag : StartTag) (content : List Char) (close : Option EndTag)
  | unterminated (construct : Construct) (raw : List Char)
  deriving DecidableEq, Repr, Inhabited

namespace Token

/-! ## Reading a token -/

/-- The text of an optional end tag. -/
def closeText : Option EndTag → List Char
  | none => []
  | some tag => tag.raw

/-- The piece of the source that a token is. -/
def source : Token → List Char
  | text raw => raw
  | comment raw => raw
  | cdata raw => raw
  | declaration raw => raw
  | startTag tag => tag.text
  | endTag tag => tag.raw
  | rawElement tag content close => tag.text ++ (content ++ closeText close)
  | unterminated _ raw => raw

/-- Whether an end tag with this name begins here: behind the name there is a blank, the end of the
tag, or the end of the text. -/
def endsHere (name text : List Char) : Bool :=
  match dropStart? ['<', '/'] text with
  | none => false
  | some after =>
      sameName (after.take name.length) name &&
        match after.drop name.length with
        | [] => true
        | c :: _ => isBlank c || c == '>' || c == '/'

/-- Splits a text in front of the first end tag with this name. -/
def splitAtEnd (name : List Char) : List Char → Option (List Char × List Char)
  | [] => none
  | c :: rest =>
      if endsHere name (c :: rest) then some ([], c :: rest)
      else (splitAtEnd name rest).map fun (content, close) => (c :: content, close)

/-- The end tag with this text. -/
def endTagOf (raw : List Char) : EndTag :=
  ⟨(raw.drop 2).takeWhile Attribute.inTagName, raw⟩

/-- Reads an end tag from its angle bracket on, up to the first `>`. -/
def readEndTag? (text : List Char) : Option (EndTag × List Char) :=
  (splitAround ['>'] text).map fun (raw, after) => (endTagOf (raw ++ ['>']), after)

/-- Reads what follows the start tag of a raw text element: its content up to the first end tag
with its name, that end tag, and the rest. The content is all there is if no such end tag ends. -/
def readRawText (name text : List Char) : List Char × Option EndTag × List Char :=
  match splitAtEnd name text with
  | none => (text, none, [])
  | some (content, close) =>
      match readEndTag? close with
      | none => (text, none, [])
      | some (tag, after) => (content, some tag, after)

/-- A token that goes on until a pattern ends it. -/
def readUntil (construct : Construct) (token : List Char → Token)
    (opening pattern text : List Char) :
    Token × List Char :=
  match splitAround pattern text with
  | some (body, after) => (token (opening ++ (body ++ pattern)), after)
  | none => (unterminated construct (opening ++ text), [])

/-- Reads a start tag from the first character of its name on, and what belongs to the same
token. -/
def readStartTag (text : List Char) : Token × List Char :=
  match StartTag.read? text with
  | none => (unterminated .startTag ('<' :: text), [])
  | some (tag, after) =>
      if tag.ending = .plain && !Tag.isVoid tag.name && Tag.isRawText tag.name then
        let (content, close, rest) := readRawText tag.name after
        (rawElement tag content close, rest)
      else
        (startTag tag, after)

/-- Reads a token whose first character is an angle bracket, given what follows the bracket. -/
def readMarkup (rest : List Char) : Token × List Char :=
  match dropStart? ['!', '-', '-'] rest with
  | some body => readUntil .comment comment ['<', '!', '-', '-'] ['-', '-', '>'] body
  | none =>
      match dropStart? ['!', '[', 'C', 'D', 'A', 'T', 'A', '['] rest with
      | some _ => readUntil .cdata cdata ['<'] [']', ']', '>'] rest
      | none =>
          match rest with
          | '!' :: _ => readUntil .declaration declaration ['<'] ['>'] rest
          | '?' :: _ => readUntil .declaration declaration ['<'] ['>'] rest
          | '/' :: c :: _ =>
              if c.isAlpha then
                match readEndTag? ('<' :: rest) with
                | some (tag, after) => (endTag tag, after)
                | none => (unterminated .endTag ('<' :: rest), [])
              else (text ['<'], rest)
          | c :: _ => if c.isAlpha then readStartTag rest else (text ['<'], rest)
          | [] => (text ['<'], rest)

/-- Reads the first token of a text, given its first character and the others. -/
def read (c : Char) (rest : List Char) : Token × List Char :=
  if c = '<' then readMarkup rest
  else (text (c :: rest.takeWhile (· != '<')), rest.dropWhile (· != '<'))

/-! ## Reading loses nothing -/

theorem splitAtEnd_append {name text content close : List Char}
    (h : splitAtEnd name text = some (content, close)) : content ++ close = text := by
  induction text generalizing content with
  | nil => simp [splitAtEnd] at h
  | cons c rest ih =>
      unfold splitAtEnd at h
      split at h
      next =>
        obtain ⟨rfl, rfl⟩ := Prod.mk.inj (Option.some.inj h)
        rfl
      next =>
        obtain ⟨⟨found, tail⟩, hfound, heq⟩ := Option.map_eq_some_iff.mp h
        obtain ⟨rfl, rfl⟩ := Prod.mk.inj heq
        simp [ih hfound]

theorem readEndTag?_append {text after : List Char} {tag : EndTag}
    (h : readEndTag? text = some (tag, after)) : tag.raw ++ after = text := by
  obtain ⟨⟨raw, tail⟩, hfound, heq⟩ := Option.map_eq_some_iff.mp h
  obtain ⟨rfl, rfl⟩ := Prod.mk.inj heq
  simpa [endTagOf] using splitAround_append hfound

theorem readRawText_append (name text : List Char) :
    (readRawText name text).1 ++ (closeText (readRawText name text).2.1 ++
      (readRawText name text).2.2) = text := by
  unfold readRawText
  split
  next => simp [closeText]
  next content close hsplit =>
    split
    next => simp [closeText]
    next tag after htag =>
      rw [← splitAtEnd_append hsplit, ← readEndTag?_append htag]
      rfl

theorem readUntil_append (construct : Construct) {token : List Char → Token}
    (htoken : ∀ raw, (token raw).source = raw) (opening pattern text : List Char) :
    (readUntil construct token opening pattern text).1.source ++
      (readUntil construct token opening pattern text).2 = opening ++ text := by
  unfold readUntil
  split
  next body after h =>
    rw [htoken, ← splitAround_append h]
    simp
  next => simp [source]

theorem readStartTag_append (text : List Char) :
    (readStartTag text).1.source ++ (readStartTag text).2 = '<' :: text := by
  unfold readStartTag
  split
  next => simp [source]
  next tag after htag =>
    have htext := StartTag.read?_append htag
    split
    next =>
      have hraw := readRawText_append tag.name after
      simp only [source, StartTag.text, List.append_assoc, List.cons_append]
      rw [hraw, htext]
    next => simp [source, StartTag.text, htext]

theorem readMarkup_append (rest : List Char) :
    (readMarkup rest).1.source ++ (readMarkup rest).2 = '<' :: rest := by
  unfold readMarkup
  split
  next body hbody =>
    rw [readUntil_append _ (fun _ => rfl), dropStart?_eq_some_iff.mp hbody]
    rfl
  next =>
    split
    next => rw [readUntil_append _ (fun _ => rfl)]; rfl
    next =>
      split
      next => rw [readUntil_append _ (fun _ => rfl)]; rfl
      next => rw [readUntil_append _ (fun _ => rfl)]; rfl
      next =>
        split
        next =>
          split
          next tag after htag => exact readEndTag?_append htag
          next => simp [source]
        next => rfl
      next =>
        split
        next => exact readStartTag_append _
        next => rfl
      next => rfl

/-- Reading a token loses nothing. -/
theorem read_append (c : Char) (rest : List Char) :
    (read c rest).1.source ++ (read c rest).2 = c :: rest := by
  unfold read
  split
  next h => rw [readMarkup_append, h]
  next => simp [source, List.takeWhile_append_dropWhile]

/-! ## Reading goes forward -/

theorem readUntil_source_ne_nil (construct : Construct) {token : List Char → Token}
    (htoken : ∀ raw, (token raw).source = raw) {opening : List Char} (hopening : opening ≠ [])
    (pattern text : List Char) :
    (readUntil construct token opening pattern text).1.source ≠ [] := by
  unfold readUntil
  split
  next => simp [htoken, hopening]
  next => simp [source, hopening]

theorem readStartTag_source_ne_nil (text : List Char) : (readStartTag text).1.source ≠ [] := by
  unfold readStartTag
  split
  next => simp [source]
  next => split <;> simp [source, StartTag.text]

theorem readMarkup_source_ne_nil (rest : List Char) : (readMarkup rest).1.source ≠ [] := by
  unfold readMarkup
  split
  next => exact readUntil_source_ne_nil _ (fun _ => rfl) (by simp) _ _
  next =>
    split
    next => exact readUntil_source_ne_nil _ (fun _ => rfl) (by simp) _ _
    next =>
      split
      next => exact readUntil_source_ne_nil _ (fun _ => rfl) (by simp) _ _
      next => exact readUntil_source_ne_nil _ (fun _ => rfl) (by simp) _ _
      next =>
        split
        next =>
          split
          next tag after htag =>
            obtain ⟨found, _, heq⟩ := Option.map_eq_some_iff.mp htag
            obtain ⟨rfl, _⟩ := Prod.mk.inj heq
            simp [source, endTagOf]
          next => simp [source]
        next => simp [source]
      next =>
        split
        next => exact readStartTag_source_ne_nil _
        next => simp [source]
      next => simp [source]

/-- No token is empty. -/
theorem read_source_ne_nil (c : Char) (rest : List Char) : (read c rest).1.source ≠ [] := by
  unfold read
  split
  next => exact readMarkup_source_ne_nil rest
  next => simp [source]

/-- Reading a token takes at least one character. -/
theorem read_length_le (c : Char) (rest : List Char) : (read c rest).2.length ≤ rest.length := by
  have hloss := congrArg List.length (read_append c rest)
  have hpos := List.length_pos_iff.mpr (read_source_ne_nil c rest)
  simp only [List.length_append, List.length_cons] at hloss
  omega

/-! ## Cutting a text -/

/-- Cuts a text into tokens. -/
def ofText : List Char → List Token
  | [] => []
  | c :: rest => (read c rest).1 :: ofText (read c rest).2
termination_by text => text.length
decreasing_by
  have hle := read_length_le c rest
  simp only [List.length_cons]
  omega

/-- Cutting a text into tokens loses nothing. -/
theorem flatMap_source_ofText (text : List Char) : (ofText text).flatMap source = text := by
  fun_induction ofText text with
  | case1 => rfl
  | case2 c rest ih => rw [List.flatMap_cons, ih, read_append]

end Token

end Markup
