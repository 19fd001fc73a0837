import Mathlib.Order.Bounds.Basic
import Mathlib.Order.Nat
import Markup.Proofs.Reading.Truncation
import Markup.Proofs.Tree.Closing

/-!
# Where raw text ends

Nothing in raw text is markup but the first end tag with the name of the element, however the
letters of the name are written. An end tag that never ends is none, and the rest of the text is raw
text then.

The tree does not say what was behind an element when its content was read, so the element is traced
to its token: the raw text elements of a tree are tokens of the text, and stand where these stand.
Main statement: `Document.rawText_of_parse`.
-/

namespace Markup

open Markup.Text

/-! ## First places in a text -/

namespace Text

/-- The character stands at this offset of the text. -/
def CharAt (text : List Char) (c : Char) (offset : Nat) : Prop :=
  ∃ before after, text = before ++ c :: after ∧ offset = byteSize before

/-- An end tag with the name begins at this offset of the text: the name, in any case, has a blank,
the end of a tag or the end of the text behind it. -/
def EndTagAt (text name : List Char) (offset : Nat) : Prop :=
  ∃ before written after, text = before ++ '<' :: '/' :: (written ++ after) ∧
    offset = byteSize before ∧ sameName written name = true ∧
      ∀ c ∈ after.head?, isBlank c = true ∨ c = '>' ∨ c = '/'

/-- A text that is cut at two places is cut at the later one behind the earlier one. -/
theorem exists_between {front rest before after : List Char}
    (htext : front ++ rest = before ++ after) (hle : byteSize front ≤ byteSize before) :
    ∃ between, before = front ++ between ∧ rest = between ++ after := by
  rcases List.append_eq_append_iff.mp
    htext with ⟨between, hbefore, hrest⟩ | ⟨between, hfront, hafter⟩
  · exact ⟨between, hbefore, hrest⟩
  · have hempty : between = [] := by
      by_contra hne
      have hpos := byteSize_pos hne
      rw [hfront, byteSize_append] at hle
      omega
    exact ⟨[], by simp [hfront, hempty], by simp [hafter, hempty]⟩

end Text

namespace Token

variable {name content close rest after : List Char}

theorem endsHere_iff : endsHere name rest = true ↔
    ∃ written after, rest = '<' :: '/' :: (written ++ after) ∧ sameName written name = true ∧
      ∀ c ∈ after.head?, isBlank c = true ∨ c = '>' ∨ c = '/' := by
  unfold endsHere
  constructor
  · intro hends
    split at hends
    next => cases hends
    next behind hdrop =>
      obtain ⟨hsame, hstop⟩ := Bool.and_eq_true_iff.mp hends
      refine ⟨behind.take name.length, behind.drop name.length, ?_, hsame, fun c hc => ?_⟩
      · rw [List.take_append_drop]
        exact dropStart?_eq_some_iff.mp hdrop
      · cases hbehind : behind.drop name.length with
        | nil => simp [hbehind] at hc
        | cons d others =>
            obtain rfl : d = c := by simpa [hbehind] using hc
            simpa [hbehind, or_assoc] using hstop
  · rintro ⟨written, after, rfl, hsame, hstop⟩
    have hdrop : dropStart? ['<', '/'] ('<' :: '/' :: (written ++ after)) =
        some (written ++ after) :=
      dropStart?_eq_some_iff.mpr rfl
    have hlength : name.length = written.length := by
      simpa using congrArg List.length (beq_iff_eq.mp hsame).symm
    rw [hdrop, hlength]
    dsimp only
    rw [List.take_left, List.drop_left, hsame, Bool.true_and]
    cases after with
    | nil => rfl
    | cons c others => simpa [or_assoc] using hstop c rfl

theorem endTagAt_iff {text : List Char} {offset : Nat} : EndTagAt text name offset ↔
    ∃ before after, text = before ++ after ∧ offset = byteSize before ∧
      endsHere name after = true := by
  constructor
  · rintro ⟨before, written, after, htext, hoffset, hsame, hstop⟩
    exact ⟨before, _, htext, hoffset, endsHere_iff.mpr ⟨written, after, rfl, hsame, hstop⟩⟩
  · rintro ⟨before, behind, htext, hoffset, hends⟩
    obtain ⟨written, after, rfl, hsame, hstop⟩ := endsHere_iff.mp hends
    exact ⟨before, written, after, htext, hoffset, hsame, hstop⟩

theorem endsHere_eq_false_of_splitAtEnd (hnone : splitAtEnd name rest = none) {before : List Char}
    (hrest : rest = before ++ after) : endsHere name after = false := by
  induction rest generalizing before with
  | nil =>
      obtain ⟨-, rfl⟩ := List.append_eq_nil_iff.mp hrest.symm
      rfl
  | cons c others ih =>
      rw [splitAtEnd] at hnone
      split at hnone
      next => cases hnone
      next hends =>
        cases before with
        | nil =>
            rw [List.nil_append] at hrest
            exact hrest ▸ Bool.eq_false_iff.mpr hends
        | cons d before =>
            exact ih (Option.map_eq_none_iff.mp hnone) (List.cons.inj hrest).2

/-- No end tag begins in front of the one that a text is split at. -/
theorem isPrefix_of_splitAtEnd (hsplit : splitAtEnd name rest = some (content, close))
    {before : List Char} (hrest : rest = before ++ after) (hends : endsHere name after = true) :
    content <+: before := by
  induction rest generalizing before content with
  | nil => cases hsplit
  | cons c others ih =>
      rw [splitAtEnd] at hsplit
      split at hsplit
      next =>
        obtain ⟨rfl, -⟩ := Prod.mk.inj (Option.some.inj hsplit)
        exact List.nil_prefix
      next hnot =>
        obtain ⟨⟨found, tail⟩, hfound, heq⟩ := Option.map_eq_some_iff.mp hsplit
        obtain ⟨rfl, rfl⟩ := Prod.mk.inj heq
        cases before with
        | nil => exact absurd (hrest ▸ hends) hnot
        | cons d before =>
            obtain ⟨rfl, hothers⟩ := List.cons.inj hrest
            exact List.cons_prefix_cons.mpr ⟨rfl, ih hfound hothers⟩

/-- Raw text is split at the first place where an end tag begins. -/
theorem isLeast_of_splitAtEnd (front : List Char)
    (hsplit : splitAtEnd name rest = some (content, close)) :
    IsLeast {offset | byteSize front ≤ offset ∧ EndTagAt (front ++ rest) name offset}
      (byteSize (front ++ content)) := by
  refine ⟨⟨by simp, endTagAt_iff.mpr ⟨front ++ content, close, ?_, rfl,
    endsHere_of_splitAtEnd hsplit⟩⟩, ?_⟩
  · rw [← splitAtEnd_append hsplit, List.append_assoc]
  · rintro offset ⟨hle, hbegins⟩
    obtain ⟨before, after, htext, rfl, hends⟩ := endTagAt_iff.mp hbegins
    obtain ⟨between, rfl, hrest⟩ := exists_between htext hle
    obtain ⟨more, rfl⟩ := isPrefix_of_splitAtEnd hsplit hrest hends
    simp only [byteSize_append]
    omega

theorem not_endTagAt_of_splitAtEnd {front : List Char} (hnone : splitAtEnd name rest = none)
    {offset : Nat} (hle : byteSize front ≤ offset) : ¬EndTagAt (front ++ rest) name offset := by
  intro hbegins
  obtain ⟨before, after, htext, rfl, hends⟩ := endTagAt_iff.mp hbegins
  obtain ⟨between, rfl, hrest⟩ := exists_between htext hle
  simp [endsHere_eq_false_of_splitAtEnd hnone hrest] at hends

/-- An end tag goes up to the first angle bracket that can end it. -/
theorem isLeast_of_readEndTag? (front : List Char) {tag : EndTag}
    (hread : readEndTag? close = some (tag, after)) :
    ∃ last, IsLeast {offset | byteSize front ≤ offset ∧ CharAt (front ++ close) '>' offset} last ∧
      byteSize (front ++ tag.raw) = last + 1 := by
  obtain ⟨⟨raw, behind⟩, hsplit, heq⟩ := Option.map_eq_some_iff.mp hread
  obtain ⟨rfl, rfl⟩ := Prod.mk.inj heq
  obtain ⟨hnot, rfl⟩ := splitAround_singleton_iff.mp hsplit
  refine ⟨byteSize (front ++ raw), ⟨⟨by simp, front ++ raw, behind, by simp, rfl⟩, ?_⟩, ?_⟩
  · rintro offset ⟨hle, before, after, htext, rfl⟩
    obtain ⟨between, rfl, hclose⟩ := exists_between htext hle
    rcases List.append_eq_append_iff.mp hclose with ⟨more, rfl, -⟩ | ⟨more, rfl, hafter⟩
    · simp only [byteSize_append]
      omega
    · cases more with
      | nil => simp
      | cons d more =>
          obtain ⟨rfl, -⟩ := List.cons.inj hafter
          simp at hnot
  · have hangle : '>'.utf8Size = 1 := rfl
    simp [endTagOf, hangle, Nat.add_assoc]

theorem not_charAt_of_readEndTag? {front : List Char} (hnone : readEndTag? close = none)
    {offset : Nat} (hle : byteSize front ≤ offset) : ¬CharAt (front ++ close) '>' offset := by
  rintro ⟨before, after, htext, rfl⟩
  obtain ⟨between, -, hclose⟩ := exists_between htext hle
  have hnot := splitAround_singleton_eq_none_iff.mp (Option.map_eq_none_iff.mp hnone)
  simp [hclose] at hnot

/-- How raw text is read: up to the first end tag with its name and through the first angle bracket
from there on, or else to the end of the text. -/
theorem readRawText_cases (front : List Char) {found : Option EndTag}
    (hread : readRawText name rest = (content, found, after)) :
    (∃ tag first last, found = some tag ∧
      IsLeast {offset | byteSize front ≤ offset ∧ EndTagAt (front ++ rest) name offset} first ∧
      IsLeast {offset | first ≤ offset ∧ CharAt (front ++ rest) '>' offset} last ∧
      byteSize (front ++ content) = first ∧ byteSize (front ++ content ++ tag.raw) = last + 1) ∨
    found = none ∧ content = rest ∧ after = [] ∧
      ∀ first, IsLeast {offset | byteSize front ≤ offset ∧
        EndTagAt (front ++ rest) name offset} first →
        ∀ offset, first ≤ offset → ¬CharAt (front ++ rest) '>' offset := by
  unfold readRawText at hread
  split at hread
  next hsplit =>
    simp only [Prod.mk.injEq] at hread
    obtain ⟨rfl, rfl, rfl⟩ := hread
    exact .inr ⟨rfl, rfl, rfl, fun first hfirst =>
      absurd hfirst.1.2 (not_endTagAt_of_splitAtEnd hsplit hfirst.1.1)⟩
  next start close hsplit =>
    have hfirst := isLeast_of_splitAtEnd front hsplit
    have htext : front ++ rest = front ++ start ++ close := by
      rw [← splitAtEnd_append hsplit, List.append_assoc]
    split at hread
    next hend =>
      simp only [Prod.mk.injEq] at hread
      obtain ⟨rfl, rfl, rfl⟩ := hread
      refine .inr ⟨rfl, rfl, rfl, fun first hleast offset hle => ?_⟩
      rw [htext]
      exact not_charAt_of_readEndTag? hend (hfirst.unique hleast ▸ hle)
    next tag behind hend =>
      simp only [Prod.mk.injEq] at hread
      obtain ⟨rfl, rfl, rfl⟩ := hread
      obtain ⟨last, hlast, hsize⟩ := isLeast_of_readEndTag? (front ++ start) hend
      rw [← htext] at hlast
      exact .inl ⟨tag, _, last, rfl, hfirst, hlast, rfl, hsize⟩

end Token

/-! ## Elements and their tokens -/

/-- No name of raw text elements is one of elements without content. -/
theorem Tag.isVoid_of_isRawText {name : List Char} (hraw : isRawText name = true) :
    isVoid name = false := by
  have hapart : ∀ entry ∈ rawTextNames, isVoid entry.toList = false := by decide
  obtain ⟨entry, hentry, hsame⟩ := List.any_eq_true.mp hraw
  have hcase : entry.toList.map Char.toLower = name.map Char.toLower := by
    simpa [sameName] using hsame
  rw [← hapart entry hentry]
  simp only [isVoid, listed, sameName, hcase]

/-- A raw text element that is one of the tokens at the start of a text, and stands where it
stands. -/
def Token.Yields (tokens : List Token) (elem : Element) (children : List Node) : Prop :=
  ∃ front back, tokens = front ++ .rawElement elem.tag (Node.textOfAll children) elem.endTag ::
    back ∧ elem.opened.start = byteSize (front.flatMap source)

/-- All raw text elements among the nodes and inside them are among the tokens. -/
def Node.Drawn (tokens : List Token) (nodes : List Node) : Prop :=
  ∀ elem children, .element elem children ∈ preorderAll nodes → elem.tag.takesRawText = true →
    Token.Yields tokens elem children

namespace Node

variable {tokens : List Token}

theorem Drawn.mono {nodes : List Node} (hdrawn : Drawn tokens nodes) (more : List Token) :
    Drawn (tokens ++ more) nodes := by
  intro elem children hmem hraw
  obtain ⟨front, back, rfl, hstart⟩ := hdrawn elem children hmem hraw
  exact ⟨front, back ++ more, by simp, hstart⟩

theorem Drawn.concat {nodes : List Node} {added : Node} (hdrawn : Drawn tokens nodes)
    (hadded : Drawn tokens [added]) : Drawn tokens (nodes ++ [added]) := by
  intro elem children hmem
  rw [preorderAll_append] at hmem
  exact (List.mem_append.mp hmem).elim (hdrawn elem children) (hadded elem children)

theorem drawn_nil : Drawn tokens [] := by
  simp [Drawn, preorderAll]

theorem drawn_leaf (piece : Leaf) : Drawn tokens [.leaf piece] := by
  simp [Drawn, preorderAll, preorder]

theorem drawn_element {elem : Element} {children : List Node}
    (hself : elem.tag.takesRawText = true → Token.Yields tokens elem children)
    (hinside : Drawn tokens children) : Drawn tokens [.element elem children] := by
  intro inner inside hmem
  simp only [preorderAll, preorder, List.append_nil, List.mem_cons, Node.element.injEq] at hmem
  rcases hmem with ⟨rfl, rfl⟩ | hmem
  · exact hself
  · exact hinside inner inside hmem

end Node

namespace Nesting

/-- The raw text elements so far are among the tokens, and no other raw text element is open. -/
def Drawn (tokens : List Token) (open_ : Nesting) : Prop :=
  open_.Rowwise (fun tag => tag.takesRawText = false) (Node.Drawn tokens)

theorem Drawn.mono {tokens : List Token} {open_ : Nesting} (hdrawn : open_.Drawn tokens)
    (more : List Token) : open_.Drawn (tokens ++ more) :=
  Rowwise.mono (fun _ hrow => hrow.mono more) hdrawn

theorem drawn_laws (tokens : List Token) :
    RowLaws (fun tag => tag.takesRawText = false) (fun _ => True) (Node.Drawn tokens) where
  nil := Node.drawn_nil
  concat := Node.Drawn.concat
  text _ _ := Node.drawn_leaf _
  leaf _ _ := Node.drawn_leaf _
  opened hfits _ := hfits.2.2
  ended _ := trivial
  alone hfits _ := Node.drawn_element (fun hraw => absurd hraw (by simp [hfits.2.2])) Node.drawn_nil
  element hopened _ := Node.drawn_element fun hraw => absurd hraw (by simp [hopened])

end Nesting

namespace Builder

/-- What was read is the tokens, and the raw text elements so far are among them. -/
structure Drawn (tokens : List Token) (builder : Builder) : Prop where
  read : builder.HasRead (tokens.flatMap Token.source)
  nesting : builder.nesting.Drawn tokens

variable {tokens : List Token} {builder : Builder}

/-- A raw text element is added where its token stands. -/
theorem drawn_addRawElement {tag : StartTag} {content : List Char} {close : Option EndTag}
    (hdrawn : builder.nesting.Drawn tokens)
    (hposition : builder.position = byteSize (tokens.flatMap Token.source)) :
    (builder.addRawElement tag content close).nesting.Drawn
      (tokens ++ [.rawElement tag content close]) := by
  obtain ⟨elem, children, rfl, rfl, rfl, hstart, hverbatim, hadded⟩ :=
    builder.nesting_addRawElement tag content close
  rw [hadded]
  refine (Nesting.drawn_laws _).append (hdrawn.mono _)
    (Node.drawn_element (fun _ => ⟨tokens, [], rfl, ?_⟩) ?_)
  · rw [hstart, hposition]
  · intro inner inside hmem
    rcases hverbatim with rfl | ⟨piece, rfl, -⟩ <;> simp [Node.preorderAll, Node.preorder] at hmem

theorem Drawn.add {added : Builder} {token : Token} (hdrawn : builder.Drawn tokens)
    (hfits : token.Fits) (hadd : builder.add token = .ok added) :
    added.Drawn (tokens ++ [token]) := by
  obtain ⟨hread, hnesting⟩ := hdrawn
  refine ⟨by simpa using hread.add hadd, ?_⟩
  have hlaws := Nesting.drawn_laws (tokens ++ [token])
  have hmore := hnesting.mono [token]
  cases token with
  | text raw => cases hadd; exact hmore
  | unterminated construct raw => cases hadd; exact hmore
  | comment raw => cases hadd; exact hlaws.addLeaf (by simp) hfits (hlaws.flush hmore)
  | cdata raw => cases hadd; exact hlaws.addLeaf (by simp) hfits (hlaws.flush hmore)
  | declaration raw => cases hadd; exact hlaws.addLeaf (by simp) hfits (hlaws.flush hmore)
  | endTag tag => cases hadd; exact hlaws.endElement hfits hmore
  | startTag tag =>
      obtain ⟨prepared, hprepare, hstart⟩ := bind_eq_ok_iff.mp hadd
      cases hstart
      exact hlaws.startElement hfits (hlaws.prepare hmore hprepare)
  | rawElement tag content close =>
      obtain ⟨prepared, hprepare, hstart⟩ := bind_eq_ok_iff.mp hadd
      cases hstart
      exact drawn_addRawElement ((Nesting.drawn_laws tokens).prepare hnesting hprepare)
        (hread.position_prepare hprepare)

theorem Drawn.addAll {final : Builder} {more : List Token} (hdrawn : builder.Drawn tokens)
    (hfits : ∀ token ∈ more, token.Fits) (haddAll : builder.addAll more = .ok final) :
    final.Drawn (tokens ++ more) := by
  induction more generalizing builder tokens with
  | nil => cases haddAll; simpa using hdrawn
  | cons token rest ih =>
      obtain ⟨added, hadd, hrest⟩ := addAll_eq_ok_cons.mp haddAll
      obtain ⟨hfirst, hothers⟩ := List.forall_mem_cons.mp hfits
      simpa using ih (hdrawn.add hfirst hadd) hothers hrest

end Builder

namespace Document

/-- The raw text elements of a tree are among the tokens of the text. -/
theorem drawn_of_parse {text : List Char} {document : Document}
    (hparse : parse text = .ok document) :
    Node.Drawn (Token.ofText text) document.children := by
  obtain ⟨builder, haddAll, rfl⟩ := parse_eq_ok_iff.mp hparse
  have hstart : ({} : Builder).Drawn [] :=
    ⟨Builder.hasRead_of_waiting rfl rfl, Node.drawn_nil, by simp⟩
  have hdrawn := hstart.addAll (fun _ => Token.fits_of_mem_ofText) haddAll
  rw [List.nil_append] at hdrawn
  have hlaws := Nesting.drawn_laws (Token.ofText text)
  exact (hlaws.popMany (hlaws.flush hdrawn.nesting) _ _).finished

/-- A raw text element has behind its start tag what its content was read from. -/
theorem exists_rest_of_parse {text : List Char} {document : Document} {elem : Element}
    {children : List Node} (hparse : parse text = .ok document)
    (hmem : .element elem children ∈ Node.preorderAll document.children)
    (hraw : elem.tag.takesRawText = true) :
    ∃ front rest after, text = front ++ rest ∧ elem.opened.stop = byteSize front ∧
      Token.readRawText elem.name rest = (Node.textOfAll children, elem.endTag, after) := by
  obtain ⟨before, behind, hcut, hstart⟩ := drawn_of_parse hparse elem children hmem hraw
  obtain ⟨place, following, -, hopened, -⟩ := exists_lies_of_parse hparse hmem
  have hfits : Token.Fits (.rawElement elem.tag (Node.textOfAll children) elem.endTag) :=
    Token.fits_of_mem_ofText (by rw [hcut]; simp)
  obtain ⟨hgrammar, hnamed, -, -⟩ := hfits
  have htext := flatMap_source_of_cut hcut
  have hlater := Token.ofText_flatMap_source_of_suffix hcut
  simp only [List.flatMap_cons, Token.source, List.append_assoc] at htext hlater
  rw [Token.ofText_rawElement hgrammar hnamed hraw] at hlater
  obtain ⟨htoken, -⟩ := List.cons.inj hlater
  obtain ⟨-, hcontent, hclose⟩ := Token.rawElement.inj htoken
  refine ⟨before.flatMap Token.source ++ elem.tag.text, _, _, by rw [htext, List.append_assoc], ?_,
    Prod.ext hcontent (Prod.ext hclose rfl)⟩
  rw [byteSize_append, ← hstart, hopened]

/-- Raw text goes up to the first end tag with the name of its element, which goes through the first
angle bracket from there on. Where there is no such bracket, or no such end tag, the element has no
end tag and its content is the rest of the text. What follows the element begins where the element
ends. -/
theorem rawText_of_parse {text : List Char} {document : Document} {elem : Element}
    {children : List Node} (hparse : parse text = .ok document)
    (hmem : .element elem children ∈ Node.preorderAll document.children)
    (hraw : Tag.isRawText elem.name = true) (hplain : elem.tag.ending = .plain) :
    (∀ first last,
      IsLeast {offset | elem.opened.stop ≤ offset ∧ EndTagAt text elem.name offset} first →
      IsLeast {offset | first ≤ offset ∧ CharAt text '>' offset} last →
        elem.content = ⟨elem.opened.stop, first⟩ ∧ elem.closed = ⟨first, last + 1⟩ ∧
          elem.endTag.isSome = true) ∧
    ((¬∃ first last,
      IsLeast {offset | elem.opened.stop ≤ offset ∧ EndTagAt text elem.name offset} first ∧
      first ≤ last ∧ CharAt text '>' last) →
        elem.endTag = none ∧ elem.content = ⟨elem.opened.stop, byteSize text⟩) ∧
    ∀ container row before behind, document.Level container row →
      row = before ++ .element elem children :: behind →
        Span.Tile (behind.map Node.span) elem.span.stop (document.inside container).stop := by
  have htakes : elem.tag.takesRawText = true := by
    have hvoid : Tag.isVoid elem.tag.name = false := Tag.isVoid_of_isRawText hraw
    have hname : Tag.isRawText elem.tag.name = true := hraw
    simp [StartTag.takesRawText, hplain, hvoid, hname]
  obtain ⟨front, rest, after, htext, hopened, hread⟩ := exists_rest_of_parse hparse hmem htakes
  obtain ⟨place, following, -, hspan, -, hclosed⟩ := exists_lies_of_parse hparse hmem
  have hcontent : elem.closed.start = byteSize (front ++ Node.textOfAll children) := by
    rw [byteSize_append, ← hopened, hclosed, hspan]
  have hstop : elem.closed.stop = byteSize (front ++ Node.textOfAll children ++ elem.endText) := by
    rw [byteSize_append, ← hcontent, hclosed]
  refine ⟨?_, ?_, ?_⟩
  · intro first last hfirst hlast
    rw [htext, hopened] at hfirst
    rw [htext] at hlast
    rcases Token.readRawText_cases front hread with
      ⟨tag, begins, ends, htag, hbegins, hends, hsize, hlength⟩ | ⟨-, -, -, hnever⟩
    · obtain rfl := hbegins.unique hfirst
      obtain rfl := hends.unique hlast
      rw [Element.endText, htag] at hstop
      rw [hsize] at hcontent
      rw [hlength] at hstop
      refine ⟨by rw [Element.content, hcontent], ?_, by rw [htag]; rfl⟩
      rw [← hcontent, ← hstop]
    · exact absurd hlast.1.2 (hnever first hfirst last hlast.1.1)
  · intro hnone
    rw [htext, hopened] at hnone
    rcases Token.readRawText_cases front hread with
      ⟨tag, begins, ends, -, hbegins, hends, -⟩ | ⟨htag, hrest, -, -⟩
    · exact absurd ⟨begins, ends, hbegins, hends.1⟩ hnone
    · refine ⟨htag, ?_⟩
      rw [Element.content, hcontent, hrest, htext]
  · intro container row before behind hlevel hrow
    have htile := tile_of_level hparse hlevel
    rw [hrow, List.map_append] at htile
    rw [List.map_cons, Span.tile_append] at htile
    exact htile.2.2

/-- A script with the end tag of another element in it, in a paragraph that goes on behind it. -/
theorem rawText_of_parse_script :
    let text := "<p><script>a</b></Script x>y</p>".toList
    let script : Element := ⟨1, ⟨"script".toList, [], [], .plain⟩,
      some ⟨"Script".toList, "</Script x>".toList⟩, ⟨3, 11⟩, ⟨16, 27⟩⟩
    let content : Leaf := ⟨.verbatim, 2, "a</b>".toList, ⟨11, 16⟩⟩
    let behind : Node := .leaf ⟨.text, 3, ['y'], ⟨27, 28⟩⟩
    let paragraph : Element :=
      ⟨0, ⟨['p'], [], [], .plain⟩, some ⟨['p'], "</p>".toList⟩, ⟨0, 3⟩, ⟨28, 32⟩⟩
    ∃ document, parse text = .ok document ∧
      document.Level (some paragraph) [.element script [.leaf content], behind] ∧
      Tag.isRawText script.name = true ∧ script.tag.ending = .plain ∧
      IsLeast {offset | script.opened.stop ≤ offset ∧ EndTagAt text script.name offset} 16 ∧
      IsLeast {offset | 16 ≤ offset ∧ CharAt text '>' offset} 26 ∧
      Span.Tile [behind.span] script.span.stop (document.inside (some paragraph)).stop := by
  intro text script content behind paragraph
  let tree : List Node := [.element paragraph [.element script [.leaf content], behind]]
  have hparse : parse text = .ok ⟨text, tree, 4, []⟩ := by
    with_unfolding_all rfl
  have hlevel : (Document.mk text tree 4 []).Level (some paragraph)
      [.element script [.leaf content], behind] := by
    simp [Level, tree, Node.preorderAll, Node.preorder]
  have hmem : .element script [.leaf content] ∈ Node.preorderAll tree := by
    simp [tree, Node.preorderAll, Node.preorder]
  obtain ⟨hends, hnever, hnext⟩ := rawText_of_parse hparse hmem (by decide) rfl
  obtain ⟨first, last, hfirst, hle, hlast⟩ := not_not.mp (mt hnever nofun)
  classical
  have hbracket : ∃ offset, first ≤ offset ∧ CharAt text '>' offset := ⟨last, hle, hlast⟩
  have hleast := Nat.isLeast_find hbracket
  obtain ⟨hcontent, hclosed, -⟩ := hends first _ hfirst hleast
  obtain rfl : 16 = first := congrArg Span.stop hcontent
  have hstop : 27 = Nat.find hbracket + 1 := congrArg Span.stop hclosed
  rw [← Nat.succ.inj hstop] at hleast
  exact ⟨_, hparse, hlevel, by decide, rfl, hfirst, hleast, hnext _ _ [] [behind] hlevel rfl⟩

end Document

end Markup
