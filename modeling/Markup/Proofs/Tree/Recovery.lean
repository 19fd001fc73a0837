import Markup.Proofs.Tree.Closing
import Markup.Proofs.Tree.Depth

/-!
# What is kept in front of a construct that never ends

A construct that never ends takes all there is, so that it is the last token of a text and the only
one that is reported. It becomes text: the text in front of it goes on with it, or it is a new node
where no text stands in front of it. Either way the elements that are open there end with the whole
text, and nothing else of the tree so far changes. Main statement: `Document.recovers_of_parse`.
-/

namespace Markup

open Markup.Text

/-! ## Constructs that never end -/

namespace Token

/-- Whether a token is a construct that never ends. -/
def hangs : Token → Bool
  | unterminated _ _ => true
  | _ => false

/-- Nothing follows a construct that never ends. -/
theorem read_of_hangs {c : Char} {rest : List Char} (hhangs : (read c rest).1.hangs = true) :
    (read c rest).2 = [] := by
  unfold read at hhangs ⊢
  split
  next hc =>
    rw [if_pos hc] at hhangs
    have hread := readAs_readMarkup rest
    generalize readMarkup rest = found at hhangs hread ⊢
    cases hread with
    | bracket hopens => cases hhangs
    | hanging construct => rfl
    | @markup token after hmarkup hfits =>
        cases token with
        | unterminated construct raw => simp [isMarkup] at hmarkup
        | _ => cases hhangs
  next hc =>
    rw [if_neg hc] at hhangs
    cases hhangs

/-- A construct that never ends is the last token of a text. -/
theorem eq_nil_of_hangs {text : List Char} {front back : List Token} {token : Token}
    (hcut : ofText text = front ++ token :: back) (hhangs : token.hangs = true) : back = [] := by
  have hsuffix := ofText_flatMap_source_of_suffix hcut
  cases htext : (token :: back).flatMap source with
  | nil =>
      rw [htext, ofText] at hsuffix
      cases hsuffix
  | cons c rest =>
      rw [htext, ofText_cons] at hsuffix
      obtain ⟨rfl, hback⟩ := List.cons.inj hsuffix
      rw [← hback, read_of_hangs hhangs, ofText]

/-- The tokens of a text all end, but for the last. -/
theorem hangs_cases (text : List Char) :
    (∀ token ∈ ofText text, token.hangs = false) ∨
      ∃ front construct raw, ofText text = front ++ [.unterminated construct raw] ∧
        ∀ token ∈ front, token.hangs = false := by
  by_cases hends : ∀ token ∈ ofText text, token.hangs = false
  · exact .inl hends
  · simp only [not_forall, Bool.not_eq_false] at hends
    obtain ⟨token, hmem, hhangs⟩ := hends
    obtain ⟨front, back, hcut⟩ := List.append_of_mem hmem
    obtain rfl := eq_nil_of_hangs hcut hhangs
    obtain ⟨construct, raw, rfl⟩ : ∃ construct raw, token = .unterminated construct raw := by
      cases token with
      | unterminated construct raw => exact ⟨construct, raw, rfl⟩
      | _ => cases hhangs
    refine .inr ⟨front, construct, raw, hcut, fun other hother => ?_⟩
    -- another one in front would have nothing behind it
    refine Bool.eq_false_iff.mpr fun hfirst => ?_
    obtain ⟨before, between, rfl⟩ := List.append_of_mem hother
    rw [List.append_assoc, List.cons_append] at hcut
    exact absurd (eq_nil_of_hangs hcut hfirst) (by simp)

end Token

namespace Builder

theorem reports_flush (builder : Builder) : builder.flush.reports = builder.reports := by
  unfold flush
  split <;> rfl

/-- Only what never ends is reported. -/
theorem reports_add {builder added : Builder} {token : Token} (hends : token.hangs = false)
    (hadd : builder.add token = .ok added) : added.reports = builder.reports := by
  cases token with
  | text raw => cases hadd; rfl
  | unterminated construct raw => cases hends
  | comment raw => cases hadd; exact builder.reports_flush
  | cdata raw => cases hadd; exact builder.reports_flush
  | declaration raw => cases hadd; exact builder.reports_flush
  | endTag tag =>
      cases hadd
      unfold endElement
      split
      next => rfl
      next => exact builder.reports_flush
  | startTag tag =>
      obtain ⟨prepared, hprepare, hstart⟩ := bind_eq_ok_iff.mp hadd
      cases hstart
      obtain ⟨-, rfl⟩ := prepare_eq_ok_iff.mp hprepare
      unfold startElement
      split <;> exact builder.reports_flush
  | rawElement tag content close =>
      obtain ⟨prepared, hprepare, hstart⟩ := bind_eq_ok_iff.mp hadd
      cases hstart
      obtain ⟨-, rfl⟩ := prepare_eq_ok_iff.mp hprepare
      unfold addRawElement
      cases content <;> exact builder.reports_flush

theorem reports_addAll {builder final : Builder} {tokens : List Token}
    (hends : ∀ token ∈ tokens, token.hangs = false)
    (haddAll : builder.addAll tokens = .ok final) :
    final.reports = builder.reports := by
  induction tokens generalizing builder with
  | nil => cases haddAll; rfl
  | cons token rest ih =>
      obtain ⟨hfirst, hothers⟩ := List.forall_mem_cons.mp hends
      obtain ⟨added, hadd, hrest⟩ := addAll_eq_ok_cons.mp haddAll
      rw [ih hothers hrest, reports_add hfirst hadd]

/-- Text may come next wherever another token does. -/
theorem Tidy.settled_of_isChain {builder final : Builder} (htidy : builder.Tidy)
    (hsettled : builder.nesting.Settled) {front back : List Token} {next : Token}
    (hfits : ∀ token ∈ front, token.Fits)
    (hchain : (front ++ next :: back).IsChain fun token _ => token.isFinal = false)
    (haddAll : builder.addAll front = .ok final) : final.nesting.Settled := by
  induction front generalizing builder with
  | nil => cases haddAll; exact hsettled
  | cons token rest ih =>
      obtain ⟨hfirst, hothers⟩ := List.forall_mem_cons.mp hfits
      obtain ⟨added, hadd, hrest⟩ := addAll_eq_ok_cons.mp haddAll
      obtain ⟨hadded, hnext⟩ := htidy.add hsettled hfirst hadd
      refine ih hadded (hnext.resolve_right fun hlast => ?_) hothers hchain.tail hrest
      cases rest with
      | nil => exact absurd hlast.1 (by simp [(List.isChain_cons_cons.mp hchain).1])
      | cons second others => exact absurd hlast.1 (by simp [(List.isChain_cons_cons.mp hchain).1])

/-- In front of a token, elements are open in order and text may come next. -/
theorem settled_of_cut {text : List Char} {builder : Builder} {front back : List Token}
    {next : Token} (hcut : Token.ofText text = front ++ next :: back)
    (haddAll : Builder.addAll {} front = .ok builder) :
    builder.nesting.Orderly ∧ builder.nesting.Settled := by
  have hfits : ∀ token ∈ front, token.Fits := by
    intro token hmem
    have hin : token ∈ Token.ofText text := hcut ▸ List.mem_append_left _ hmem
    exact Token.fits_of_mem_ofText hin
  have hstart : ({} : Builder).Tidy := ⟨⟨.nil, trivial⟩, by simp⟩
  refine ⟨(Orderly.start.addAll hfits haddAll).nesting, ?_⟩
  exact hstart.settled_of_isChain (by simp [Nesting.Settled, Nesting.level]) hfits
    (hcut ▸ Token.isChain_ofText text) haddAll

end Builder

/-! ## A tree that goes on -/

namespace Node

/-- A row of nodes, how it goes on when the source does with a text, and the number of nodes then.
The last node goes on if it is a text or an element that is still open; otherwise the text is a new
node. -/
inductive Prolonged (raw : List Char) (start stop next : Nat) :
    List Node → List Node → Nat → Prop
  | text {before : List Node} {piece : Leaf} : piece.kind = .text → piece.span.stop = start →
      Prolonged raw start stop next (before ++ [.leaf piece])
        (before ++ [.leaf { piece with
          raw := piece.raw ++ raw, span := ⟨piece.span.start, stop⟩ }]) next
  | added {nodes : List Node} : (∀ last ∈ nodes.getLast?, last.endsOpen = false) →
      Prolonged raw start stop next nodes
        (nodes ++ [.leaf ⟨.text, next, raw, ⟨start, stop⟩⟩]) (next + 1)
  | inside {before children others : List Node} {elem : Element} {count : Nat} :
      elem.isLeft = true → elem.closed = ⟨start, start⟩ →
      Prolonged raw start stop next children others count →
      Prolonged raw start stop next (before ++ [.element elem children])
        (before ++ [.element { elem with closed := ⟨stop, stop⟩ } others]) count

/-- An element that is left open goes on until something else ends it. -/
theorem endsOpen_of_isLeft {elem : Element} (hleft : elem.isLeft = true) (children : List Node) :
    endsOpen (.element elem children) = true := by
  simp only [Element.isLeft, Bool.and_eq_true] at hleft
  simp [endsOpen, hleft.1, StartTag.standsAlone_of_nests hleft.2]

/-- There is one way for a row to go on. -/
theorem Prolonged.unique {raw : List Char} {start stop next count other : Nat}
    {nodes first second : List Node} (hfirst : Prolonged raw start stop next nodes first count)
    (hsecond : Prolonged raw start stop next nodes second other) :
    first = second ∧ count = other := by
  have hends : ∀ {before : List Node} {last : Node}, last.endsOpen = true →
      ¬∀ node ∈ (before ++ [last]).getLast?, node.endsOpen = false := by
    intro before last hends hsettled
    simpa [hends] using hsettled last (by simp)
  induction hfirst generalizing second other with
  | @text before piece hkind hstop =>
      have hopen : endsOpen (.leaf piece) = true := by simp [endsOpen, hkind]
      generalize hnodes : before ++ [Node.leaf piece] = nodes at hsecond
      cases hsecond with
      | text =>
          obtain ⟨rfl, hlast⟩ := List.append_inj' hnodes rfl
          cases hlast
          exact ⟨rfl, rfl⟩
      | added hsettled => exact absurd hsettled (hnodes ▸ hends hopen)
      | inside =>
          obtain ⟨-, hlast⟩ := List.append_inj' hnodes rfl
          cases hlast
  | added hsettled =>
      cases hsecond with
      | text hkind hstop => exact absurd hsettled (hends (by simp [endsOpen, hkind]))
      | added => exact ⟨rfl, rfl⟩
      | inside hleft => exact absurd hsettled (hends (endsOpen_of_isLeft hleft _))
  | @inside before children others elem count hleft hclosed _ ih =>
      generalize hnodes : before ++ [Node.element elem children] = nodes at hsecond
      cases hsecond with
      | text =>
          obtain ⟨-, hlast⟩ := List.append_inj' hnodes rfl
          cases hlast
      | added hsettled => exact absurd hsettled (hnodes ▸ hends (endsOpen_of_isLeft hleft _))
      | inside _ _ hinside =>
          obtain ⟨rfl, hlast⟩ := List.append_inj' hnodes rfl
          cases hlast
          obtain ⟨rfl, rfl⟩ := ih hinside
          exact ⟨rfl, rfl⟩

end Node

namespace Nesting

variable {raw : List Char} {start stop next count : Nat}

/-- Trees under construction with the same elements open, of which the second is the first with the
innermost row gone on. -/
inductive Prolonged (raw : List Char) (start stop next : Nat) : Nesting → Nesting → Nat → Prop
  | outside {finished others : Array Node} {count : Nat} :
      Node.Prolonged raw start stop next finished.toList others.toList count →
      Prolonged raw start stop next ⟨[], finished⟩ ⟨[], others⟩ count
  | within {inner : OpenElement} {outer : List OpenElement} {finished children others : Array Node}
      {count : Nat} :
      Node.Prolonged raw start stop next children.toList others.toList count →
      Prolonged raw start stop next ⟨{ inner with children := children } :: outer, finished⟩
        ⟨{ inner with children := others } :: outer, finished⟩ count

/-- The tree so far with another row of nodes in the place of the innermost. -/
def withLevel (open_ : Nesting) (row : List Node) : Nesting :=
  match open_.stack with
  | [] => ⟨[], row.toArray⟩
  | inner :: outer => ⟨{ inner with children := row.toArray } :: outer, open_.finished⟩

theorem withLevel_level (open_ : Nesting) : open_.withLevel open_.level = open_ := by
  obtain ⟨stack, finished⟩ := open_
  cases stack <;> rfl

theorem append_eq_withLevel (open_ : Nesting) (added : Node) :
    open_.append added = open_.withLevel (open_.level ++ [added]) := by
  obtain ⟨stack, finished⟩ := open_
  cases stack <;> simp [append, withLevel, level, ← List.push_toArray]

theorem prolonged_withLevel (open_ : Nesting) {row others : List Node}
    (hrow : Node.Prolonged raw start stop next row others count) :
    Prolonged raw start stop next (open_.withLevel row) (open_.withLevel others) count := by
  obtain ⟨stack, finished⟩ := open_
  cases stack with
  | nil => exact .outside hrow
  | cons inner outer => exact .within hrow

/-- The rows around the innermost go on when the open elements end. -/
theorem Prolonged.finish {first second : Nesting}
    (hprolonged : Prolonged raw start stop next first second count)
    (hnests : ∀ tag ∈ first.stack.map OpenElement.tag, tag.nests = true) :
    Node.Prolonged raw start stop next (first.finish start) (second.finish stop) count := by
  -- ending an element changes the row around it, so the induction is on the tags
  generalize htags : first.stack.map OpenElement.tag = tags at hnests
  induction tags generalizing first second with
  | nil =>
      cases hprolonged with
      | outside hrow => exact hrow
      | within hrow => cases htags
  | cons tag rest ih =>
      cases hprolonged with
      | outside hrow => cases htags
      | @within inner outer finished children others _ hrow =>
          obtain ⟨rfl, hrest⟩ := List.cons.inj htags
          obtain ⟨hinner, houter⟩ := List.forall_mem_cons.mp hnests
          rw [finish_cons, finish_cons]
          refine ih ?_ ((stack_append _ _).trans hrest) houter
          rw [append_eq_withLevel, append_eq_withLevel]
          refine prolonged_withLevel _ (.inside ?_ rfl hrow)
          simp [OpenElement.left, Element.isLeft, hinner]

theorem Orderly.nests {open_ : Nesting} (horderly : open_.Orderly) :
    ∀ tag ∈ open_.stack.map OpenElement.tag, tag.nests = true := by
  obtain ⟨stack, finished⟩ := open_
  unfold Orderly at horderly
  dsimp only at horderly ⊢
  induction stack with
  | nil => simp
  | cons inner outer ih =>
      obtain ⟨hrows, -, hnests, -, -⟩ := horderly
      exact List.forall_mem_cons.mpr ⟨hnests, ih hrows⟩

end Nesting

namespace Builder

theorem flush_of_nil {builder : Builder} (hwaiting : builder.waiting = []) :
    builder.flush = builder := by
  unfold flush
  rw [hwaiting]

theorem flush_of_ne_nil {builder : Builder} (hwaiting : builder.waiting ≠ []) :
    builder.flush = { builder with waiting := [] }.addLeaf .text builder.waiting := by
  unfold flush
  split
  next hnil => exact absurd hnil hwaiting
  next => rfl

/-- Text that comes last goes on from the text held back, or is a node of its own. -/
theorem prolonged_hold {builder held : Builder} {front raw : List Char}
    (hread : builder.HasRead front) (horderly : builder.nesting.Orderly)
    (hsettled : builder.nesting.Settled) (hraw : raw ≠ []) {reports : List Report}
    (hhold : { builder with reports := reports }.hold raw = held) :
    Node.Prolonged raw (byteSize front) (byteSize (front ++ raw)) builder.flush.next
      (builder.flush.nesting.finish builder.flush.position)
      (held.flush.nesting.finish held.flush.position) held.flush.next := by
  have hsame : { builder with reports := reports }.HasRead front := hread
  have hheld : held.HasRead (front ++ raw) := hhold ▸ hsame.hold raw
  have hwaits : held.waiting ≠ [] := by simp [← hhold, hold, hraw]
  rw [hheld.position_flush, hread.position_flush, flush_of_ne_nil hwaits]
  subst hhold
  obtain ⟨read, rfl, hposition⟩ := hread
  by_cases hwaiting : builder.waiting = []
  · rw [flush_of_nil hwaiting]
    have hrow : Node.Prolonged raw (byteSize read) (byteSize (read ++ raw)) builder.next
        builder.nesting.level _ _ := .added hsettled
    have hnode := builder.nesting.prolonged_withLevel hrow
    rw [Nesting.withLevel_level, ← Nesting.append_eq_withLevel] at hnode
    simpa [addLeaf, hold, hwaiting, hposition] using hnode.finish horderly.nests
  · rw [flush_of_ne_nil hwaiting]
    let piece : Leaf := ⟨.text, builder.next, builder.waiting,
      ⟨byteSize read, byteSize (read ++ builder.waiting)⟩⟩
    have hrow : Node.Prolonged raw (byteSize (read ++ builder.waiting))
        (byteSize (read ++ builder.waiting ++ raw)) (builder.next + 1)
        (builder.nesting.level ++ [.leaf piece]) _ _ := .text rfl rfl
    have hnode := builder.nesting.prolonged_withLevel hrow
    rw [← Nesting.append_eq_withLevel, ← Nesting.append_eq_withLevel] at hnode
    have hnests : ∀ tag ∈ (builder.nesting.append (.leaf piece)).stack.map OpenElement.tag,
        tag.nests = true := by
      rw [Nesting.stack_append]
      exact horderly.nests
    simpa [addLeaf, hold, hposition, piece, Nat.add_assoc] using hnode.finish hnests

end Builder

/-- At most one construct is reported. In front of it the text can be read by itself without a
report, and the tree of the whole text is the tree so far with the rest as text at its end: as more
of the text that stands there, or as a new node with the next number. The elements that are open
there end with the text; everything else is as it was. -/
theorem Document.recovers_of_parse {text : List Char} {document : Document}
    (hparse : parse text = .ok document) :
    document.reports.length ≤ 1 ∧
      ∀ report ∈ document.reports, ∃ front raw cut,
        text = front ++ raw ∧ report.offset = byteSize front ∧
        Token.ofText raw = [.unterminated report.construct raw] ∧
        parse front = .ok cut ∧ cut.reports = [] ∧
        Node.Prolonged raw (byteSize front) (byteSize text) cut.count cut.children
          document.children document.count := by
  obtain ⟨final, haddAll, rfl⟩ := parse_eq_ok_iff.mp hparse
  have hreported : (final.document text).reports = final.reports := final.reports_flush
  rcases Token.hangs_cases text with hends | ⟨tokens, construct, raw, hcut, hends⟩
  · rw [hreported, Builder.reports_addAll hends haddAll]
    simp
  · rw [hcut, Builder.addAll_append_eq_ok_iff] at haddAll
    obtain ⟨builder, hfront, hlast⟩ := haddAll
    cases hlast
    have hread := Builder.hasRead_of_addAll hfront
    have hnone : builder.reports = [] := Builder.reports_addAll hends hfront
    have htext : text = tokens.flatMap Token.source ++ raw := by
      simpa [Token.source] using flatMap_source_of_cut hcut
    have hraw := Token.ofText_flatMap_source_of_suffix hcut
    rw [List.flatMap_singleton, Token.source] at hraw
    have hne : raw ≠ [] := by
      rintro rfl
      simp [Token.ofText] at hraw
    obtain ⟨horderly, hsettled⟩ := Builder.settled_of_cut hcut hfront
    rw [hreported]
    refine ⟨by simp [Builder.hold, hnone], fun report hmem => ?_⟩
    obtain rfl : report = ⟨builder.offset, construct⟩ := by
      simpa [Builder.hold, hnone] using hmem
    refine ⟨tokens.flatMap Token.source, raw, _, htext, hread.offset, hraw,
      parse_of_cut hcut hfront, builder.reports_flush.trans hnone, ?_⟩
    rw [htext]
    exact Builder.prolonged_hold hread horderly hsettled hne rfl

/-- A comment that never ends behind a stray end tag, inside a paragraph. -/
theorem Document.recovers_of_parse_comment :
    let text := "<p>a</i> b<!-- c".toList
    let element : Element := ⟨0, ⟨['p'], [], [], .plain⟩, none, ⟨0, 3⟩, ⟨16, 16⟩⟩
    let document : Document :=
      ⟨text, [.element element [.leaf ⟨.text, 1, "a</i> b<!-- c".toList, ⟨3, 16⟩⟩]], 2,
        [⟨10, .comment⟩]⟩
    parse text = .ok document ∧ document.reports.length ≤ 1 ∧ ∃ front raw cut,
      text = front ++ raw ∧ 10 = byteSize front ∧
      Token.ofText raw = [.unterminated .comment raw] ∧
      parse front = .ok cut ∧ cut.reports = [] ∧
      Node.Prolonged raw (byteSize front) (byteSize text) cut.count cut.children
        document.children document.count := by
  intro text element document
  have hparse : parse text = .ok document := by with_unfolding_all rfl
  obtain ⟨hone, hrecovers⟩ := recovers_of_parse hparse
  exact ⟨hparse, hone, hrecovers ⟨10, .comment⟩ List.mem_cons_self⟩

end Markup
