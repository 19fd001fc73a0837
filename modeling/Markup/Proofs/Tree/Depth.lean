import Markup.Proofs.Reading.Truncation
import Markup.Proofs.Tree.Listing
import Markup.Tree.Reader

/-!
# How deep elements nest

No more elements are ever open at once than a fixed number, and an element that is added without
being opened lies in as many as are open. Nesting is limited exactly: a start tag is refused only
where the greatest number of elements are open and it ends none of them. What stands in front of
such a tag can be read by itself, and has the open elements as elements that lie inside each other.
Main statement: `Document.depth_of_parse`.
-/

namespace Markup

open Markup.Text

/-! ## Elements inside each other -/

namespace Node

/-- Elements each of which is a child of the one before it, the first of them among the nodes. -/
inductive Chain : List Node → List Element → Prop
  | nil {nodes : List Node} : Chain nodes []
  | cons {nodes children : List Node} {elem : Element} {rest : List Element} :
      .element elem children ∈ nodes → Chain children rest → Chain nodes (elem :: rest)

/-- Nodes in which no more elements than the given number lie inside each other. -/
def DepthAtMost (limit : Nat) (nodes : List Node) : Prop :=
  ∀ chain, Chain nodes chain → chain.length ≤ limit

theorem DepthAtMost.append {limit : Nat} {first second : List Node}
    (hfirst : DepthAtMost limit first) (hsecond : DepthAtMost limit second) :
    DepthAtMost limit (first ++ second) := by
  intro chain hchain
  cases hchain with
  | nil => exact Nat.zero_le _
  | cons hmem hrest =>
      rcases List.mem_append.mp hmem with hin | hin
      · exact hfirst _ (.cons hin hrest)
      · exact hsecond _ (.cons hin hrest)

theorem depthAtMost_nil (limit : Nat) : DepthAtMost limit [] := by
  intro chain hchain
  cases hchain with
  | nil => exact Nat.zero_le _
  | cons hmem _ => cases hmem

theorem depthAtMost_leaf (limit : Nat) (piece : Leaf) : DepthAtMost limit [.leaf piece] := by
  intro chain hchain
  cases hchain with
  | nil => exact Nat.zero_le _
  | cons hmem _ => cases List.mem_singleton.mp hmem

theorem DepthAtMost.element {limit : Nat} {children : List Node}
    (hchildren : DepthAtMost limit children) (elem : Element) :
    DepthAtMost (limit + 1) [.element elem children] := by
  intro chain hchain
  cases hchain with
  | nil => exact Nat.zero_le _
  | cons hmem hrest =>
      cases List.mem_singleton.mp hmem
      exact Nat.succ_le_succ (hchildren _ hrest)

end Node

/-! ## The open elements -/

namespace Nesting

theorem depth_append (open_ : Nesting) (added : Node) :
    (open_.append added).depth = open_.depth := by
  simpa [depth] using congrArg List.length (open_.stack_append added)

theorem depth_popMany (open_ : Nesting) (offset count : Nat) :
    (open_.popMany offset count).depth = open_.depth - count := by
  simpa [depth] using congrArg List.length (open_.stack_popMany offset count)

/-- Rows of nodes that go no deeper than the limit, each with what is open around it. -/
def WithinLimit (finished : Array Node) : List OpenElement → Prop
  | [] => Node.DepthAtMost maximumDepth finished.toList
  | inner :: outer =>
      WithinLimit finished outer ∧ outer.length < maximumDepth ∧
        Node.DepthAtMost (maximumDepth - (outer.length + 1)) inner.children.toList

/-- No element of the tree so far, open or not, lies too deep. -/
def Shallow (open_ : Nesting) : Prop :=
  WithinLimit open_.finished open_.stack

theorem Shallow.depth_le {open_ : Nesting} (hshallow : open_.Shallow) :
    open_.depth ≤ maximumDepth := by
  obtain ⟨stack, finished⟩ := open_
  cases stack with
  | nil => exact Nat.zero_le _
  | cons inner outer => exact hshallow.2.1

theorem Shallow.append {open_ : Nesting} (hshallow : open_.Shallow) {added : Node}
    (hadded : Node.DepthAtMost (maximumDepth - open_.depth) [added]) :
    (open_.append added).Shallow := by
  obtain ⟨stack, finished⟩ := open_
  cases stack with
  | nil =>
      have hrow : Node.DepthAtMost maximumDepth (finished.toList ++ [added]) :=
        Node.DepthAtMost.append hshallow hadded
      simpa only [Shallow, Nesting.append, WithinLimit, Array.toList_push] using hrow
  | cons inner outer =>
      obtain ⟨houter, hroom, hrow⟩ := hshallow
      refine ⟨houter, hroom, ?_⟩
      rw [Array.toList_push]
      exact hrow.append hadded

theorem Shallow.push {open_ : Nesting} (hshallow : open_.Shallow)
    (hroom : open_.depth < maximumDepth) (id : Nat) (tag : StartTag) (opened : Span) :
    (open_.push ⟨id, tag, opened, #[]⟩).Shallow :=
  ⟨hshallow, hroom, Node.depthAtMost_nil _⟩

theorem Shallow.pop {open_ : Nesting} (hshallow : open_.Shallow) (endTag : Option EndTag)
    (closed : Span) : (open_.pop endTag closed).Shallow := by
  obtain ⟨stack, finished⟩ := open_
  cases stack with
  | nil => exact hshallow
  | cons inner outer =>
      obtain ⟨houter, hroom, hrow⟩ := hshallow
      have hopen : Shallow ⟨outer, finished⟩ := houter
      refine hopen.append ?_
      have hlimit : maximumDepth - (outer.length + 1) + 1 = maximumDepth - outer.length := by omega
      exact hlimit ▸ hrow.element _

theorem Shallow.popMany {open_ : Nesting} (hshallow : open_.Shallow) (offset count : Nat) :
    (open_.popMany offset count).Shallow := by
  induction count generalizing open_ with
  | zero => exact hshallow
  | succ count ih => exact ih (hshallow.pop none _)

theorem Shallow.finish {open_ : Nesting} (hshallow : open_.Shallow) (offset : Nat) :
    Node.DepthAtMost maximumDepth (open_.finish offset) := by
  have hfinal := hshallow.popMany offset open_.depth
  rwa [Shallow, open_.stack_popMany_depth offset] at hfinal

end Nesting

/-! ## Adding a token -/

namespace Builder

theorem shallow_addLeaf {builder : Builder} (hshallow : builder.nesting.Shallow) (kind : LeafKind)
    (raw : List Char) : (builder.addLeaf kind raw).nesting.Shallow :=
  hshallow.append (Node.depthAtMost_leaf _ _)

theorem shallow_flush {builder : Builder} (hshallow : builder.nesting.Shallow) :
    builder.flush.nesting.Shallow := by
  unfold flush
  split
  next => exact hshallow
  next =>
    have hemptied : { builder with waiting := [] }.nesting.Shallow := hshallow
    exact shallow_addLeaf hemptied _ _

theorem shallow_ready {builder : Builder} (hshallow : builder.nesting.Shallow) (name : List Char) :
    (builder.ready name).nesting.Shallow :=
  (shallow_flush hshallow).popMany _ _

theorem prepare_eq_error_iff {builder : Builder} {name : List Char} {failure : TooDeep} :
    builder.prepare name = .error failure ↔
      maximumDepth ≤ (builder.ready name).nesting.depth ∧
        failure = ⟨(builder.ready name).position⟩ := by
  rw [prepare_eq]
  split
  next hfull => simp [hfull, eq_comm]
  next hroom => simp [hroom]

/-- Where fewer elements than the limit are open one more may be. -/
theorem shallow_startElement {builder : Builder} (hshallow : builder.nesting.Shallow)
    (hroom : builder.nesting.depth < maximumDepth) (tag : StartTag) :
    (builder.startElement tag).nesting.Shallow := by
  unfold startElement
  dsimp only
  split
  next =>
    refine hshallow.append fun chain hchain => ?_
    exact ((Node.depthAtMost_nil 0).element _ chain hchain).trans (by omega)
  next => exact hshallow.push hroom _ _ _

theorem shallow_addRawElement {builder : Builder} (hshallow : builder.nesting.Shallow)
    (hroom : builder.nesting.depth < maximumDepth) (tag : StartTag) (content : List Char)
    (close : Option EndTag) : (builder.addRawElement tag content close).nesting.Shallow := by
  have hstarted := hshallow.push hroom builder.next tag
    ⟨builder.position, builder.position + byteSize tag.text⟩
  unfold addRawElement
  cases content with
  | nil => exact hstarted.pop _ _
  | cons c rest => exact Nesting.Shallow.pop (hstarted.append (Node.depthAtMost_leaf _ _)) _ _

theorem shallow_endElement {builder : Builder} (hshallow : builder.nesting.Shallow) (tag : EndTag) :
    (builder.endElement tag).nesting.Shallow := by
  unfold endElement
  split
  next => exact hshallow
  next count hfound => exact ((shallow_flush hshallow).popMany _ _).pop _ _

theorem shallow_add {builder added : Builder} (hshallow : builder.nesting.Shallow) {token : Token}
    (hadd : builder.add token = .ok added) : added.nesting.Shallow := by
  cases token with
  | text raw => cases hadd; exact hshallow
  | unterminated construct raw => cases hadd; exact hshallow
  | comment raw => cases hadd; exact shallow_addLeaf (shallow_flush hshallow) _ _
  | cdata raw => cases hadd; exact shallow_addLeaf (shallow_flush hshallow) _ _
  | declaration raw => cases hadd; exact shallow_addLeaf (shallow_flush hshallow) _ _
  | endTag tag => cases hadd; exact shallow_endElement hshallow tag
  | startTag tag =>
      obtain ⟨prepared, hprepare, hstart⟩ := bind_eq_ok_iff.mp hadd
      cases hstart
      obtain ⟨hroom, rfl⟩ := prepare_eq_ok_iff.mp hprepare
      exact shallow_startElement (shallow_ready hshallow _) hroom tag
  | rawElement tag content close =>
      obtain ⟨prepared, hprepare, hstart⟩ := bind_eq_ok_iff.mp hadd
      cases hstart
      obtain ⟨hroom, rfl⟩ := prepare_eq_ok_iff.mp hprepare
      exact shallow_addRawElement (shallow_ready hshallow _) hroom tag content close

theorem shallow_addAll {builder final : Builder} (hshallow : builder.nesting.Shallow)
    {tokens : List Token} (haddAll : builder.addAll tokens = .ok final) :
    final.nesting.Shallow := by
  induction tokens generalizing builder with
  | nil => cases haddAll; exact hshallow
  | cons token rest ih =>
      obtain ⟨added, hadd, hrest⟩ := addAll_eq_ok_cons.mp haddAll
      exact ih (shallow_add hshallow hadd) hrest

/-- The tree of tokens goes no deeper than the limit. -/
theorem shallow_of_addAll {builder : Builder} {tokens : List Token}
    (haddAll : Builder.addAll {} tokens = .ok builder) : builder.nesting.Shallow := by
  have hstart : ({} : Builder).nesting.Shallow := Node.depthAtMost_nil _
  exact shallow_addAll hstart haddAll

/-! ## Refusing a token -/

theorem add_eq_error_iff {builder : Builder} {token : Token} {failure : TooDeep} :
    builder.add token = .error failure ↔
      ∃ tag ∈ token.startTag?, builder.prepare tag.name = .error failure := by
  have hbind : ∀ (name : List Char) (next : Builder → Builder),
      (builder.prepare name >>= fun prepared => pure (next prepared)) = .error failure ↔
        builder.prepare name = .error failure := by
    intro name next
    cases builder.prepare name <;> simp [bind, Except.bind, pure, Except.pure]
  cases token with
  | startTag tag =>
      rw [Builder.add, hbind]
      simp [Token.startTag?]
  | rawElement tag content close =>
      rw [Builder.add, hbind]
      simp [Token.startTag?]
  | _ => simp [Builder.add, Token.startTag?]

/-- A start tag is refused where as many elements are open as may be and it ends none of them. -/
theorem full_of_add_eq_error {builder : Builder} (hshallow : builder.nesting.Shallow)
    {token : Token} {failure : TooDeep} (hrefused : builder.add token = .error failure) :
    ∃ tag ∈ token.startTag?, failure = ⟨builder.flush.position⟩ ∧
      builder.flush.nesting.depth = maximumDepth ∧
      ∀ inner ∈ builder.flush.nesting.stack.head?,
        Tag.impliesEnd inner.tag.name tag.name = false := by
  obtain ⟨tag, htag, hprepare⟩ := add_eq_error_iff.mp hrefused
  obtain ⟨hfull, rfl⟩ := prepare_eq_error_iff.mp hprepare
  have hle := (shallow_flush hshallow).depth_le
  have hpos : 0 < maximumDepth := by decide
  rw [ready, Nesting.popImplied, Nesting.depth_popMany] at hfull
  refine ⟨tag, htag, rfl, by omega, fun inner hinner => ?_⟩
  obtain ⟨outer, houter⟩ := List.head?_eq_some_iff.mp hinner
  rw [houter] at hfull
  refine Bool.eq_false_iff.mpr fun himplied => ?_
  rw [List.takeWhile_cons, if_pos himplied, List.length_cons] at hfull
  omega

end Builder

/-! ## Elements that the end of the text ends -/

/-- What an open element is if the text ends at an offset. -/
def OpenElement.left (offset : Nat) (open_ : OpenElement) : Element :=
  ⟨open_.id, open_.tag, none, open_.opened, ⟨offset, offset⟩⟩

namespace Nesting

theorem map_left_append (open_ : Nesting) (added : Node) (offset : Nat) :
    (open_.append added).stack.map (OpenElement.left offset) =
      open_.stack.map (OpenElement.left offset) := by
  unfold append
  split
  next => rfl
  next inner outer hstack => simp [hstack, OpenElement.left]

/-- The innermost open element ends in the row around it. -/
theorem finish_cons (inner : OpenElement) (outer : List OpenElement) (finished : Array Node)
    (offset : Nat) :
    (Nesting.mk (inner :: outer) finished).finish offset =
      ((Nesting.mk outer finished).append
        (.element (inner.left offset) inner.children.toList)).finish offset := by
  unfold finish
  rw [depth_append]
  rfl

/-- The open elements lie inside each other, around what the innermost one has inside. -/
theorem chain_finish (open_ : Nesting) (offset : Nat) {path : List Element}
    (hpath : Node.Chain open_.level path) :
    Node.Chain (open_.finish offset)
      ((open_.stack.map (OpenElement.left offset)).reverse ++ path) := by
  -- ending an element changes the row around it, so the induction is on what the elements become
  generalize hlefts : open_.stack.map (OpenElement.left offset) = lefts
  induction lefts generalizing open_ path with
  | nil =>
      obtain ⟨stack, finished⟩ := open_
      obtain rfl := List.map_eq_nil_iff.mp hlefts
      exact hpath
  | cons left rest ih =>
      obtain ⟨stack, finished⟩ := open_
      obtain ⟨inner, outer, rfl, rfl, houter⟩ := List.map_eq_cons_iff.mp hlefts
      rw [finish_cons, List.reverse_cons, List.append_assoc]
      refine ih _ ?_ ((map_left_append _ _ _).trans houter)
      rw [level_append]
      exact .cons (List.mem_append_right _ List.mem_cons_self) hpath

end Nesting

namespace Token

/-- A token that begins with a start tag has its source behind it, and the tag keeps the grammar. -/
theorem exists_source_of_startTag? {token : Token} {tag : StartTag}
    (htag : tag ∈ token.startTag?) (hfits : token.Fits) :
    tag.Fits ∧ Named tag.name ∧ ∃ more, token.source = tag.text ++ more := by
  cases token with
  | startTag found =>
      cases htag
      exact ⟨hfits.1, hfits.2.1, [], (List.append_nil _).symm⟩
  | rawElement found content close =>
      cases htag
      exact ⟨hfits.1, hfits.2.1, _, rfl⟩
  | _ => cases htag

end Token

/-! ## The limit -/

/-- No element of a text that is read lies too deep. -/
theorem depthAtMost_of_parse {text : List Char} {document : Document}
    (hparse : parse text = .ok document) : Node.DepthAtMost maximumDepth document.children := by
  obtain ⟨builder, haddAll, rfl⟩ := parse_eq_ok_iff.mp hparse
  exact (Builder.shallow_flush (Builder.shallow_of_addAll haddAll)).finish _

/-- Where a start tag is refused, the tree so far ends with elements inside each other that have no
end tags, as many as may be. -/
theorem Builder.exists_chain_of_full {builder : Builder} {name : List Char}
    (hdepth : builder.flush.nesting.depth = maximumDepth)
    (hinner : ∀ inner ∈ builder.flush.nesting.stack.head?,
      Tag.impliesEnd inner.tag.name name = false) (source : List Char) :
    ∃ outer innermost, Node.Chain (builder.document source).children (outer ++ [innermost]) ∧
      outer.length + 1 = maximumDepth ∧
      (∀ elem ∈ outer ++ [innermost],
        elem.endTag = none ∧ elem.span.stop = builder.flush.position) ∧
      Tag.impliesEnd innermost.name name = false := by
  obtain ⟨inner, others, hstack⟩ : ∃ inner others,
      builder.flush.nesting.stack = inner :: others :=
    List.exists_cons_of_length_eq_add_one hdepth
  have hchain := builder.flush.nesting.chain_finish builder.flush.position .nil
  rw [List.append_nil, hstack, List.map_cons, List.reverse_cons] at hchain
  refine ⟨_, _, hchain, ?_, fun elem hin => ?_, hinner inner (by rw [hstack]; rfl)⟩
  · rw [Nesting.depth, hstack, List.length_cons] at hdepth
    simpa using hdepth
  · rw [← List.reverse_cons, List.mem_reverse, ← List.map_cons] at hin
    obtain ⟨open_, -, rfl⟩ := List.mem_map.mp hin
    exact ⟨rfl, rfl⟩

/-- A text that is read has no element in more than 511 others. One that is not has a start tag, at
the offset of the failure, in front of which the text can be read, with 512 elements inside each
other that end there without end tags, and the innermost of which the start tag does not end. -/
theorem Document.depth_of_parse (text : List Char) :
    match parse text with
    | .ok document =>
        ∀ ancestors elem, Node.Chain document.children (ancestors ++ [elem]) →
          ancestors.length ≤ 511
    | .error failure =>
        ∃ front tag after cut outer innermost,
          text = front ++ (tag.text ++ after) ∧ failure.offset = byteSize front ∧
          Token.ofText text = Token.ofText front ++ Token.ofText (tag.text ++ after) ∧
          Named tag.name ∧ StartTag.read? (tag.body ++ after) = some (tag, after) ∧
          parse front = .ok cut ∧
          Node.Chain cut.children (outer ++ [innermost]) ∧ outer.length + 1 = 512 ∧
          (∀ elem ∈ outer ++ [innermost],
            elem.endTag = none ∧ elem.span.stop = failure.offset) ∧
          Tag.impliesEnd innermost.name tag.name = false := by
  cases hparse : parse text with
  | ok document =>
      intro ancestors elem hchain
      have hlimit := depthAtMost_of_parse hparse _ hchain
      rw [List.length_append, List.length_singleton] at hlimit
      exact Nat.le_of_succ_le_succ hlimit
  | error failure =>
      obtain ⟨tokens, token, back, builder, hcut, hfront, hrefused⟩ :=
        Builder.exists_of_addAll_eq_error (parse_eq_error_iff.mp hparse)
      obtain ⟨tag, htag, rfl, hdepth, hinner⟩ :=
        Builder.full_of_add_eq_error (Builder.shallow_of_addAll hfront) hrefused
      have hmem : token ∈ Token.ofText text := by simp [hcut]
      obtain ⟨hfits, hnamed, more, hsource⟩ :=
        Token.exists_source_of_startTag? htag (Token.fits_of_mem_ofText hmem)
      have hback : (token :: back).flatMap Token.source =
          tag.text ++ (more ++ back.flatMap Token.source) := by
        rw [List.flatMap_cons, hsource, List.append_assoc]
      have htext := flatMap_source_of_cut hcut
      have htokens := hcut
      rw [← Token.ofText_flatMap_source hcut, ← Token.ofText_flatMap_source_of_suffix hcut]
        at htokens
      rw [hback] at htext htokens
      obtain ⟨outer, innermost, hchain, hlength, hends, himplied⟩ :=
        Builder.exists_chain_of_full hdepth hinner (tokens.flatMap Token.source)
      exact ⟨_, tag, _, _, outer, innermost, htext,
        (Builder.hasRead_of_addAll hfront).position_flush, htokens, hnamed,
        StartTag.read?_eq_some_iff.mpr ⟨hfits, rfl⟩, parse_of_cut hcut hfront, hchain, hlength,
        hends, himplied⟩

end Markup
