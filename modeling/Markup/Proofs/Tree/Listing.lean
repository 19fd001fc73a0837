import Markup.Proofs.Outcome
import Markup.Proofs.Token
import Markup.Tree.Reader

/-!
# Listing a tree in document order

Many facts about a tree under construction have one form: something that is read off the tree from
left to right grows at its end with each token. A listing says what the start of an element, a leaf
and an end tag contribute. The operations of the builder add contributions at the end and change
nothing before them, whatever the listing is.
-/

namespace Markup

/-- What the parts of a tree contribute to a list. Elements that end without an end tag contribute
nothing at their end. -/
structure Listing (β : Type) where
  opening : Nat → StartTag → List β
  leaf : Leaf → List β
  closing : EndTag → List β

namespace Listing

variable {β : Type} (listing : Listing β)

/-- The contribution of the end of an element. -/
def ending : Option EndTag → List β
  | none => []
  | some tag => listing.closing tag

mutual

def node : Node → List β
  | .element elem children =>
      listing.opening elem.id elem.tag ++ (nodes children ++ listing.ending elem.endTag)
  | .leaf piece => listing.leaf piece

def nodes : List Node → List β
  | [] => []
  | first :: rest => node first ++ nodes rest

end

/-- The contribution of elements that are still open, the innermost first, behind finished nodes. -/
def stack (finished : List Node) : List OpenElement → List β
  | [] => listing.nodes finished
  | inner :: outer =>
      stack finished outer ++
        (listing.opening inner.id inner.tag ++ listing.nodes inner.children.toList)

def nesting (nesting : Nesting) : List β :=
  listing.stack nesting.finished.toList nesting.stack

/-- The contribution of the text held back, if it becomes a leaf now. -/
def waiting (builder : Builder) : List β :=
  match builder.waiting with
  | [] => []
  | c :: rest =>
      listing.leaf ⟨.text, builder.next, c :: rest,
        ⟨builder.position, builder.position + Text.byteSize (c :: rest)⟩⟩

theorem nodes_append (first second : List Node) :
    listing.nodes (first ++ second) = listing.nodes first ++ listing.nodes second := by
  induction first with
  | nil => rfl
  | cons head rest ih => simp only [List.cons_append, nodes, ih, List.append_assoc]

theorem nodes_singleton (only : Node) : listing.nodes [only] = listing.node only := by
  simp [nodes]

/-! ## Operations on the open elements -/

theorem nesting_append (open_ : Nesting) (added : Node) :
    listing.nesting (open_.append added) = listing.nesting open_ ++ listing.node added := by
  unfold Nesting.append nesting
  split
  next hstack => simp [hstack, stack, nodes_append, nodes_singleton]
  next inner outer hstack => simp [hstack, stack, nodes_append, nodes_singleton]

theorem nesting_push (open_ : Nesting) (element : OpenElement) :
    listing.nesting (open_.push element) = listing.nesting open_ ++
      (listing.opening element.id element.tag ++ listing.nodes element.children.toList) := rfl

theorem nesting_pop (open_ : Nesting) (endTag : Option EndTag) (closed : Span)
    (hopen : open_.stack ≠ []) :
    listing.nesting (open_.pop endTag closed) =
      listing.nesting open_ ++ listing.ending endTag := by
  unfold Nesting.pop
  split
  next hstack => exact absurd hstack hopen
  next inner outer hstack =>
    rw [nesting_append]
    simp [nesting, hstack, stack, OpenElement.close, node]

theorem nesting_pop_none (open_ : Nesting) (closed : Span) :
    listing.nesting (open_.pop none closed) = listing.nesting open_ := by
  cases hstack : open_.stack with
  | nil => simp [Nesting.pop, hstack]
  | cons inner outer =>
      rw [nesting_pop listing open_ none closed (by simp [hstack])]
      simp [ending]

theorem nesting_popMany (open_ : Nesting) (offset count : Nat) :
    listing.nesting (open_.popMany offset count) = listing.nesting open_ := by
  induction count generalizing open_ with
  | zero => rfl
  | succ count ih => rw [Nesting.popMany, ih, nesting_pop_none]

end Listing

namespace Nesting

theorem stack_append (open_ : Nesting) (added : Node) :
    (open_.append added).stack.map OpenElement.tag = open_.stack.map OpenElement.tag := by
  unfold append
  split
  next => rfl
  next inner outer hstack => simp [hstack]

/-- Ending elements takes them off the stack and leaves the others as they are but for their
children. -/
theorem stack_pop (open_ : Nesting) (endTag : Option EndTag) (closed : Span) :
    (open_.pop endTag closed).stack.map OpenElement.tag =
      (open_.stack.map OpenElement.tag).tail := by
  unfold pop
  split
  next hstack => simp [hstack]
  next inner outer hstack => rw [stack_append]; simp [hstack]

theorem stack_popMany (open_ : Nesting) (offset count : Nat) :
    (open_.popMany offset count).stack.map OpenElement.tag =
      (open_.stack.map OpenElement.tag).drop count := by
  induction count generalizing open_ with
  | zero => rfl
  | succ count ih => rw [popMany, ih, stack_pop, List.drop_tail]

theorem stack_popMany_depth (open_ : Nesting) (offset : Nat) :
    (open_.popMany offset open_.depth).stack = [] := by
  have htags := open_.stack_popMany offset open_.depth
  rw [List.drop_eq_nil_of_le (by simp [depth])] at htags
  exact List.map_eq_nil_iff.mp htags

/-- An end tag ends an element only if one with its name is open. -/
theorem inside?_lt {open_ : Nesting} {name : List Char} {count : Nat}
    (hfound : open_.inside? name = some count) : count < open_.stack.length := by
  obtain ⟨hlt, _⟩ := List.findIdx?_eq_some_iff_getElem.mp hfound
  exact hlt

theorem popMany_stack_ne_nil {open_ : Nesting} {count : Nat} (offset : Nat)
    (hcount : count < open_.stack.length) : (open_.popMany offset count).stack ≠ [] := by
  intro hnil
  have hlength := congrArg List.length (open_.stack_popMany offset count)
  rw [hnil] at hlength
  simp only [List.map_nil, List.length_nil, List.length_drop, List.length_map] at hlength
  omega

end Nesting

namespace Builder

theorem stack_flush (builder : Builder) :
    builder.flush.nesting.stack.map OpenElement.tag =
      builder.nesting.stack.map OpenElement.tag := by
  unfold flush
  split
  next => rfl
  next => exact Nesting.stack_append _ _

theorem nesting_ready (builder : Builder) (name : List Char) : (builder.ready name).nesting =
    builder.flush.nesting.popImplied builder.flush.position name := rfl

/-- A builder that is prepared for an element is ready for it, and has room for it. -/
theorem prepare_eq_ok_iff {builder prepared : Builder} {name : List Char} :
    builder.prepare name = .ok prepared ↔
      (builder.ready name).nesting.depth < maximumDepth ∧ builder.ready name = prepared := by
  rw [prepare_eq]
  split
  next hfull => simpa using fun hroom => absurd hroom (by omega)
  next hroom => simpa using fun _ => Nat.not_le.mp hroom

/-- A raw text element is added as a whole. -/
theorem nesting_addRawElement (builder : Builder) (tag : StartTag) (content : List Char)
    (close : Option EndTag) :
    ∃ elem children, elem.tag = tag ∧ elem.endTag = close ∧ Node.textOfAll children = content ∧
      elem.opened.start = builder.position ∧ (children = [] ∨
        ∃ piece, children = [.leaf piece] ∧ piece.kind = .verbatim ∧ piece.raw ≠ []) ∧
        (builder.addRawElement tag content close).nesting =
          builder.nesting.append (.element elem children) := by
  unfold Builder.addRawElement
  cases content with
  | nil => exact ⟨_, _, rfl, rfl, rfl, rfl, .inl rfl, rfl⟩
  | cons c rest => exact ⟨_, _, rfl, rfl, by simp, rfl, .inr ⟨_, rfl, rfl, by simp⟩, rfl⟩

/-- The end tag of an open element finds it open still when all elements inside it have ended. -/
theorem popMany_flush_stack_ne_nil {builder : Builder} {name : List Char} {count : Nat}
    (hfound : builder.nesting.inside? name = some count) (offset : Nat) :
    (builder.flush.nesting.popMany offset count).stack ≠ [] := by
  apply Nesting.popMany_stack_ne_nil
  have hlength := congrArg List.length builder.stack_flush
  simp only [List.length_map] at hlength
  rw [hlength]
  exact Nesting.inside?_lt hfound

end Builder

namespace Listing

variable {β : Type} (listing : Listing β)

theorem nodes_finish (open_ : Nesting) (offset : Nat) :
    listing.nodes (open_.finish offset) = listing.nesting open_ := by
  rw [← listing.nesting_popMany open_ offset open_.depth, nesting,
    open_.stack_popMany_depth offset]
  rfl

/-! ## Operations of the builder -/

theorem nesting_flush (builder : Builder) :
    listing.nesting builder.flush.nesting =
      listing.nesting builder.nesting ++ listing.waiting builder := by
  unfold Builder.flush waiting
  cases builder.waiting with
  | nil => simp
  | cons c rest => simp [Builder.addLeaf, nesting_append, node]

theorem nesting_prepare {builder prepared : Builder} {name : List Char}
    (hprepare : builder.prepare name = .ok prepared) :
    listing.nesting prepared.nesting =
      listing.nesting builder.nesting ++ listing.waiting builder := by
  obtain ⟨-, rfl⟩ := Builder.prepare_eq_ok_iff.mp hprepare
  rw [Builder.nesting_ready, Nesting.popImplied, nesting_popMany, nesting_flush]

theorem nesting_startElement (builder : Builder) (tag : StartTag) :
    listing.nesting (builder.startElement tag).nesting =
      listing.nesting builder.nesting ++ listing.opening builder.next tag := by
  unfold Builder.startElement
  dsimp only
  split
  next => simp [nesting_append, node, nodes, ending]
  next => simp [nesting_push, nodes]

/-- The contribution of the content of a raw text element. -/
def rawContent (id position : Nat) (content : List Char) : List β :=
  match content with
  | [] => []
  | c :: rest =>
      listing.leaf ⟨.verbatim, id, c :: rest,
        ⟨position, position + Text.byteSize (c :: rest)⟩⟩

theorem nesting_addRawElement (builder : Builder) (tag : StartTag) (content : List Char)
    (close : Option EndTag) :
    listing.nesting (builder.addRawElement tag content close).nesting =
      listing.nesting builder.nesting ++ (listing.opening builder.next tag ++
        (listing.rawContent (builder.next + 1) (builder.position + Text.byteSize tag.text)
          content ++ listing.ending close)) := by
  unfold Builder.addRawElement rawContent
  cases content with
  | nil =>
      dsimp only
      rw [nesting_pop _ _ _ _ (by simp [Nesting.push]), nesting_push]
      simp [nodes]
  | cons c rest =>
      dsimp only
      rw [nesting_pop _ _ _ _ (by simp [Builder.addLeaf, Nesting.append, Nesting.push])]
      simp [Builder.addLeaf, nesting_append, nesting_push, nodes, node]

theorem nesting_endElement {builder : Builder} {tag : EndTag} {count : Nat}
    (hfound : builder.nesting.inside? tag.name = some count) :
    listing.nesting (builder.endElement tag).nesting =
      listing.nesting builder.nesting ++ (listing.waiting builder ++ listing.closing tag) := by
  unfold Builder.endElement
  rw [hfound]
  dsimp only
  rw [nesting_pop _ _ _ _ (Builder.popMany_flush_stack_ne_nil hfound _), nesting_popMany,
    nesting_flush, List.append_assoc]
  rfl

end Listing

/-! ## Invariants of the builder -/

namespace Builder

/-- A property that every operation of the builder keeps, for tokens such as are read from a
text. -/
structure Stable (Holds : Builder → Prop) : Prop where
  start : Holds {}
  hold {builder : Builder} (raw : List Char) (reports : List Report) :
    Holds builder → Holds ({ builder with reports := reports }.hold raw)
  flush {builder : Builder} : Holds builder → Holds builder.flush
  addLeaf {builder : Builder} {kind : LeafKind} {raw : List Char} : kind ≠ .text →
    (Token.ofLeaf kind raw).Fits → Holds builder → Holds (builder.addLeaf kind raw)
  prepare {builder prepared : Builder} {name : List Char} :
    Holds builder → builder.prepare name = .ok prepared → Holds prepared
  startElement {builder : Builder} {tag : StartTag} : (Token.startTag tag).Fits →
    Holds builder → Holds (builder.startElement tag)
  addRawElement {builder : Builder} {tag : StartTag} {content : List Char} {close : Option EndTag} :
    (Token.rawElement tag content close).Fits →
      Holds builder → Holds (builder.addRawElement tag content close)
  endElement {builder : Builder} {tag : EndTag} : (Token.endTag tag).Fits →
    Holds builder → Holds (builder.endElement tag)

theorem Stable.add {Holds : Builder → Prop} (hstable : Stable Holds) {builder added : Builder}
    {token : Token} (hfits : token.Fits) (hholds : Holds builder)
    (hadd : builder.add token = .ok added) :
    Holds added := by
  cases token with
  | text raw => cases hadd; exact hstable.hold raw builder.reports hholds
  | comment raw => cases hadd; exact hstable.addLeaf (by simp) hfits (hstable.flush hholds)
  | cdata raw => cases hadd; exact hstable.addLeaf (by simp) hfits (hstable.flush hholds)
  | declaration raw => cases hadd; exact hstable.addLeaf (by simp) hfits (hstable.flush hholds)
  | endTag tag => cases hadd; exact hstable.endElement hfits hholds
  | unterminated construct raw => cases hadd; exact hstable.hold raw _ hholds
  | startTag tag =>
      obtain ⟨prepared, hprepare, hstart⟩ := bind_eq_ok_iff.mp hadd
      cases hstart
      exact hstable.startElement hfits (hstable.prepare hholds hprepare)
  | rawElement tag content close =>
      obtain ⟨prepared, hprepare, hstart⟩ := bind_eq_ok_iff.mp hadd
      cases hstart
      exact hstable.addRawElement hfits (hstable.prepare hholds hprepare)

theorem Stable.addAll {Holds : Builder → Prop} (hstable : Stable Holds) {builder final : Builder}
    {tokens : List Token} (hfits : ∀ token ∈ tokens, token.Fits) (hholds : Holds builder)
    (haddAll : builder.addAll tokens = .ok final) : Holds final := by
  induction tokens generalizing builder with
  | nil => cases haddAll; exact hholds
  | cons token rest ih =>
      obtain ⟨added, hadd, hrest⟩ := bind_eq_ok_iff.mp haddAll
      exact ih (fun other hmem => hfits other (List.mem_cons_of_mem _ hmem))
        (hstable.add (hfits token List.mem_cons_self) hholds hadd) hrest

theorem addAll_eq_ok_cons {builder final : Builder} {token : Token} {rest : List Token} :
    builder.addAll (token :: rest) = .ok final ↔
      ∃ added, builder.add token = .ok added ∧ added.addAll rest = .ok final :=
  bind_eq_ok_iff

end Builder

/-- Reading a text builds the tree at the end of its tokens. -/
theorem parse_eq_ok_iff {text : List Char} {document : Document} :
    parse text = .ok document ↔ ∃ builder : Builder,
      Builder.addAll {} (Token.ofText text) = .ok builder ∧ builder.document text = document := by
  unfold parse
  rw [bind_eq_ok_iff]
  simp [pure, Except.pure]

/-- What every operation of the builder keeps holds when a document is finished. -/
theorem Builder.Stable.of_parse {Holds : Builder → Prop} (hstable : Stable Holds)
    {text : List Char} {document : Document} (hparse : parse text = .ok document) :
    ∃ builder : Builder, Holds builder.flush ∧
      document.children = builder.flush.nesting.finish builder.flush.position ∧
        document.count = builder.flush.next := by
  obtain ⟨builder, haddAll, rfl⟩ := parse_eq_ok_iff.mp hparse
  have hfits : ∀ token ∈ Token.ofText text, token.Fits := fun _ => Token.fits_of_mem_ofText
  exact ⟨builder, hstable.flush (hstable.addAll hfits hstable.start haddAll), rfl, rfl⟩

end Markup
