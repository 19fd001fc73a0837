import Mathlib.Data.List.Chain
import Markup.Proofs.Tree.Legibility
import Markup.Proofs.Tree.Numbering
import Markup.Proofs.Tree.Soundness

/-!
# Documents tile their source

The spans of the nodes at the top of a document lie edge to edge from its start to its end, and
those of the children of an element from the end of its start tag to the start of its end tag. No
span is empty, and no two texts stand next to each other: text is held back until markup comes, so
that what follows a text is always an element or a leaf of another kind. Main statement:
`Document.tiles_of_parse`.
-/

namespace Markup

open Markup.Text

/-! ## Edge to edge -/

namespace Span

/-- Spans that are not empty and lie edge to edge from one offset to another. -/
def Tile : List Span → Nat → Nat → Prop
  | [], start, stop => start = stop
  | span :: rest, start, stop =>
      span.start = start ∧ span.start < span.stop ∧ Tile rest span.stop stop

theorem tile_append {first : List Span} {middle : Span} {last : List Span} {start stop : Nat} :
    Tile (first ++ middle :: last) start stop ↔ Tile first start middle.start ∧
      middle.start < middle.stop ∧ Tile last middle.stop stop := by
  induction first generalizing start with
  | nil => simp [Tile, eq_comm]
  | cons span rest ih => simp only [List.cons_append, Tile, ih, and_assoc]

/-- Spans that tile a range end within it. -/
theorem Tile.le {spans : List Span} {start stop : Nat} (htile : Tile spans start stop) :
    start ≤ stop := by
  induction spans generalizing start with
  | nil => exact Nat.le_of_eq htile
  | cons span rest ih =>
      obtain ⟨hstart, hlt, hrest⟩ := htile
      have hle := ih hrest
      omega

/-- Every span that tiles a part of a range is touched by the range. -/
theorem Tile.overlaps {span range : Span} {rest : List Span} {start : Nat}
    (htile : Tile (span :: rest) start range.stop) (hstart : range.start ≤ start) :
    span.overlaps range = true := by
  obtain ⟨hbegin, hlt, hrest⟩ := htile
  have hle := hrest.le
  have hfull : range.isEmpty = false := by
    simp only [isEmpty, beq_eq_false_iff_ne]
    omega
  simp only [Span.overlaps, hfull, Bool.false_eq_true, if_false, decide_eq_true_eq]
  omega

theorem Tile.of_mem {spans : List Span} {start stop : Nat} (htile : Tile spans start stop)
    {span : Span} (hmem : span ∈ spans) :
    start ≤ span.start ∧ span.start < span.stop ∧ span.stop ≤ stop := by
  obtain ⟨first, last, rfl⟩ := List.append_of_mem hmem
  obtain ⟨hfirst, hlt, hlast⟩ := tile_append.mp htile
  exact ⟨hfirst.le, hlt, hlast.le⟩

end Span

/-- An offset in front of a character of the text, or at its end. -/
def Text.Boundary (text : List Char) (offset : Nat) : Prop :=
  ∃ before after, text = before ++ after ∧ offset = byteSize before

theorem Span.Cuts.boundary {span : Span} {text piece : List Char} (hcuts : span.Cuts text piece) :
    Boundary text span.start ∧ Boundary text span.stop := by
  obtain ⟨before, after, htext, hstart, hstop⟩ := hcuts
  exact ⟨⟨before, piece ++ after, htext, hstart⟩,
    ⟨before ++ piece, after, by simp [htext], by simp [hstop]⟩⟩

theorem Span.Cuts.lt {span : Span} {text piece : List Char} (hcuts : span.Cuts text piece)
    (hne : piece ≠ []) : span.start < span.stop := by
  obtain ⟨before, after, -, hstart, hstop⟩ := hcuts
  obtain ⟨c, rest, rfl⟩ := List.exists_cons_of_ne_nil hne
  have hpos := c.utf8Size_pos
  rw [hstart, hstop, byteSize_cons]
  omega

namespace Node

def isText : Node → Bool
  | .leaf piece => piece.kind == .text
  | .element _ _ => false

/-- Nodes of which no two texts stand next to each other. -/
def Spaced (nodes : List Node) : Prop :=
  nodes.IsChain fun node next => ¬(node.isText = true ∧ next.isText = true)

/-- Whether a node goes on until something else ends it: a text, or an element with content and
without an end tag. -/
def endsOpen : Node → Bool
  | .leaf piece => piece.kind == .text
  | .element elem _ => elem.endTag.isNone && !elem.tag.standsAlone

/-- Nodes of which none is ended by a text. -/
def Parted (nodes : List Node) : Prop :=
  nodes.IsChain fun node next => ¬(node.endsOpen = true ∧ next.isText = true)

theorem Parted.spaced {nodes : List Node} (hparted : Parted nodes) : Spaced nodes := by
  refine List.IsChain.imp ?_ hparted
  rintro node next hends ⟨htext, hnext⟩
  refine hends ⟨?_, hnext⟩
  cases node with
  | leaf piece => exact htext
  | element elem children => cases htext

mutual

/-- A node in which no leaf is empty and no text ends another node. -/
def Tidy : Node → Prop
  | .element _ children => Parted children ∧ TidyAll children
  | .leaf piece => piece.raw ≠ []

def TidyAll : List Node → Prop
  | [] => True
  | node :: rest => Tidy node ∧ TidyAll rest

end

theorem tidyAll_iff {nodes : List Node} : TidyAll nodes ↔ ∀ node ∈ nodes, node.Tidy := by
  induction nodes with
  | nil => simp [TidyAll]
  | cons node rest ih => simp [TidyAll, ih]

mutual

theorem Tidy.of_mem_preorder {node inner : Node} (htidy : node.Tidy)
    (hmem : inner ∈ node.preorder) : inner.Tidy := by
  cases node with
  | leaf piece =>
      obtain rfl := List.mem_singleton.mp hmem
      exact htidy
  | element elem children =>
      rcases List.mem_cons.mp hmem with rfl | hinside
      · exact htidy
      · exact TidyAll.of_mem_preorderAll htidy.2 hinside

/-- What is tidy is tidy at every depth. -/
theorem TidyAll.of_mem_preorderAll {nodes : List Node} {inner : Node} (htidy : TidyAll nodes)
    (hmem : inner ∈ preorderAll nodes) : inner.Tidy := by
  cases nodes with
  | nil => simp [preorderAll] at hmem
  | cons node rest =>
      rcases List.mem_append.mp hmem with hfirst | hrest
      · exact Tidy.of_mem_preorder htidy.1 hfirst
      · exact TidyAll.of_mem_preorderAll htidy.2 hrest

end

mutual

theorem Sound.of_mem_preorder {node inner : Node} (hsound : node.Sound)
    (hmem : inner ∈ node.preorder) : inner.Sound := by
  cases node with
  | leaf piece =>
      obtain rfl := List.mem_singleton.mp hmem
      exact hsound
  | element elem children =>
      rcases List.mem_cons.mp hmem with rfl | hinside
      · exact hsound
      · exact SoundAll.of_mem_preorderAll hsound.2.2 hinside

/-- What is sound is sound at every depth. -/
theorem SoundAll.of_mem_preorderAll {nodes : List Node} {inner : Node} (hsound : SoundAll nodes)
    (hmem : inner ∈ preorderAll nodes) : inner.Sound := by
  cases nodes with
  | nil => simp [preorderAll] at hmem
  | cons node rest =>
      rcases List.mem_append.mp hmem with hfirst | hrest
      · exact Sound.of_mem_preorder hsound.1 hfirst
      · exact SoundAll.of_mem_preorderAll hsound.2 hrest

end

theorem Tidy.element_nil (elem : Element) : Tidy (.element elem []) :=
  ⟨.nil, trivial⟩

theorem Tidy.text_ne_nil {node : Node} (htidy : node.Tidy) : node.text ≠ [] := by
  cases node with
  | leaf piece => rwa [text_leaf]
  | element elem children => simp [StartTag.text]

theorem Tidy.byteSize_pos {node : Node} (htidy : node.Tidy) : 0 < byteSize node.text :=
  Text.byteSize_pos htidy.text_ne_nil

/-- Nodes that lie end to end tile the space they fill. -/
theorem tile_of_lieFrom {nodes : List Node} {offset : Nat} (hlie : LieFrom nodes offset)
    (htidy : TidyAll nodes) :
    Span.Tile (nodes.map span) offset (offset + byteSize (textOfAll nodes)) := by
  induction nodes generalizing offset with
  | nil => simp [Span.Tile]
  | cons node rest ih =>
      have hspan := span_of_lies hlie.1
      have hpos := htidy.1.byteSize_pos
      have hrest := ih hlie.2 htidy.2
      rw [List.map_cons, Span.Tile, hspan, textOfAll_cons, byteSize_append, ← Nat.add_assoc]
      exact ⟨rfl, by simpa using hpos, hrest⟩

end Node

/-! ## Trees under construction -/

namespace Nesting

/-- All nodes so far are tidy, and so are the rows they stand in. -/
def Tidy (open_ : Nesting) : Prop :=
  open_.Rowwise (fun _ => True) fun row => Node.Parted row ∧ Node.TidyAll row

/-- Whatever comes next, text included, may stand behind the last node. -/
def Settled (open_ : Nesting) : Prop :=
  ∀ node ∈ open_.level.getLast?, node.endsOpen = false

theorem parted_concat {nodes : List Node} {added : Node} (hparted : Node.Parted nodes)
    (hfits : added.isText = true → ∀ node ∈ nodes.getLast?, node.endsOpen = false) :
    Node.Parted (nodes ++ [added]) := by
  refine List.isChain_append.mpr ⟨hparted, .singleton _, fun node hlast next hnext => ?_⟩
  obtain rfl : added = next := by simpa using hnext
  rintro ⟨hends, hadded⟩
  simp [hfits hadded node hlast] at hends

theorem tidy_concat {nodes : List Node} {added : Node}
    (hrow : Node.Parted nodes ∧ Node.TidyAll nodes) (hadded : added.Tidy)
    (hfits : added.isText = true → ∀ node ∈ nodes.getLast?, node.endsOpen = false) :
    Node.Parted (nodes ++ [added]) ∧ Node.TidyAll (nodes ++ [added]) := by
  refine ⟨parted_concat hrow.1 hfits, Node.tidyAll_iff.mpr fun node hmem => ?_⟩
  rcases List.mem_append.mp hmem with hin | hin
  · exact Node.tidyAll_iff.mp hrow.2 node hin
  · obtain rfl := List.mem_singleton.mp hin
    exact hadded

/-- A node may be added, unless it is a text and would end the last one. -/
theorem Tidy.append {open_ : Nesting} (htidy : open_.Tidy) {added : Node} (hadded : added.Tidy)
    (hfits : added.isText = true → open_.Settled) : (open_.append added).Tidy :=
  Rowwise.append htidy fun hrow => tidy_concat hrow hadded hfits

theorem settled_append (open_ : Nesting) {added : Node} (hadded : added.endsOpen = false) :
    (open_.append added).Settled := by
  intro node hlast
  rw [level_append, List.getLast?_concat] at hlast
  obtain rfl := Option.some.inj hlast
  exact hadded

theorem Tidy.pop {open_ : Nesting} (htidy : open_.Tidy) (endTag : Option EndTag) (closed : Span) :
    (open_.pop endTag closed).Tidy :=
  Rowwise.pop htidy (fun _ _ _ _ _ hchildren hrow => tidy_concat hrow hchildren nofun) closed

/-- What ends an element leaves an element behind that has ended. -/
theorem settled_pop {open_ : Nesting} (hopen : open_.stack ≠ []) (tag : EndTag)
    (closed : Span) : (open_.pop (some tag) closed).Settled := by
  unfold Nesting.pop
  split
  next hstack => exact absurd hstack hopen
  next => exact settled_append _ rfl

theorem Tidy.popMany {open_ : Nesting} (htidy : open_.Tidy) (offset count : Nat) :
    (open_.popMany offset count).Tidy :=
  Rowwise.popMany htidy (fun _ _ _ _ _ hchildren hrow => tidy_concat hrow hchildren nofun)
    offset count

end Nesting

namespace Builder

/-- The tree so far is tidy. -/
def Tidy (builder : Builder) : Prop :=
  builder.nesting.Tidy

/-- What waits, if anything does, may become a node. -/
def Settled (builder : Builder) : Prop :=
  builder.nesting.Settled ∨ builder.waiting = []

theorem Tidy.flush {builder : Builder} (htidy : builder.Tidy) (hsettled : builder.Settled) :
    builder.flush.Tidy := by
  unfold Builder.flush
  split
  next => exact htidy
  next c rest hwaiting =>
    refine Nesting.Tidy.append htidy ?_ fun _ => hsettled.resolve_right (by simp [hwaiting])
    simp [Node.Tidy, hwaiting]

/-- A leaf that is no text may stand behind anything. -/
theorem Tidy.addLeaf {builder : Builder} (htidy : builder.Tidy) {kind : LeafKind}
    (hkind : kind ≠ .text) {raw : List Char} (hraw : raw ≠ []) :
    (builder.addLeaf kind raw).Tidy ∧ (builder.addLeaf kind raw).nesting.Settled := by
  have hadded : (kind == LeafKind.text) = false := by simpa using hkind
  exact ⟨Nesting.Tidy.append htidy hraw fun htext => by simp [Node.isText, hadded] at htext,
    Nesting.settled_append _ hadded⟩

theorem Tidy.prepare {builder prepared : Builder} (htidy : builder.Tidy)
    (hsettled : builder.Settled) {name : List Char}
    (hprepare : builder.prepare name = .ok prepared) : prepared.Tidy := by
  obtain ⟨-, rfl⟩ := Builder.prepare_eq_ok_iff.mp hprepare
  exact Nesting.Tidy.popMany (htidy.flush hsettled) _ _

theorem Tidy.startElement {builder : Builder} (htidy : builder.Tidy) (tag : StartTag) :
    (builder.startElement tag).Tidy ∧ (builder.startElement tag).nesting.Settled := by
  unfold Builder.startElement
  dsimp only
  split
  next halone =>
    have hends : ∀ elem : Element, elem.tag = tag → Node.endsOpen (.element elem []) = false := by
      rintro elem rfl
      simp [Node.endsOpen, StartTag.standsAlone, halone]
    exact ⟨Nesting.Tidy.append htidy (.element_nil _) nofun,
      Nesting.settled_append _ (hends _ rfl)⟩
  next =>
    refine ⟨Nesting.Rowwise.push htidy trivial ⟨.nil, trivial⟩ _ _, fun node hlast => ?_⟩
    simp [Nesting.level, Nesting.push] at hlast

theorem Tidy.addRawElement {builder : Builder} (htidy : builder.Tidy) (tag : StartTag)
    (content : List Char) (close : Option EndTag) :
    (builder.addRawElement tag content close).Tidy ∧
      (close ≠ none → (builder.addRawElement tag content close).nesting.Settled) := by
  have hsettled : ∀ (nesting : Nesting) (inner : OpenElement) (span : Span), close ≠ none →
      (nesting.append (inner.close close span)).Settled := fun nesting inner span hclose =>
    Nesting.settled_append _ (by simp [OpenElement.close, Node.endsOpen, hclose])
  unfold Builder.addRawElement
  cases content with
  | nil => exact ⟨Nesting.Tidy.append htidy (.element_nil _) nofun, hsettled _ _ _⟩
  | cons c rest =>
      have hfilled : ∀ piece : Leaf, piece.raw = c :: rest → Node.TidyAll [.leaf piece] :=
        fun piece hraw => ⟨by simp [Node.Tidy, hraw], trivial⟩
      exact ⟨Nesting.Tidy.append htidy ⟨.singleton _, hfilled _ rfl⟩ nofun, hsettled _ _ _⟩

end Builder

namespace Token

/-- Whether a token takes all there is: raw text that no end tag ends. -/
def isFinal : Token → Bool
  | rawElement _ _ none => true
  | _ => false

theorem isFinal_readUntil (construct : Construct) {token : List Char → Token}
    (htoken : ∀ raw, (token raw).isFinal = false) (opening pattern text : List Char) :
    (readUntil construct token opening pattern text).1.isFinal = false := by
  unfold readUntil
  split
  next => exact htoken _
  next => rfl

theorem readRawText_of_none {name text : List Char} (hnone : (readRawText name text).2.1 = none) :
    (readRawText name text).2.2 = [] := by
  unfold readRawText at hnone ⊢
  split
  next => rfl
  next hsplit =>
    rw [hsplit] at hnone
    dsimp only at hnone ⊢
    split
    next => rfl
    next hread => simp [hread] at hnone

theorem readStartTag_of_isFinal {text : List Char}
    (hfinal : (readStartTag text).1.isFinal = true) : (readStartTag text).2 = [] := by
  unfold readStartTag at hfinal ⊢
  split
  next => rfl
  next tag after hread =>
    rw [hread] at hfinal
    dsimp only at hfinal ⊢
    split
    next hraw =>
      rw [if_pos hraw] at hfinal
      refine readRawText_of_none (Option.eq_none_iff_forall_ne_some.mpr fun close hclose => ?_)
      simp [hclose, isFinal] at hfinal
    next hplain =>
      rw [if_neg hplain] at hfinal
      cases hfinal

theorem readMarkup_of_isFinal {rest : List Char} (hfinal : (readMarkup rest).1.isFinal = true) :
    (readMarkup rest).2 = [] := by
  have hends : ∀ found : Token × List Char, found.1.isFinal = false → readMarkup rest = found →
      (readMarkup rest).2 = [] := fun found hfound hread => by simp [hread, hfound] at hfinal
  rcases opens_cases rest with hopens | ⟨body, rfl⟩ | ⟨body, rfl⟩ | hdeclares |
    ⟨c, body, halpha, rfl⟩ | ⟨c, body, halpha, rfl⟩
  · exact hends _ rfl (readMarkup_of_not_opens hopens)
  · exact hends _ (isFinal_readUntil _ (fun _ => rfl) _ _ _) (readMarkup_comment body)
  · exact hends _ (isFinal_readUntil _ (fun _ => rfl) _ _ _) (readMarkup_cdata body)
  · exact hends _ (isFinal_readUntil _ (fun _ => rfl) _ _ _) (readMarkup_declaration hdeclares)
  · refine hends _ ?_ (readMarkup_endTag halpha body)
    split <;> rfl
  · rw [readMarkup_startTag halpha] at hfinal ⊢
    exact readStartTag_of_isFinal hfinal

/-- No token follows one that takes all there is. -/
theorem isChain_ofText (text : List Char) :
    (ofText text).IsChain fun token _ => token.isFinal = false := by
  fun_induction ofText text with
  | case1 => exact .nil
  | case2 c rest ih =>
      refine List.isChain_cons.mpr ⟨fun next hnext => ?_, ih⟩
      refine Bool.eq_false_iff.mpr fun hfinal => ?_
      have hend : (read c rest).2 = [] := by
        unfold read at hfinal ⊢
        split
        next hangle => exact readMarkup_of_isFinal (by rwa [if_pos hangle] at hfinal)
        next hprose => simp [if_neg hprose, isFinal] at hfinal
      rw [hend, ofText] at hnext
      cases hnext

end Token

namespace Builder

/-- Adding a token keeps the tree tidy, and text may come next unless the token takes all there
is. -/
theorem Tidy.add {builder added : Builder} (htidy : builder.Tidy)
    (hsettled : builder.nesting.Settled) {token : Token} (hfits : token.Fits)
    (hadd : builder.add token = .ok added) :
    added.Tidy ∧ (added.nesting.Settled ∨ token.isFinal = true ∧ added.waiting = []) := by
  have hflush := htidy.flush (.inl hsettled)
  cases token with
  | text raw => cases hadd; exact ⟨htidy, .inl hsettled⟩
  | unterminated construct raw => cases hadd; exact ⟨htidy, .inl hsettled⟩
  | comment raw =>
      cases hadd
      have hkind : LeafKind.comment ≠ .text := by simp
      exact (hflush.addLeaf hkind (ne_nil_of_ofLeaf_fits hkind hfits)).imp_right .inl
  | cdata raw =>
      cases hadd
      have hkind : LeafKind.verbatim ≠ .text := by simp
      exact (hflush.addLeaf hkind (ne_nil_of_ofLeaf_fits hkind hfits)).imp_right .inl
  | declaration raw =>
      cases hadd
      have hkind : LeafKind.doctype ≠ .text := by simp
      exact (hflush.addLeaf hkind (ne_nil_of_ofLeaf_fits hkind hfits)).imp_right .inl
  | endTag tag =>
      cases hadd
      unfold Builder.endElement
      split
      next => exact ⟨htidy, .inl hsettled⟩
      next count hfound =>
        have hmany := Nesting.Tidy.popMany hflush builder.flush.position count
        exact ⟨hmany.pop _ _, .inl (Nesting.settled_pop (popMany_flush_stack_ne_nil hfound _) _ _)⟩
  | startTag tag =>
      obtain ⟨prepared, hprepare, hstart⟩ := bind_eq_ok_iff.mp hadd
      cases hstart
      exact ((htidy.prepare (.inl hsettled) hprepare).startElement tag).imp_right .inl
  | rawElement tag content close =>
      obtain ⟨prepared, hprepare, hstart⟩ := bind_eq_ok_iff.mp hadd
      cases hstart
      obtain ⟨hadded, hclosed⟩ :=
        (htidy.prepare (.inl hsettled) hprepare).addRawElement tag content close
      refine ⟨hadded, ?_⟩
      cases close with
      | some close => exact .inl (hclosed (by simp))
      | none =>
          refine .inr ⟨rfl, ?_⟩
          rw [← waiting_prepare hprepare]
          unfold Builder.addRawElement
          cases content <;> rfl

theorem Tidy.addAll {builder final : Builder} (htidy : builder.Tidy)
    (hsettled : builder.nesting.Settled) {tokens : List Token}
    (hfits : ∀ token ∈ tokens, token.Fits)
    (hchain : tokens.IsChain fun token _ => token.isFinal = false)
    (haddAll : builder.addAll tokens = .ok final) : final.Tidy ∧ final.Settled := by
  induction tokens generalizing builder with
  | nil => cases haddAll; exact ⟨htidy, .inl hsettled⟩
  | cons token rest ih =>
      obtain ⟨added, hadd, hrest⟩ := addAll_eq_ok_cons.mp haddAll
      obtain ⟨hadded, hnext⟩ := htidy.add hsettled (hfits token List.mem_cons_self) hadd
      rcases hnext with hnext | ⟨hfinal, hempty⟩
      · exact ih hadded hnext (fun token hmem => hfits token (List.mem_cons_of_mem _ hmem))
          hchain.tail hrest
      · cases rest with
        | nil => cases hrest; exact ⟨hadded, .inr hempty⟩
        | cons next rest =>
            exact absurd hfinal (by simp [(List.isChain_cons_cons.mp hchain).1])

end Builder

/-! ## Documents -/

namespace Document

/-- No leaf of a document is empty, and no text in it ends another node. -/
theorem tidy_of_parse {text : List Char} {document : Document}
    (hparse : parse text = .ok document) :
    Node.Parted document.children ∧ Node.TidyAll document.children := by
  obtain ⟨builder, haddAll, rfl⟩ := parse_eq_ok_iff.mp hparse
  have hstart : ({} : Builder).Tidy := ⟨⟨.nil, trivial⟩, by simp⟩
  obtain ⟨htidy, hsettled⟩ := hstart.addAll (by simp [Nesting.Settled, Nesting.level])
    (fun _ => Token.fits_of_mem_ofText) (Token.isChain_ofText text) haddAll
  exact (Nesting.Tidy.popMany (htidy.flush hsettled) _ _).finished

end Document

namespace Element

theorem cuts_of_mem_spansFrom {attributes : List Attribute} {before after : List Char}
    {entry : Attribute × Span} (hmem : entry ∈ spansFrom (byteSize before) attributes) :
    entry.2.Cuts (before ++ (attributes.flatMap Attribute.text ++ after)) entry.1.body := by
  induction attributes generalizing before with
  | nil => cases hmem
  | cons attr rest ih =>
      have hsize : byteSize before + byteSize attr.gap = byteSize (before ++ attr.gap) := by simp
      rcases List.mem_cons.mp hmem with rfl | hrest
      · refine ⟨before ++ attr.gap, rest.flatMap Attribute.text ++ after, ?_, hsize, ?_⟩
        · simp [Attribute.text]
        · simp
      · have hfront : byteSize before + byteSize attr.gap + byteSize attr.body =
            byteSize (before ++ attr.text) := by
          simp [Attribute.text, Nat.add_assoc]
        rw [hfront] at hrest
        simpa using ih hrest

/-- The tags of an element stand at its two ends, its children tile what is between them, and every
span in its tags cuts what it is said to out of the source. -/
structure Tiles (elem : Element) (children : List Node) (source : List Char) : Prop where
  opened_start : elem.opened.start = elem.span.start
  closed_stop : elem.closed.stop = elem.span.stop
  unclosed : elem.endTag = none → elem.content.stop = elem.span.stop
  tile : Span.Tile (children.map Node.span) elem.content.start elem.content.stop
  opened : elem.opened.Cuts source elem.tag.text
  closed : elem.closed.Cuts source elem.endText
  attributes : ∀ entry ∈ elem.attributes, entry.2.Cuts source entry.1.body
  spaced : Node.Spaced children

theorem tiles_of_lies {elem : Element} {children : List Node} {before after : List Char}
    (hlies : (Node.element elem children).Lies (byteSize before))
    (htidy : (Node.element elem children).Tidy) :
    elem.Tiles children (before ++ ((Node.element elem children).text ++ after)) := by
  obtain ⟨hopened, hchildren, hclosed⟩ := hlies
  have htile := Node.tile_of_lieFrom hchildren htidy.2
  refine ⟨rfl, rfl, fun hnone => ?_, ?_, ?_, ?_, fun entry hmem => ?_, htidy.1.spaced⟩
  · simp [content, span, hclosed, endText, hnone]
  · simpa [content, hclosed] using htile
  · exact ⟨before, Node.textOfAll children ++ (elem.endText ++ after), by simp, by rw [hopened],
      by rw [hopened]⟩
  · refine ⟨before ++ (elem.tag.text ++ Node.textOfAll children), after, by simp, ?_, ?_⟩
    · simp [hclosed, hopened, Nat.add_assoc]
    · simp [hclosed, hopened, Nat.add_assoc]
  · have hname : elem.opened.start + 1 + byteSize elem.name =
        byteSize (before ++ '<' :: elem.tag.name) := by
      have hangle : '<'.utf8Size = 1 := rfl
      simp [hopened, name, hangle, Nat.add_assoc]
    unfold attributes at hmem
    rw [hname] at hmem
    have hcuts : entry.2.Cuts (before ++ '<' :: elem.tag.name ++
        (elem.tag.attributes.flatMap Attribute.text ++ (elem.tag.trailing ++
          (elem.tag.ending.text ++ (Node.textOfAll children ++ (elem.endText ++ after))))))
        entry.1.body := cuts_of_mem_spansFrom hmem
    simpa [StartTag.text, StartTag.body] using hcuts

end Element

namespace Document

/-- The tree tiles its source: the nodes at the top lie edge to edge over all of it, and so do the
children of every element between its tags. No node is empty, every span begins and ends between
characters and cuts out what it stands for, texts never touch, and the nodes are numbered from zero
on in document order. -/
theorem tiles_of_parse {text : List Char} {document : Document}
    (hparse : parse text = .ok document) :
    Span.Tile (document.children.map Node.span) 0 (byteSize text) ∧
      Node.Spaced document.children ∧
      (∀ node ∈ Node.preorderAll document.children,
        node.span.Cuts text node.text ∧ node.span.start < node.span.stop ∧
          Boundary text node.span.start ∧ Boundary text node.span.stop) ∧
      (∀ piece, .leaf piece ∈ Node.preorderAll document.children →
        piece.span.Cuts text piece.raw) ∧
      (∀ elem children, .element elem children ∈ Node.preorderAll document.children →
        elem.Tiles children text) ∧
      (Node.preorderAll document.children).map Node.id = List.range document.count := by
  obtain ⟨hparted, htidy⟩ := tidy_of_parse hparse
  have hcuts : ∀ node ∈ Node.preorderAll document.children, node.span.Cuts text node.text :=
    fun node hmem => cuts_of_parse hparse hmem
  have htile := Node.tile_of_lieFrom (lieFrom_of_parse hparse) htidy
  rw [textOfAll_of_parse hparse, Nat.zero_add] at htile
  refine ⟨htile, hparted.spaced, fun node hmem => ?_, fun piece hmem => ?_,
    fun elem children hmem => ?_, ?_⟩
  · have hne := (Node.TidyAll.of_mem_preorderAll htidy hmem).text_ne_nil
    exact ⟨hcuts node hmem, (hcuts node hmem).lt hne, (hcuts node hmem).boundary⟩
  · simpa [Node.span] using hcuts _ hmem
  · obtain ⟨before, after, htext, hlies⟩ := exists_lies_of_parse hparse hmem
    rw [htext]
    exact Element.tiles_of_lies hlies (Node.TidyAll.of_mem_preorderAll htidy hmem)
  · exact map_id_of_parse hparse

/-- Siblings: the nodes at the top of a document, or the children of an element in it. -/
def Level (document : Document) : Option Element → List Node → Prop
  | none, row => row = document.children
  | some elem, row => .element elem row ∈ Node.preorderAll document.children

/-- What siblings tile: the content of the element around them, or all of the source. -/
def inside (document : Document) : Option Element → Span
  | none => ⟨0, byteSize document.source⟩
  | some elem => elem.content

theorem tile_of_level {text : List Char} {document : Document} {container : Option Element}
    {row : List Node} (hparse : parse text = .ok document) (hlevel : document.Level container row) :
    Span.Tile (row.map Node.span) (document.inside container).start
      (document.inside container).stop := by
  obtain ⟨htile, -, -, -, htiles, -⟩ := tiles_of_parse hparse
  cases container with
  | none =>
      rw [hlevel, inside, source_of_parse hparse]
      exact htile
  | some elem => exact (htiles elem row hlevel).tile

/-- A document with a comment, an attribute, a void element, an end tag with a blank in it and an
element that never ends. -/
theorem tiles_of_parse_unclosed :
    let text := "a<!----><p b=é>c<br></p >\n<i>".toList
    let comment : Leaf := ⟨.comment, 1, "<!---->".toList, ⟨1, 8⟩⟩
    let value : AttributeValue := ⟨['='], ['é'], none⟩
    let paragraph : Element :=
      ⟨2, ⟨['p'], [⟨[' '], ['b'], some value⟩], [], .plain⟩, some ⟨['p'], "</p >".toList⟩, ⟨8, 16⟩,
        ⟨21, 26⟩⟩
    let inside : List Node := [.leaf ⟨.text, 3, ['c'], ⟨16, 17⟩⟩,
      .element ⟨4, ⟨['b', 'r'], [], [], .plain⟩, none, ⟨17, 21⟩, ⟨21, 21⟩⟩ []]
    ∃ document, parse text = .ok document ∧
      document.children.map Node.span = [⟨0, 1⟩, ⟨1, 8⟩, ⟨8, 26⟩, ⟨26, 27⟩, ⟨27, 30⟩] ∧
      Span.Tile (document.children.map Node.span) 0 (byteSize text) ∧
      Node.Spaced document.children ∧
      comment.span.Cuts text comment.raw ∧
      paragraph.Tiles inside text ∧
      (Node.preorderAll document.children).map Node.id = List.range 7 := by
  intro text comment value paragraph inside
  have hparse : parse text = .ok ⟨text, [.leaf ⟨.text, 0, ['a'], ⟨0, 1⟩⟩, .leaf comment,
      .element paragraph inside, .leaf ⟨.text, 5, ['\n'], ⟨26, 27⟩⟩,
      .element ⟨6, ⟨['i'], [], [], .plain⟩, none, ⟨27, 30⟩, ⟨30, 30⟩⟩ []], 7, []⟩ := by
    with_unfolding_all rfl
  obtain ⟨htile, hspaced, -, hleaves, helements, hids⟩ := tiles_of_parse hparse
  exact ⟨_, hparse, rfl, htile, hspaced, hleaves comment
    (by simp [Node.preorderAll, Node.preorder]),
      helements paragraph inside (by simp [Node.preorderAll, Node.preorder]), hids⟩

end Document

end Markup
