import Markup.Proofs.Tree.Listing

/-!
# What holds of every row of a tree under construction

Many facts about a tree speak of its rows of nodes one by one: the finished nodes, and the children
of each open element. Such a fact grows with the row, and when an element ends it has to come from
that of the children and from what is known of the tags. The laws of a fact say this once, and every
operation of the builder keeps the fact by them.
-/

namespace Markup

/-- Whether an element with this start tag ends with it. -/
def StartTag.standsAlone (tag : StartTag) : Bool :=
  tag.ending = .selfClosing || Tag.isVoid tag.name

namespace Nesting

/-- The nodes of the innermost open element, or of the document where nothing is open. -/
def level (open_ : Nesting) : List Node :=
  match open_.stack with
  | [] => open_.finished.toList
  | inner :: _ => inner.children.toList

theorem level_append (open_ : Nesting) (added : Node) :
    (open_.append added).level = open_.level ++ [added] := by
  unfold Nesting.append level
  cases open_.stack with
  | nil => simp
  | cons inner outer => simp

variable {Opened : StartTag → Prop} {Ended : EndTag → Prop} {Row : List Node → Prop}

/-- A fact about the start tag of every open element, and one about every row of nodes. -/
structure Rowwise (Opened : StartTag → Prop) (Row : List Node → Prop) (open_ : Nesting) : Prop where
  finished : Row open_.finished.toList
  stack : ∀ element ∈ open_.stack, Opened element.tag ∧ Row element.children.toList

namespace Rowwise

variable {open_ : Nesting}

theorem mono {Wider : List Node → Prop} (hwider : ∀ nodes, Row nodes → Wider nodes)
    (hrows : open_.Rowwise Opened Row) : open_.Rowwise Opened Wider :=
  ⟨hwider _ hrows.finished, fun element hmem => (hrows.stack element hmem).imp_right (hwider _)⟩

/-- A node is added to the innermost row, and no other row changes. -/
theorem append {added : Node} (hrows : open_.Rowwise Opened Row)
    (hadded : Row open_.level → Row (open_.level ++ [added])) :
    (open_.append added).Rowwise Opened Row := by
  unfold level at hadded
  unfold Nesting.append
  split
  next hstack =>
    rw [hstack] at hadded
    refine ⟨?_, hrows.stack⟩
    rw [Array.toList_push]
    exact hadded hrows.finished
  next inner outer hstack =>
    rw [hstack] at hadded
    have hopen := hrows.stack
    rw [hstack] at hopen
    obtain ⟨⟨hopened, hinner⟩, houter⟩ := List.forall_mem_cons.mp hopen
    refine ⟨hrows.finished, List.forall_mem_cons.mpr ⟨⟨hopened, ?_⟩, houter⟩⟩
    rw [Array.toList_push]
    exact hadded hinner

theorem push (hrows : open_.Rowwise Opened Row) {tag : StartTag} (hopened : Opened tag)
    (hnil : Row []) (id : Nat) (opened : Span) :
    (open_.push ⟨id, tag, opened, #[]⟩).Rowwise Opened Row :=
  ⟨hrows.finished, List.forall_mem_cons.mpr ⟨⟨hopened, hnil⟩, hrows.stack⟩⟩

/-- The innermost row becomes the children of an element, which joins the row around it. -/
theorem pop (hrows : open_.Rowwise Opened Row) {endTag : Option EndTag}
    (hjoins : ∀ elem children row, elem.endTag = endTag → Opened elem.tag → Row children →
      Row row → Row (row ++ [.element elem children])) (closed : Span) :
    (open_.pop endTag closed).Rowwise Opened Row := by
  unfold Nesting.pop
  split
  next => exact hrows
  next inner outer hstack =>
    have hopen := hrows.stack
    rw [hstack] at hopen
    obtain ⟨⟨hopened, hinner⟩, houter⟩ := List.forall_mem_cons.mp hopen
    have houtside : Rowwise Opened Row { open_ with stack := outer } := ⟨hrows.finished, houter⟩
    exact houtside.append (hjoins _ _ _ rfl hopened hinner)

theorem popMany (hrows : open_.Rowwise Opened Row)
    (hjoins : ∀ elem children row, elem.endTag = none → Opened elem.tag → Row children →
      Row row → Row (row ++ [.element elem children])) (offset count : Nat) :
    (open_.popMany offset count).Rowwise Opened Row := by
  induction count generalizing open_ with
  | zero => exact hrows
  | succ count ih => exact ih (hrows.pop hjoins _)

end Rowwise

/-- How a fact about rows comes about, for nodes such as are read from a text. `Ended` is what is
known of the end tags. A raw text element is not among the nodes here, since its content is not read
by way of the open elements. -/
structure RowLaws (Opened : StartTag → Prop) (Ended : EndTag → Prop)
    (Row : List Node → Prop) : Prop where
  nil : Row []
  concat {nodes : List Node} {added : Node} : Row nodes → Row [added] → Row (nodes ++ [added])
  text {piece : Leaf} : piece.kind = .text → piece.raw ≠ [] → Row [.leaf piece]
  leaf {piece : Leaf} : piece.kind ≠ .text → (Token.ofLeaf piece.kind piece.raw).Fits →
    Row [.leaf piece]
  opened {tag : StartTag} : (Token.startTag tag).Fits → tag.standsAlone = false → Opened tag
  ended {tag : EndTag} : (Token.endTag tag).Fits → Ended tag
  alone {elem : Element} : (Token.startTag elem.tag).Fits → elem.endTag = none →
    Row [.element elem []]
  element {elem : Element} {children : List Node} : Opened elem.tag →
    (∀ close ∈ elem.endTag, Ended close) → Row children → Row [.element elem children]

namespace RowLaws

variable (hlaws : RowLaws Opened Ended Row)

include hlaws

theorem append {open_ : Nesting} {added : Node} (hrows : open_.Rowwise Opened Row)
    (hadded : Row [added]) : (open_.append added).Rowwise Opened Row :=
  hrows.append fun hrow => hlaws.concat hrow hadded

theorem pop {open_ : Nesting} (hrows : open_.Rowwise Opened Row) {endTag : Option EndTag}
    (hended : ∀ close ∈ endTag, Ended close) (closed : Span) :
    (open_.pop endTag closed).Rowwise Opened Row := by
  refine hrows.pop (fun elem children row hend hopened hchildren hrow => ?_) closed
  exact hlaws.concat hrow (hlaws.element hopened (hend ▸ hended) hchildren)

theorem popMany {open_ : Nesting} (hrows : open_.Rowwise Opened Row) (offset count : Nat) :
    (open_.popMany offset count).Rowwise Opened Row := by
  refine hrows.popMany (fun elem children row hend hopened hchildren hrow => ?_) offset count
  exact hlaws.concat hrow (hlaws.element hopened (by simp [hend]) hchildren)

/-! ## Operations of the builder -/

theorem flush {builder : Builder} (hrows : builder.nesting.Rowwise Opened Row) :
    builder.flush.nesting.Rowwise Opened Row := by
  unfold Builder.flush
  split
  next => exact hrows
  next c rest hwaiting => exact hlaws.append hrows (hlaws.text rfl (by simp [hwaiting]))

theorem addLeaf {builder : Builder} {kind : LeafKind} {raw : List Char} (hkind : kind ≠ .text)
    (hfits : (Token.ofLeaf kind raw).Fits) (hrows : builder.nesting.Rowwise Opened Row) :
    (builder.addLeaf kind raw).nesting.Rowwise Opened Row :=
  hlaws.append hrows (hlaws.leaf hkind hfits)

theorem prepare {builder prepared : Builder} {name : List Char}
    (hrows : builder.nesting.Rowwise Opened Row) (hprepare : builder.prepare name = .ok prepared) :
    prepared.nesting.Rowwise Opened Row := by
  obtain ⟨-, rfl⟩ := Builder.prepare_eq_ok_iff.mp hprepare
  exact hlaws.popMany (hlaws.flush hrows) _ _

theorem startElement {builder : Builder} {tag : StartTag} (hfits : (Token.startTag tag).Fits)
    (hrows : builder.nesting.Rowwise Opened Row) :
    (builder.startElement tag).nesting.Rowwise Opened Row := by
  unfold Builder.startElement
  dsimp only
  split
  next => exact hlaws.append hrows (hlaws.alone hfits rfl)
  next halone => exact hrows.push (hlaws.opened hfits (Bool.not_eq_true _ ▸ halone)) hlaws.nil _ _

theorem endElement {builder : Builder} {tag : EndTag} (hfits : (Token.endTag tag).Fits)
    (hrows : builder.nesting.Rowwise Opened Row) :
    (builder.endElement tag).nesting.Rowwise Opened Row := by
  unfold Builder.endElement
  split
  next => exact hrows
  next =>
    refine hlaws.pop (hlaws.popMany (hlaws.flush hrows) _ _) ?_ _
    intro close hclose
    obtain rfl := Option.some.inj hclose
    exact hlaws.ended hfits

/-- A fact that holds of every raw text element as well holds of every tree under construction. -/
theorem stable
    (hraw : ∀ elem children,
      (Token.rawElement elem.tag (Node.textOfAll children) elem.endTag).Fits →
      (children = [] ∨ ∃ piece, children = [.leaf piece] ∧ piece.kind = .verbatim) →
        Row [.element elem children]) :
    Builder.Stable fun builder => builder.nesting.Rowwise Opened Row where
  start := ⟨hlaws.nil, by simp⟩
  hold _ _ hrows := hrows
  flush := hlaws.flush
  addLeaf := hlaws.addLeaf
  prepare := hlaws.prepare
  startElement := hlaws.startElement
  addRawElement {builder tag content close} hfits hrows := by
    obtain ⟨elem, children, rfl, rfl, rfl, -, hinside, hadded⟩ :=
      builder.nesting_addRawElement tag content close
    rw [hadded]
    refine hlaws.append hrows (hraw elem children hfits (hinside.imp_right ?_))
    exact fun ⟨piece, hpiece, hkind, _⟩ => ⟨piece, hpiece, hkind⟩
  endElement := hlaws.endElement

end RowLaws

end Nesting

end Markup
