import Markup.Proofs.Tree.Outline
import Markup.Proofs.Tree.Soundness
import Markup.Proofs.Tree.Tiling

/-!
# How elements come to an end

An element with content ends at an end tag with its name, at the start of an element that may not
stand inside it, or with the element around it. The first of these ends everything inside the
element as well, which is why an end tag never reaches past an open element with its name; the
second leaves an element that is the last of its row until the one that ended it joins the row.

The invariant is about the rows of nodes in the open elements. Each is in order as far as it has
been read, and the open element that will join it next may stand behind its last node. Main
statement: `Document.closes_of_parse`.
-/

namespace Markup

open Markup.Text

/-! ## The rules -/

/-- Whether an element with this start tag goes on until something else than its own content ends
it. -/
def StartTag.nests (tag : StartTag) : Bool :=
  !(tag.ending = .selfClosing || Tag.isVoid tag.name || Tag.isRawText tag.name)

theorem StartTag.standsAlone_of_nests {tag : StartTag} (hnests : tag.nests = true) :
    tag.standsAlone = false := by
  simp only [nests, Bool.not_eq_true', Bool.or_eq_false_iff] at hnests
  simp [standsAlone, hnests.1]

theorem StartTag.nests_of_fits {tag : StartTag} (hfits : (Token.startTag tag).Fits)
    (halone : tag.standsAlone = false) : tag.nests = true := by
  have hraw := hfits.2.2
  simp only [standsAlone, Bool.or_eq_false_iff, decide_eq_false_iff_not] at halone
  have hplain : tag.ending = .plain := by
    cases hending : tag.ending with
    | plain => rfl
    | selfClosing => exact absurd hending halone.1
  simp only [takesRawText, hplain, halone.2, decide_true, Bool.not_false, Bool.true_and] at hraw
  simp [nests, hplain, halone.2, hraw]

/-- Whether an element goes on until something else ends it, and no end tag does. -/
def Element.isLeft (elem : Element) : Bool :=
  elem.endTag.isNone && elem.tag.nests

namespace Node

/-- The name of a node that is an element. -/
def name? : Node → Option (List Char)
  | .element elem _ => some elem.name
  | .leaf _ => none

/-- Whether a node may have a sibling with the given name, or without one, directly behind it: an
element that is left open has to be ended by the next. -/
def GivesWay : Node → Option (List Char) → Prop
  | .element elem _, next =>
      elem.isLeft = true → ∃ name ∈ next, Tag.impliesEnd elem.name name = true
  | .leaf _, _ => True

/-- Siblings each of which is the last or may have the next one behind it. -/
def Followed (nodes : List Node) : Prop :=
  nodes.IsChain fun node next => node.GivesWay next.name?

/-- A node that does not wait for its end may have anything behind it. -/
theorem GivesWay.of_none {node : Node} (hgives : node.GivesWay none) (next : Option (List Char)) :
    node.GivesWay next := by
  cases node with
  | leaf piece => trivial
  | element elem children =>
      intro hleft
      obtain ⟨name, hname, -⟩ := hgives hleft
      cases hname

mutual

/-- The start tags of the elements that are left open and end where the node does, from the outside
in. -/
def hanging : Node → List StartTag
  | .element elem children => if elem.isLeft then elem.tag :: hangingAll children else []
  | .leaf _ => []

def hangingAll : List Node → List StartTag
  | [] => []
  | [node] => hanging node
  | _ :: next :: rest => hangingAll (next :: rest)

end

theorem hangingAll_concat (nodes : List Node) (last : Node) :
    hangingAll (nodes ++ [last]) = hanging last := by
  induction nodes with
  | nil => rfl
  | cons node rest ih =>
      cases rest with
      | nil => rfl
      | cons next others => exact ih

theorem hangingAll_of_givesWay {nodes : List Node}
    (hlast : ∀ last ∈ nodes.getLast?, last.GivesWay none) : hangingAll nodes = [] := by
  rcases List.eq_nil_or_concat nodes with rfl | ⟨front, last, rfl⟩
  · rfl
  rw [List.concat_eq_append] at hlast ⊢
  rw [hangingAll_concat]
  have hgives := hlast last (by simp)
  cases last with
  | leaf piece => rfl
  | element elem children =>
      have hleft : ¬elem.isLeft = true := fun hleft => by
        obtain ⟨name, hname, -⟩ := hgives hleft
        cases hname
      rw [hanging, if_neg hleft]

theorem preorderAll_append (first second : List Node) :
    preorderAll (first ++ second) = preorderAll first ++ preorderAll second := by
  induction first with
  | nil => rfl
  | cons node rest ih => rw [List.cons_append, preorderAll, preorderAll, ih, List.append_assoc]

/-- Siblings inside an element with the given name, or outside all elements: none of them would have
ended that element, and each is followed by what may follow it. -/
structure Row (parent : Option (List Char)) (nodes : List Node) : Prop where
  followed : Followed nodes
  admitted : ∀ node ∈ nodes, ∀ name ∈ node.name?, ∀ outer ∈ parent,
    Tag.impliesEnd outer name = false

theorem Row.nil (parent : Option (List Char)) : Row parent [] :=
  ⟨.nil, by simp⟩

theorem Row.concat {parent : Option (List Char)} {nodes : List Node} {added : Node}
    (hrow : Row parent nodes) (hlast : ∀ last ∈ nodes.getLast?, last.GivesWay added.name?)
    (hadmits : ∀ name ∈ added.name?, ∀ outer ∈ parent, Tag.impliesEnd outer name = false) :
    Row parent (nodes ++ [added]) := by
  constructor
  · refine List.isChain_append.mpr ⟨hrow.followed, .singleton _, fun last hmem next hnext => ?_⟩
    obtain rfl : added = next := by simpa using hnext
    exact hlast last hmem
  · intro node hmem
    rcases List.mem_append.mp hmem with hin | hin
    · exact hrow.admitted node hin
    · obtain rfl := List.mem_singleton.mp hin
      exact hadmits

end Node

/-- The content of raw text: nothing, or a leaf that is not empty. -/
def Node.Verbatim (nodes : List Node) : Prop :=
  nodes = [] ∨ ∃ piece, nodes = [.leaf piece] ∧ piece.kind = .verbatim ∧ piece.raw ≠ []

/-- How an element has ended, in terms of the nodes inside it. -/
structure Element.Ended (elem : Element) (children : List Node) : Prop where
  closed : ∀ tag ∈ elem.endTag, tag.raw ≠ [] ∧ elem.is tag.name = true ∧
    ∀ inner ∈ Node.hangingAll children, sameName inner.name tag.name = false
  row : Node.Row (some elem.name) children
  alone : elem.tag.standsAlone = true → children = [] ∧ elem.endTag = none
  raw : Tag.isRawText elem.name = true → Node.Verbatim children

/-- An element with elements inside has content that is markup. -/
theorem Element.Ended.nests_of_mem {elem inner : Element} {children inside : List Node}
    (hended : elem.Ended children) (hmem : .element inner inside ∈ Node.preorderAll children) :
    elem.tag.nests = true := by
  have halone : elem.tag.standsAlone = false := by
    refine Bool.eq_false_iff.mpr fun halone => ?_
    rw [(hended.alone halone).1] at hmem
    simp [Node.preorderAll] at hmem
  have hraw : Tag.isRawText elem.name = false := by
    refine Bool.eq_false_iff.mpr fun hraw => ?_
    rcases hended.raw hraw with rfl | ⟨piece, rfl, -⟩ <;>
      simp [Node.preorderAll, Node.preorder] at hmem
  simp only [StartTag.standsAlone, Bool.or_eq_false_iff] at halone
  rw [Element.name] at hraw
  simp [StartTag.nests, halone, hraw]

/-- All elements among the nodes and inside them have ended by the rules. -/
def Node.AllEnded (nodes : List Node) : Prop :=
  ∀ elem children, .element elem children ∈ preorderAll nodes → elem.Ended children

namespace Node

theorem AllEnded.concat {nodes : List Node} {added : Node} (hnodes : AllEnded nodes)
    (hadded : AllEnded [added]) : AllEnded (nodes ++ [added]) := by
  intro elem children hmem
  rw [preorderAll_append] at hmem
  exact (List.mem_append.mp hmem).elim (hnodes elem children) (hadded elem children)

theorem allEnded_leaf (piece : Leaf) : AllEnded [.leaf piece] := by
  intro elem children hmem
  simp [preorderAll, preorder] at hmem

theorem allEnded_element {elem : Element} {children : List Node} (hended : elem.Ended children)
    (hinside : AllEnded children) : AllEnded [.element elem children] := by
  intro inner inside hmem
  simp only [preorderAll, preorder, List.append_nil, List.mem_cons, Node.element.injEq] at hmem
  rcases hmem with ⟨rfl, rfl⟩ | hmem
  · exact hended
  · exact hinside inner inside hmem

end Node

/-! ## Open elements -/

namespace Nesting

/-- The name of the innermost open element. -/
def parent? (open_ : Nesting) : Option (List Char) :=
  (open_.stack.map OpenElement.tag).head?.map StartTag.name

/-- Whether a node with the given name, or without one, may come next. -/
structure Takes (open_ : Nesting) (next : Option (List Char)) : Prop where
  last : ∀ last ∈ open_.level.getLast?, last.GivesWay next
  admitted : ∀ name ∈ next, ∀ outer ∈ open_.parent?, Tag.impliesEnd outer name = false

/-- Rows of nodes that are in order, each with the open element that will join it. -/
def Rows (finished : Array Node) : List OpenElement → Prop
  | [] => Node.Row none finished.toList ∧ Node.AllEnded finished.toList
  | inner :: outer =>
      Rows finished outer ∧ Takes ⟨outer, finished⟩ (some inner.tag.name) ∧ inner.tag.nests = true ∧
        Node.Row (some inner.tag.name) inner.children.toList ∧ Node.AllEnded inner.children.toList

/-- The tree so far keeps the rules. -/
def Orderly (open_ : Nesting) : Prop :=
  Rows open_.finished open_.stack

/-- What may come behind the last node whatever it is. -/
theorem takes_none_of_givesWay {open_ : Nesting}
    (hlast : ∀ last ∈ open_.level.getLast?, last.GivesWay none) : open_.Takes none :=
  ⟨hlast, by simp⟩

theorem takes_none_append (open_ : Nesting) {added : Node} (hadded : added.GivesWay none) :
    (open_.append added).Takes none := by
  refine takes_none_of_givesWay fun last hlast => ?_
  rw [level_append, List.getLast?_concat] at hlast
  obtain rfl := Option.some.inj hlast
  exact hadded

theorem Orderly.append {open_ : Nesting} {added : Node} (horderly : open_.Orderly)
    (htakes : open_.Takes added.name?) (hadded : Node.AllEnded [added]) :
    (open_.append added).Orderly := by
  obtain ⟨stack, finished⟩ := open_
  obtain ⟨hlast, hadmits⟩ := htakes
  cases stack with
  | nil =>
      have hrow : Node.Row none (finished.toList ++ [added]) :=
        horderly.1.concat hlast hadmits
      have hended : Node.AllEnded (finished.toList ++ [added]) := horderly.2.concat hadded
      simpa only [Nesting.append, Orderly, Rows, Array.toList_push] using ⟨hrow, hended⟩
  | cons inner outer =>
      obtain ⟨hrows, htaken, hnests, hrow, hended⟩ := horderly
      have hrow' : Node.Row (some inner.tag.name) (inner.children.toList ++ [added]) :=
        hrow.concat hlast hadmits
      refine ⟨hrows, htaken, hnests, ?_, ?_⟩
      · rwa [Array.toList_push]
      · rw [Array.toList_push]
        exact hended.concat hadded

theorem Orderly.push {open_ : Nesting} {tag : StartTag} (horderly : open_.Orderly)
    (htakes : open_.Takes (some tag.name)) (hnests : tag.nests = true) (id : Nat) (opened : Span) :
    (open_.push ⟨id, tag, opened, #[]⟩).Orderly := by
  refine ⟨horderly, htakes, hnests, .nil _, ?_⟩
  simp [Node.AllEnded, Node.preorderAll]

theorem takes_none_push (open_ : Nesting) (tag : StartTag) (id : Nat) (opened : Span) :
    (open_.push ⟨id, tag, opened, #[]⟩).Takes none :=
  takes_none_of_givesWay (by simp [level, push])

/-- Ending an element puts it where it may stand. An end tag has to have its name, and no element
that it ends along with it may have that name. -/
theorem Orderly.pop {open_ : Nesting} (horderly : open_.Orderly) {endTag : Option EndTag}
    (closed : Span)
    (hcloses : ∀ tag ∈ endTag, tag.raw ≠ [] ∧
      (∀ name ∈ open_.parent?, sameName name tag.name = true) ∧
      ∀ inner ∈ Node.hangingAll open_.level, sameName inner.name tag.name = false) :
    (open_.pop endTag closed).Orderly := by
  obtain ⟨stack, finished⟩ := open_
  cases stack with
  | nil => exact horderly
  | cons inner outer =>
      obtain ⟨hrows, htaken, hnests, hrow, hended⟩ := horderly
      have houter : Orderly ⟨outer, finished⟩ := hrows
      refine houter.append htaken (Node.allEnded_element ⟨fun tag htag => ?_, hrow,
        fun halone => ?_, fun hraw => ?_⟩ hended)
      · obtain ⟨hne, hnamed, hinside⟩ := hcloses tag htag
        exact ⟨hne, hnamed _ rfl, hinside⟩
      · simp [StartTag.standsAlone_of_nests hnests] at halone
      · have hnames : Tag.isRawText inner.tag.name = true := hraw
        simp [StartTag.nests, hnames] at hnests

theorem takes_none_pop {open_ : Nesting} (hopen : open_.stack ≠ []) (tag : EndTag) (closed : Span) :
    (open_.pop (some tag) closed).Takes none := by
  unfold Nesting.pop
  split
  next hstack => exact absurd hstack hopen
  next => exact takes_none_append _ fun hleft => by cases hleft

theorem Orderly.pop_none {open_ : Nesting} (horderly : open_.Orderly) (closed : Span) :
    (open_.pop none closed).Orderly :=
  horderly.pop closed (by simp)

theorem Orderly.popMany {open_ : Nesting} (horderly : open_.Orderly) (offset count : Nat) :
    (open_.popMany offset count).Orderly := by
  induction count generalizing open_ with
  | zero => exact horderly
  | succ count ih => exact ih (horderly.pop_none _)

/-- Elements that end without end tags hang at the end of their row, inside each other as they
were. -/
theorem hangingAll_popMany {open_ : Nesting} (horderly : open_.Orderly) (offset : Nat) {count : Nat}
    (hcount : count ≤ open_.stack.length) :
    Node.hangingAll (open_.popMany offset count).level =
      ((open_.stack.map OpenElement.tag).take count).reverse ++ Node.hangingAll open_.level := by
  induction count generalizing open_ with
  | zero => rfl
  | succ count ih =>
      obtain ⟨stack, finished⟩ := open_
      cases stack with
      | nil => simp at hcount
      | cons inner outer =>
          obtain ⟨-, -, hnests, -, -⟩ := id horderly
          have hleft : Element.isLeft ⟨inner.id, inner.tag, none, inner.opened, ⟨offset, offset⟩⟩ =
              true := by simp [Element.isLeft, hnests]
          have hpopped := (Nesting.mk (inner :: outer) finished).stack_pop none ⟨offset, offset⟩
          have hlength := congrArg List.length hpopped
          simp only [List.length_map, List.map_cons, List.tail_cons] at hlength
          rw [popMany, ih (horderly.pop_none _) (by simpa [hlength] using hcount), hpopped, pop,
            level_append, Node.hangingAll_concat, OpenElement.close, Node.hanging, if_pos hleft]
          simp [level]

/-- What the start of an element ends leaves room for the element: the last to end gives way to
it, and nothing it would end is open. -/
theorem Orderly.popImplied {open_ : Nesting} {name : List Char} (horderly : open_.Orderly)
    (hlast : ∀ last ∈ open_.level.getLast?, last.GivesWay (some name)) (offset : Nat) :
    (open_.popImplied offset name).Orderly ∧ (open_.popImplied offset name).Takes (some name) := by
  refine ⟨horderly.popMany _ _, ?_⟩
  have htags : ∀ tags : List StartTag, open_.stack.map OpenElement.tag = tags →
      (open_.popMany offset
        (tags.takeWhile fun tag => Tag.impliesEnd tag.name name).length).Takes (some name) := by
    intro tags
    -- one element is ended after the other, so the induction is on the tags of the open elements
    induction tags generalizing open_ with
    | nil =>
        intro hstack
        refine ⟨hlast, fun _ _ outer houter => ?_⟩
        have hempty : open_.stack = [] := List.map_eq_nil_iff.mp hstack
        have hparent : open_.parent? = none := by simp [parent?, hempty]
        exact absurd (hparent ▸ houter : outer ∈ none) (by simp)
    | cons tag rest ih =>
        intro hstack
        obtain ⟨stack, finished⟩ := open_
        obtain ⟨inner, outer, rfl, rfl, hrest⟩ := List.map_eq_cons_iff.mp hstack
        cases himplied : Tag.impliesEnd inner.tag.name name with
        | false =>
            rw [List.takeWhile_cons_of_neg (by simp [himplied])]
            refine ⟨hlast, fun next hnext found hfound => ?_⟩
            obtain rfl := Option.some.inj hnext
            obtain rfl := Option.some.inj hfound
            exact himplied
        | true =>
            rw [List.takeWhile_cons_of_pos (by simp [himplied]), List.length_cons, Nesting.popMany]
            refine ih (horderly.pop_none _) (fun last hmem => ?_) ?_
            · rw [Nesting.pop, level_append, List.getLast?_concat] at hmem
              obtain rfl := Option.some.inj hmem
              exact fun _ => ⟨name, rfl, himplied⟩
            · rw [stack_pop, hstack, List.tail_cons]
  have hlength : ((open_.stack.map OpenElement.tag).takeWhile
      fun tag => Tag.impliesEnd tag.name name).length =
        (open_.stack.takeWhile fun element => Tag.impliesEnd element.tag.name name).length := by
    rw [List.takeWhile_map, List.length_map]
    rfl
  rw [Nesting.popImplied, ← hlength]
  exact htags _ rfl

/-- What an end tag ends has its name, and nothing inside that it ends as well has. -/
theorem inside?_names {open_ : Nesting} {name : List Char} {count : Nat}
    (hfound : open_.inside? name = some count) :
    (∀ tag ∈ (open_.stack.map OpenElement.tag)[count]?, sameName tag.name name = true) ∧
      ∀ tag ∈ (open_.stack.map OpenElement.tag).take count, sameName tag.name name = false := by
  obtain ⟨hlt, hnamed, hinside⟩ := List.findIdx?_eq_some_iff_getElem.mp hfound
  constructor
  · intro tag htag
    rw [List.getElem?_map, List.getElem?_eq_getElem hlt] at htag
    obtain rfl := Option.some.inj htag
    exact hnamed
  · intro tag htag
    obtain ⟨index, hindex, rfl⟩ := List.mem_take_iff_getElem.mp htag
    have hless : index < count := by omega
    simpa using hinside index hless

end Nesting

/-! ## Adding a token -/

namespace Token

/-- Where an end tag with a name begins, that is the name the tag is read with. -/
theorem sameName_takeWhile_of_endsHere {name body rest : List Char}
    (hname : ∀ c ∈ name, Attribute.inTagName c = true)
    (hends : endsHere name ('<' :: '/' :: (body ++ '>' :: rest)) = true) :
    sameName name ((body ++ ['>']).takeWhile Attribute.inTagName) = true := by
  have hdrop : dropStart? ['<', '/'] ('<' :: '/' :: (body ++ '>' :: rest)) =
      some (body ++ '>' :: rest) := dropStart?_eq_some_iff.mpr rfl
  simp only [endsHere, hdrop, Bool.and_eq_true] at hends
  obtain ⟨hsame, hstop⟩ := hends
  have hangle : '>' ∉ name := fun hmem => by simpa [Attribute.inTagName] using hname _ hmem
  -- a longer name would have the angle bracket in it that ends the tag
  have hshort : name.length ≤ body.length := by
    by_contra hlong
    refine hangle (mem_of_sameName (by decide) hsame ?_)
    obtain ⟨more, hmore⟩ : ∃ more, name.length = body.length + 1 + more :=
      ⟨name.length - body.length - 1, by omega⟩
    rw [hmore, Nat.add_assoc, List.take_length_add_append, Nat.add_comm 1]
    simp
  rw [List.take_append_of_le_length hshort] at hsame
  rw [List.drop_append_of_le_length hshort] at hstop
  have hstart : ∀ c ∈ body.take name.length, Attribute.inTagName c = true := by
    intro c hc
    cases halpha : c.isAlpha with
    | false => exact hname c (mem_of_sameName halpha hsame hc)
    | true =>
        have hblank := isBlank_eq_false_of_isAlpha halpha
        have hangle : c ≠ '>' := ne_of_isAlpha halpha (by decide)
        have hslash : c ≠ '/' := ne_of_isAlpha halpha (by decide)
        simp [Attribute.inTagName, hblank, hangle, hslash]
  have htail : (body.drop name.length ++ ['>']).takeWhile Attribute.inTagName = [] := by
    cases hrest : body.drop name.length with
    | nil => rfl
    | cons c others =>
        simp only [hrest, List.cons_append, Bool.or_eq_true, beq_iff_eq] at hstop
        have hout : Attribute.inTagName c = false := by
          rcases hstop with (hblank | rfl) | rfl
          · simp [Attribute.inTagName, hblank]
          · decide
          · decide
        simp [hout]
  calc sameName name ((body ++ ['>']).takeWhile Attribute.inTagName)
      = sameName name ((body.take name.length ++
          (body.drop name.length ++ ['>'])).takeWhile Attribute.inTagName) := by
        rw [← List.append_assoc, List.take_append_drop]
    _ = sameName name (body.take name.length) := by
        rw [List.takeWhile_append_of_pos hstart, htail, List.append_nil]
    _ = true := by
        simp only [sameName, beq_iff_eq] at hsame ⊢
        exact hsame.symm

/-- The end tag that ends raw text has the name that its end was looked for with. -/
theorem sameName_of_encloses {name content : List Char} {tag : EndTag}
    (hname : ∀ c ∈ name, Attribute.inTagName c = true)
    (hencloses : Encloses name content (some tag)) : sameName name tag.name = true := by
  obtain ⟨⟨body, hbody, rfl⟩, hread⟩ := hencloses
  have hfound := hread []
  unfold readRawText at hfound
  split at hfound
  next => simp at hfound
  next start close hsplit =>
    have hstart : start = content := by
      split at hfound
      next => simp at hfound
      next => exact congrArg (·.1) hfound
    subst hstart
    have hclose : close = '<' :: '/' :: (body ++ ['>']) := by
      simpa [endTagOf] using splitAtEnd_append hsplit
    have hends := endsHere_of_splitAtEnd hsplit
    rw [hclose] at hends
    exact sameName_takeWhile_of_endsHere hname hends

end Token

namespace Builder

/-- The tree so far keeps the rules, and whatever is no element may come next. -/
structure Orderly (builder : Builder) : Prop where
  nesting : builder.nesting.Orderly
  takes : builder.nesting.Takes none

theorem Orderly.start : ({} : Builder).Orderly := by
  refine ⟨⟨.nil _, ?_⟩, Nesting.takes_none_of_givesWay (by simp [Nesting.level])⟩
  simp [Node.AllEnded, Node.preorderAll]

theorem Orderly.addLeaf {builder : Builder} (horderly : builder.Orderly) (kind : LeafKind)
    (raw : List Char) : (builder.addLeaf kind raw).Orderly :=
  ⟨horderly.nesting.append horderly.takes (Node.allEnded_leaf _),
    Nesting.takes_none_append _ trivial⟩

theorem Orderly.flush {builder : Builder} (horderly : builder.Orderly) : builder.flush.Orderly := by
  unfold Builder.flush
  split
  next => exact horderly
  next =>
    have hemptied : Orderly { builder with waiting := [] } := ⟨horderly.nesting, horderly.takes⟩
    exact hemptied.addLeaf _ _

theorem Orderly.prepare {builder prepared : Builder} {name : List Char}
    (horderly : builder.Orderly) (hprepare : builder.prepare name = .ok prepared) :
    prepared.nesting.Orderly ∧ prepared.nesting.Takes (some name) := by
  obtain ⟨-, rfl⟩ := Builder.prepare_eq_ok_iff.mp hprepare
  have hflushed := horderly.flush
  exact hflushed.nesting.popImplied
    (fun last hlast => (hflushed.takes.last last hlast).of_none _) _

/-- An element may start where its name may come next. -/
theorem orderly_startElement {builder : Builder} {tag : StartTag}
    (hfits : (Token.startTag tag).Fits) (horderly : builder.nesting.Orderly)
    (htakes : builder.nesting.Takes (some tag.name)) : (builder.startElement tag).Orderly := by
  unfold Builder.startElement
  dsimp only
  split
  next halone =>
    have hstays : tag.nests = false := by
      simp only [Bool.or_eq_true, decide_eq_true_eq] at halone
      simp only [StartTag.nests, Bool.not_eq_false', Bool.or_eq_true, decide_eq_true_eq]
      exact .inl halone
    refine ⟨horderly.append htakes (Node.allEnded_element ⟨by simp, .nil _,
        fun _ => ⟨rfl, rfl⟩, fun _ => .inl rfl⟩ ?_),
      Nesting.takes_none_append _ fun hleft => absurd hleft (by simp [Element.isLeft, hstays])⟩
    simp [Node.AllEnded, Node.preorderAll]
  next halone =>
    have hnests : tag.nests = true := tag.nests_of_fits hfits (Bool.not_eq_true _ ▸ halone)
    exact ⟨horderly.push htakes hnests _ _, Nesting.takes_none_push _ _ _ _⟩

/-- A raw text element may be added where its name may come next. -/
theorem orderly_addRawElement {builder : Builder} {tag : StartTag} {content : List Char}
    {close : Option EndTag} (hfits : (Token.rawElement tag content close).Fits)
    (horderly : builder.nesting.Orderly) (htakes : builder.nesting.Takes (some tag.name)) :
    (builder.addRawElement tag content close).Orderly := by
  obtain ⟨hgrammar, -, hraw, hencloses⟩ := hfits
  obtain ⟨elem, children, rfl, rfl, -, -, hverbatim, hadded⟩ :=
    builder.nesting_addRawElement tag content close
  have hnames : Tag.isRawText elem.name = true := by
    simp only [StartTag.takesRawText, Bool.and_eq_true] at hraw
    exact hraw.2
  have hstays : elem.isLeft = false := by
    simp only [Element.name] at hnames
    simp [Element.isLeft, StartTag.nests, hnames]
  have hrow : Node.Row (some elem.name) children ∧ Node.hangingAll children = [] ∧
      Node.AllEnded children := by
    rcases hverbatim with rfl | ⟨piece, rfl, -⟩
    · exact ⟨.nil _, rfl, by simp [Node.AllEnded, Node.preorderAll]⟩
    · exact ⟨⟨.singleton _, by simp [Node.name?]⟩, rfl, Node.allEnded_leaf piece⟩
  have hended : elem.Ended children := by
    refine ⟨fun close hclose => ?_, hrow.1, fun halone => ?_, fun _ => hverbatim⟩
    rotate_left
    · simp [StartTag.standsAlone_of_takesRawText hraw] at halone
    rw [Option.mem_def.mp hclose] at hencloses
    rw [hrow.2.1]
    exact ⟨(Item.trimmed_endTag hencloses.1).1, Token.sameName_of_encloses hgrammar.name hencloses,
      by simp⟩
  refine ⟨?_, ?_⟩
  · rw [hadded]
    exact horderly.append htakes (Node.allEnded_element hended hrow.2.2)
  · rw [hadded]
    exact Nesting.takes_none_append _ fun hleft => by simp [hstays] at hleft

theorem Orderly.endElement {builder : Builder} {tag : EndTag} (hfits : (Token.endTag tag).Fits)
    (horderly : builder.Orderly) : (builder.endElement tag).Orderly := by
  have hflushed := horderly.flush
  unfold Builder.endElement
  split
  next => exact ⟨horderly.nesting, horderly.takes⟩
  next count hfound =>
    have hopen := popMany_flush_stack_ne_nil hfound builder.flush.position
    obtain ⟨hnamed, hinside⟩ := Nesting.inside?_names hfound
    have hcount := Nesting.inside?_lt hfound
    rw [← stack_flush] at hnamed hinside
    have hlength := congrArg List.length builder.stack_flush
    simp only [List.length_map] at hlength
    refine ⟨(hflushed.nesting.popMany _ _).pop _ fun close hclose => ?_, ?_⟩
    · obtain rfl := Option.some.inj hclose
      refine ⟨(Item.trimmed_endTag hfits.1).1, fun name hname => ?_, fun inner hinner => ?_⟩
      · have htags := builder.flush.nesting.stack_popMany builder.flush.position count
        rw [Nesting.parent?, htags, List.head?_drop] at hname
        obtain ⟨tag, htag, rfl⟩ := Option.map_eq_some_iff.mp hname
        exact hnamed tag htag
      · rw [Nesting.hangingAll_popMany hflushed.nesting _ (by omega),
          Node.hangingAll_of_givesWay hflushed.takes.last, List.append_nil,
          List.mem_reverse] at hinner
        exact hinside inner hinner
    · exact Nesting.takes_none_pop hopen _ _

theorem Orderly.add {builder added : Builder} (horderly : builder.Orderly) {token : Token}
    (hfits : token.Fits) (hadd : builder.add token = .ok added) : added.Orderly := by
  cases token with
  | text raw => cases hadd; exact ⟨horderly.nesting, horderly.takes⟩
  | unterminated construct raw => cases hadd; exact ⟨horderly.nesting, horderly.takes⟩
  | comment raw => cases hadd; exact horderly.flush.addLeaf _ _
  | cdata raw => cases hadd; exact horderly.flush.addLeaf _ _
  | declaration raw => cases hadd; exact horderly.flush.addLeaf _ _
  | endTag tag => cases hadd; exact horderly.endElement hfits
  | startTag tag =>
      obtain ⟨prepared, hprepare, hstart⟩ := bind_eq_ok_iff.mp hadd
      cases hstart
      obtain ⟨hnesting, htakes⟩ := horderly.prepare hprepare
      exact orderly_startElement hfits hnesting htakes
  | rawElement tag content close =>
      obtain ⟨prepared, hprepare, hstart⟩ := bind_eq_ok_iff.mp hadd
      cases hstart
      obtain ⟨hnesting, htakes⟩ := horderly.prepare hprepare
      exact orderly_addRawElement hfits hnesting htakes

theorem Orderly.addAll {builder final : Builder} (horderly : builder.Orderly) {tokens : List Token}
    (hfits : ∀ token ∈ tokens, token.Fits) (haddAll : builder.addAll tokens = .ok final) :
    final.Orderly := by
  induction tokens generalizing builder with
  | nil => cases haddAll; exact horderly
  | cons token rest ih =>
      obtain ⟨added, hadd, hrest⟩ := addAll_eq_ok_cons.mp haddAll
      obtain ⟨hfirst, hothers⟩ := List.forall_mem_cons.mp hfits
      exact ih (horderly.add hfirst hadd) hothers hrest

end Builder

/-! ## Finished trees -/

namespace Node

mutual

theorem mem_preorder_of_mem {node inner : Node} {elem : Element} {children : List Node}
    (hmem : .element elem children ∈ preorder node) (hinner : inner ∈ preorderAll children) :
    inner ∈ preorder node := by
  cases node with
  | leaf piece => simp [preorder] at hmem
  | element outer siblings =>
      rcases List.mem_cons.mp hmem with heq | hinside
      · obtain ⟨rfl, rfl⟩ := Node.element.inj heq
        exact List.mem_cons_of_mem _ hinner
      · exact List.mem_cons_of_mem _ (mem_preorderAll_of_mem hinside hinner)

/-- What is inside an element inside nodes is inside the nodes. -/
theorem mem_preorderAll_of_mem {nodes : List Node} {inner : Node} {elem : Element}
    {children : List Node} (hmem : .element elem children ∈ preorderAll nodes)
    (hinner : inner ∈ preorderAll children) : inner ∈ preorderAll nodes := by
  cases nodes with
  | nil => simp [preorderAll] at hmem
  | cons node rest =>
      rcases List.mem_append.mp hmem with hfirst | hrest
      · exact List.mem_append_left _ (mem_preorder_of_mem hfirst hinner)
      · exact List.mem_append_right _ (mem_preorderAll_of_mem hrest hinner)

end

theorem preorder_subset {nodes : List Node} {node : Node} (hmem : node ∈ preorderAll nodes) :
    preorder node ⊆ preorderAll nodes := by
  cases node with
  | leaf piece => simpa [preorder] using hmem
  | element elem children =>
      exact List.cons_subset.mpr ⟨hmem, fun _ hinner => mem_preorderAll_of_mem hmem hinner⟩

/-- What lies inside nodes ends where they do at the latest. -/
theorem stop_le_of_mem_preorderAll {nodes : List Node} {inner : Node} {before : List Char}
    (hlie : LieFrom nodes (byteSize before)) (hmem : inner ∈ preorderAll nodes) :
    inner.span.stop ≤ byteSize (before ++ textOfAll nodes) := by
  obtain ⟨front, back, htext, hlies⟩ := exists_lies_of_mem_preorderAll before [] hlie hmem
  rw [List.append_nil] at htext
  rw [htext, span_of_lies hlies]
  simp only [byteSize_append]
  omega

mutual

theorem mem_hanging {node : Node} {inner : Element} {inside : List Node} {before : List Char}
    (hlies : node.Lies (byteSize before)) (htidy : node.Tidy) (hended : AllEnded [node])
    (hmem : .element inner inside ∈ preorder node) (hleft : inner.isLeft = true)
    (hstop : inner.span.stop = byteSize (before ++ node.text)) : inner.tag ∈ hanging node := by
  cases node with
  | leaf piece => simp [preorder] at hmem
  | element elem children =>
      have hself := hended elem children (by simp [preorderAll, preorder])
      rcases List.mem_cons.mp hmem with heq | hinside
      · obtain ⟨rfl, rfl⟩ := Node.element.inj heq
        rw [hanging, if_pos hleft]
        exact List.mem_cons_self
      · obtain ⟨hopened, hchildren, -⟩ := hlies
        have hlie : LieFrom children (byteSize (before ++ elem.tag.text)) := by
          simpa [hopened] using hchildren
        have hle : inner.span.stop ≤ _ := stop_le_of_mem_preorderAll hlie hinside
        rw [text_element] at hstop
        simp only [byteSize_append] at hle hstop
        -- an end tag would come behind what is inside
        have hnone : elem.endTag = none := by
          cases hclose : elem.endTag with
          | none => rfl
          | some tag =>
              have hpos := byteSize_pos (hself.closed tag hclose).1
              rw [Element.endText, hclose] at hstop
              dsimp only at hstop
              omega
        have hleft' : elem.isLeft = true := by
          simp [Element.isLeft, hnone, hself.nests_of_mem hinside]
        rw [hanging, if_pos hleft']
        refine List.mem_cons_of_mem _ (mem_hangingAll hlie htidy.2 ?_ hinside hleft ?_)
        · exact fun found below hin => hended found below (by simp [preorderAll, preorder, hin])
        · simpa [Element.endText, hnone] using hstop

/-- An element that is left open hangs at the end of the nodes it ends with. -/
theorem mem_hangingAll {nodes : List Node} {inner : Element} {inside : List Node}
    {before : List Char} (hlie : LieFrom nodes (byteSize before)) (htidy : TidyAll nodes)
    (hended : AllEnded nodes) (hmem : .element inner inside ∈ preorderAll nodes)
    (hleft : inner.isLeft = true) (hstop : inner.span.stop = byteSize (before ++ textOfAll nodes)) :
    inner.tag ∈ hangingAll nodes := by
  match nodes with
  | [] => simp [preorderAll] at hmem
  | [node] =>
      exact mem_hanging hlie.1 htidy.1 hended (by simpa [preorderAll] using hmem) hleft
        (by simpa using hstop)
  | node :: next :: rest =>
      obtain ⟨hlies, hothers⟩ := hlie
      have hrest : LieFrom (next :: rest) (byteSize (before ++ node.text)) := by
        rwa [byteSize_append]
      rcases List.mem_append.mp hmem with hfirst | hlast
      · have hin : .element inner inside ∈ preorderAll [node] := by simpa [preorderAll] using hfirst
        have hfirstLies : LieFrom [node] (byteSize before) := ⟨hlies, trivial⟩
        have hle : inner.span.stop ≤ byteSize (before ++ textOfAll [node]) :=
          stop_le_of_mem_preorderAll hfirstLies hin
        -- the next node is not empty, so nothing in this one ends where they all do
        have hpos := htidy.2.1.byteSize_pos
        simp only [textOfAll_cons, textOfAll_nil, byteSize_append, byteSize_nil] at hstop hle
        omega
      · rw [hangingAll]
        refine mem_hangingAll hrest htidy.2 (fun elem children hin => ?_) hlast hleft ?_
        · exact hended elem children (List.mem_append_right _ hin)
        · simpa using hstop

end

end Node

/-- The rules of closing, for an element of a finished tree: an end tag has its name and that of no
element it finds open inside, no child would have ended it, a child that is left open is the last or
ended by the next, an element that ends with its start tag has nothing inside, and raw text is one
leaf. -/
structure Element.Closes (elem : Element) (children : List Node) : Prop where
  named : ∀ tag ∈ elem.endTag, elem.is tag.name = true
  nearest : ∀ tag ∈ elem.endTag, ∀ inner inside,
    .element inner inside ∈ Node.preorderAll children → inner.isLeft = true →
      inner.span.stop = elem.closed.start → inner.is tag.name = false
  admitted : ∀ inner inside, .element inner inside ∈ children →
    Tag.impliesEnd elem.name inner.name = false
  followed : Node.Followed children
  alone : elem.tag.ending = .selfClosing ∨ Tag.isVoid elem.name = true →
    children = [] ∧ elem.endTag = none
  raw : Tag.isRawText elem.name = true → Node.Verbatim children

theorem Element.closes_of_lies {elem : Element} {children : List Node} {before : List Char}
    (hlies : (Node.element elem children).Lies (byteSize before))
    (htidy : (Node.element elem children).Tidy)
    (hself : elem.Ended children) (hinside : Node.AllEnded children) : elem.Closes children := by
  obtain ⟨hopened, hchildren, hclosed⟩ := hlies
  have hlie : Node.LieFrom children (byteSize (before ++ elem.tag.text)) := by
    simpa [hopened] using hchildren
  refine ⟨fun tag htag => (hself.closed tag htag).2.1,
    fun tag htag inner inside hmem hleft hstop => ?_, fun inner inside hmem => ?_,
    hself.row.followed, fun halone => ?_, hself.raw⟩
  · have hhangs := Node.mem_hangingAll hlie htidy.2 hinside hmem hleft
      (by simp [hstop, hclosed, hopened, Nat.add_assoc])
    exact (hself.closed tag htag).2.2 _ hhangs
  · exact hself.row.admitted _ hmem _ rfl _ rfl
  · exact hself.alone (by simpa [StartTag.standsAlone, Element.name] using halone)

namespace Builder

theorem Orderly.finish {builder : Builder} (horderly : builder.Orderly) :
    Node.Followed (builder.nesting.finish builder.position) ∧
      Node.AllEnded (builder.nesting.finish builder.position) := by
  have hfinal := horderly.nesting.popMany builder.position builder.nesting.depth
  rw [Nesting.Orderly, builder.nesting.stack_popMany_depth builder.position] at hfinal
  exact ⟨hfinal.1.followed, hfinal.2⟩

end Builder

/-- The tree of a text keeps the rules of closing. -/
theorem Document.closes_of_parse {text : List Char} {document : Document}
    (hparse : parse text = .ok document) :
    Node.Followed document.children ∧
      ∀ elem children, .element elem children ∈ Node.preorderAll document.children →
        elem.Closes children := by
  obtain ⟨builder, haddAll, rfl⟩ := parse_eq_ok_iff.mp hparse
  have horderly := Builder.Orderly.start.addAll (fun _ => Token.fits_of_mem_ofText) haddAll
  obtain ⟨hfollowed, hended⟩ := horderly.flush.finish
  refine ⟨hfollowed, fun elem children hmem => ?_⟩
  obtain ⟨before, -, -, hlies⟩ := exists_lies_of_parse hparse hmem
  have htidy := (tidy_of_parse hparse).2.of_mem_preorderAll hmem
  exact elem.closes_of_lies hlies htidy (hended elem children hmem) fun inner inside hin =>
    hended inner inside (Node.mem_preorderAll_of_mem hmem hin)

/-- An item that the next item ends, and one that ends with the list around it. -/
theorem Document.closes_of_parse_items :
    let text := "<ul><li>a<li><br></UL>".toList
    let first : Element := ⟨1, ⟨['l', 'i'], [], [], .plain⟩, none, ⟨4, 8⟩, ⟨9, 9⟩⟩
    let second : Element := ⟨3, ⟨['l', 'i'], [], [], .plain⟩, none, ⟨9, 13⟩, ⟨17, 17⟩⟩
    let line : Element := ⟨4, ⟨['b', 'r'], [], [], .plain⟩, none, ⟨13, 17⟩, ⟨17, 17⟩⟩
    let items : List Node :=
      [.element first [.leaf ⟨.text, 2, ['a'], ⟨8, 9⟩⟩], .element second [.element line []]]
    let list : Element :=
      ⟨0, ⟨['u', 'l'], [], [], .plain⟩, some ⟨['U', 'L'], "</UL>".toList⟩, ⟨0, 4⟩, ⟨17, 22⟩⟩
    ∃ document, parse text = .ok document ∧ document.children = [.element list items] ∧
      first.isLeft = true ∧ second.isLeft = true ∧ second.span.stop = list.closed.start ∧
      Node.Followed document.children ∧ list.Closes items ∧ line.Closes [] := by
  intro text first second line items list
  have hparse : parse text = .ok ⟨text, [.element list items], 5, []⟩ := by
    with_unfolding_all rfl
  obtain ⟨hfollowed, hcloses⟩ := closes_of_parse hparse
  exact ⟨_, hparse, rfl, rfl, rfl, rfl, hfollowed,
    hcloses list items (by simp [Node.preorderAll, Node.preorder]),
    hcloses line [] (by simp [Node.preorderAll, Node.preorder, items])⟩

end Markup
