import Markup.Proofs.Tree.Outline

/-!
# Shapes

The shape of a document is its outline without all that formatting may change: blanks, quotes around
values, and the way end tags are written. Words are parted by one space in it, and no element is
noted to be short. A document is read from left to right as pieces, each a token behind blanks; the
shape of an outline is read as the bare tokens of its pieces.
-/

namespace Markup

open Markup.Text

/-! ## What formatting does not change -/

def Attribute.bare (attr : Attribute) : Attribute :=
  ⟨[], attr.name, attr.value.map fun value => ⟨['='], value.raw, none⟩⟩

/-- A start tag without its blanks and quotes. -/
def StartTag.bare (tag : StartTag) : StartTag :=
  ⟨tag.name, tag.attributes.map Attribute.bare, [], tag.ending⟩

/-- An end tag of which only the name is kept. -/
def EndTag.bare (tag : EndTag) : EndTag :=
  ⟨tag.name, []⟩

@[simp]
theorem StartTag.bare_name (tag : StartTag) : tag.bare.name = tag.name := rfl

@[simp]
theorem StartTag.bare_takesRawText (tag : StartTag) :
    tag.bare.takesRawText = tag.takesRawText := rfl

@[simp]
theorem StartTag.bare_standsAlone (tag : StartTag) : tag.bare.standsAlone = tag.standsAlone := rfl

/-- What belongs to raw text of its content: without an end tag, the blanks at the end do not. -/
def Token.keptContent (content : List Char) : Option EndTag → List Char
  | none => (splitTail content).1
  | some _ => content

/-- A token without what formatting may change. -/
def Token.bare : Token → Token
  | text raw => text (unwords (Run.ofText raw).units)
  | startTag tag => startTag tag.bare
  | endTag tag => endTag tag.bare
  | rawElement tag content close =>
      rawElement tag.bare (keptContent content close) (close.map EndTag.bare)
  | token => token

theorem Token.keptContent_eq_self {content : List Char} {close : Option EndTag}
    (hkept : close = none → (splitTail content).2 = []) : keptContent content close = content := by
  cases close with
  | none =>
      have hwhole := splitTail_append content
      rwa [hkept rfl, List.append_nil] at hwhole
  | some tag => rfl

namespace Item

mutual

def bare : Item → Item
  | words _ first rest => words [] first (rest.map fun (_, word) => ([' '], word))
  | leaf _ kind content => leaf [] kind content
  | rawText _ tag content close => rawText [] tag.bare content (close.map EndTag.bare)
  | element _ _ tag children close =>
      element true [] tag.bare (bareAll children) (close.map fun (_, tag) => ([], tag.bare))

/-- The shape of items that follow each other. -/
def bareAll : List Item → List Item
  | [] => []
  | item :: rest => bare item :: bareAll rest

end

@[simp]
theorem bareAll_append (first second : List Item) :
    bareAll (first ++ second) = bareAll first ++ bareAll second := by
  induction first with
  | nil => rfl
  | cons item rest ih => simp only [List.cons_append, bareAll, ih]

/-- The shape of running text, which is nothing if the text is blank. -/
def ofProse (text : List Char) : List Item :=
  match (Run.ofText text).units with
  | [] => []
  | first :: rest => [words [] first (rest.map fun word => ([' '], word))]

/-! ## Pieces -/

/-- The piece that an optional end tag is. -/
def closePieces : Option (List Char × EndTag) → List (List Char × Token)
  | none => []
  | some (gap, tag) => [(gap, .endTag tag)]

mutual

/-- The tokens of an item, each with the blanks in front of it. -/
def pieces : Item → List (List Char × Token)
  | words before first rest => [(before, .text (wordsText first rest))]
  | leaf before kind content => [(before, .ofLeaf kind content)]
  | rawText before tag content close => [(before, .rawElement tag content close)]
  | element _ before tag children close =>
      (before, .startTag tag) :: (piecesOfAll children ++ closePieces close)

def piecesOfAll : List Item → List (List Char × Token)
  | [] => []
  | item :: rest => pieces item ++ piecesOfAll rest

end

theorem piecesOfAll_append (first second : List Item) :
    piecesOfAll (first ++ second) = piecesOfAll first ++ piecesOfAll second := by
  induction first with
  | nil => rfl
  | cons item rest ih => simp only [List.cons_append, piecesOfAll, ih, List.append_assoc]

/-- The text of pieces that follow each other. -/
def textOfPieces (pieces : List (List Char × Token)) : List Char :=
  pieces.flatMap fun (before, token) => before ++ token.source

mutual

theorem text_eq_textOfPieces (item : Item) : text item = textOfPieces (pieces item) := by
  cases item with
  | words before first rest => simp [text, pieces, textOfPieces, Token.source]
  | leaf before kind content => simp [text, pieces, textOfPieces, Token.source_ofLeaf]
  | rawText before tag content close => simp [text, pieces, textOfPieces, Token.source]
  | element short before tag children close =>
      rw [text, textOfAll_eq_textOfPieces children]
      cases close with
      | none => simp [pieces, textOfPieces, Token.source, closeText, closePieces]
      | some parted => simp [pieces, textOfPieces, Token.source, closeText, closePieces]

/-- Items have the text of their pieces. -/
theorem textOfAll_eq_textOfPieces (items : List Item) :
    textOfAll items = textOfPieces (piecesOfAll items) := by
  cases items with
  | nil => rfl
  | cons item rest =>
      rw [textOfAll, text_eq_textOfPieces item, textOfAll_eq_textOfPieces rest]
      simp [piecesOfAll, textOfPieces]

end

/-- The tokens of items that follow each other. -/
def tokensOfAll (items : List Item) : List Token :=
  (piecesOfAll items).map (·.2)

@[simp]
theorem tokensOfAll_nil : tokensOfAll [] = [] := rfl

@[simp]
theorem tokensOfAll_append (first second : List Item) :
    tokensOfAll (first ++ second) = tokensOfAll first ++ tokensOfAll second := by
  simp [tokensOfAll, piecesOfAll_append]

theorem tokensOfAll_element (short : Bool) (before : List Char) (tag : StartTag)
    (children : List Item) (close : Option (List Char × EndTag)) :
    tokensOfAll [element short before tag children close] =
      .startTag tag ::
    (tokensOfAll children ++ (close.map fun (_, tag) => .endTag tag).toList) := by
  cases close <;> simp [tokensOfAll, piecesOfAll, pieces, closePieces]

theorem unwords_cons (first : List Char) (rest : List (List Char)) :
    wordsText first (rest.map fun word => ([' '], word)) = unwords (first :: rest) := by
  simp [wordsText, unwords, List.flatMap_map]

theorem tokensOfAll_ofProse (text : List Char) (hwords : (Run.ofText text).units ≠ []) :
    tokensOfAll (ofProse text) = [.text (unwords (Run.ofText text).units)] := by
  unfold ofProse
  split
  next hnil => exact absurd hnil hwords
  next first rest hunits =>
    rw [hunits, ← unwords_cons]
    rfl

theorem units_wordsText {before first : List Char} {rest : List (List Char × List Char)}
    (hbefore : allBlank before = true) (hfirst : Solid first) (hrest : Parted rest) :
    (Run.ofText (before ++ wordsText first rest)).units = first :: rest.map (·.2) := by
  have hunits := units_ofText hbefore hfirst hrest allBlank_nil
  rwa [List.append_nil] at hunits

@[simp]
theorem ofProse_nil : ofProse [] = [] := by
  have hnil : (Run.ofText []).units = [] := (units_eq_nil_iff []).mpr rfl
  rw [ofProse, hnil]

theorem bare_ofLeaf {kind : LeafKind} (hkind : kind ≠ .text) (content : List Char) :
    (Token.ofLeaf kind content).bare = Token.ofLeaf kind content := by
  cases kind with
  | text => exact absurd rfl hkind
  | comment => rfl
  | verbatim => rfl
  | doctype => rfl

mutual

theorem map_pieces_bare {Holds : StartTag → Prop} (item : Item) (hproper : item.Proper Holds) :
    (pieces item.bare).map (·.2) = (pieces item).map fun piece => piece.2.bare := by
  cases item with
  | words before first rest =>
      obtain ⟨-, hfirst, hrest⟩ := hproper
      have hunits := units_wordsText allBlank_nil hfirst hrest
      rw [List.nil_append] at hunits
      have hwords := unwords_cons first (rest.map (·.2))
      simp only [List.map_map, Function.comp_def] at hwords
      simp [bare, pieces, Token.bare, hunits, hwords]
  | leaf before kind content => simp [bare, pieces, bare_ofLeaf hproper.2.1]
  | rawText before tag content close =>
      simp [bare, pieces, Token.bare, Token.keptContent_eq_self hproper.2.2.2.2.2]
  | element short before tag children close =>
      have hchildren := map_piecesOfAll_bare children hproper.2.2.2.2.2.1
      cases close with
      | none => simp [bare, pieces, closePieces, Token.bare, hchildren]
      | some parted => simp [bare, pieces, closePieces, Token.bare, hchildren]

theorem map_piecesOfAll_bare {Holds : StartTag → Prop} (items : List Item)
    (hproper : ProperAll Holds items) :
    (piecesOfAll (bareAll items)).map (·.2) =
      (piecesOfAll items).map fun piece => piece.2.bare := by
  cases items with
  | nil => rfl
  | cons item rest =>
      simp only [bareAll, piecesOfAll, List.map_append, map_pieces_bare item hproper.1,
        map_piecesOfAll_bare rest hproper.2]

end

/-- The shape of items is read as their bare tokens. -/
theorem tokensOfAll_bareAll {Holds : StartTag → Prop} {items : List Item}
    (hproper : ProperAll Holds items) :
    tokensOfAll (bareAll items) = (piecesOfAll items).map fun piece => piece.2.bare :=
  map_piecesOfAll_bare items hproper

end Item

/-! ## The shapes of nodes -/

theorem Leaf.bareAll_outline_text {piece : Leaf} (hkind : piece.kind = .text)
    (pending : List Char) : Item.bareAll (piece.outline pending).1 = Item.ofProse piece.raw := by
  unfold Leaf.outline Item.ofProse
  rw [hkind]
  cases Run.ofText piece.raw with
  | blank leading => rfl
  | words leading first rest trailing =>
      simp [Item.bareAll, Item.bare, Run.units, Run.wordList]

theorem Leaf.bareAll_outline {piece : Leaf} (hkind : piece.kind ≠ .text) (pending : List Char) :
    Item.bareAll (piece.outline pending).1 = [.leaf [] piece.kind piece.raw] := by
  unfold Leaf.outline
  split
  next htext => exact absurd htext hkind
  next => rfl

namespace Node

/-- The shape of nodes that follow each other. -/
def shapeOfAll (nodes : List Node) : List Item :=
  Item.bareAll (outlineAll (fun _ => true) nodes []).1

mutual

theorem bareAll_outline_congr (judge other : Nat → Bool) (node : Node)
    (pending blanks : List Char) :
    Item.bareAll (outline judge node pending).1 = Item.bareAll (outline other node blanks).1 := by
  cases node with
  | leaf piece =>
      rw [outline, outline]
      by_cases hkind : piece.kind = .text
      · rw [Leaf.bareAll_outline_text hkind, Leaf.bareAll_outline_text hkind]
      · rw [Leaf.bareAll_outline hkind, Leaf.bareAll_outline hkind]
  | element elem children =>
      have hchildren := bareAll_outlineAll_congr judge other children [] []
      rw [outline, outline]
      split
      next => unfold Element.outlineRaw; split <;> rfl
      next => unfold Element.outline; split <;> simp [Item.bareAll, Item.bare, hchildren]

theorem bareAll_outlineAll_congr (judge other : Nat → Bool) (nodes : List Node)
    (pending blanks : List Char) :
    Item.bareAll (outlineAll judge nodes pending).1 =
      Item.bareAll (outlineAll other nodes blanks).1 := by
  cases nodes with
  | nil => rfl
  | cons node rest =>
      simp only [outlineAll, Item.bareAll_append]
      rw [bareAll_outline_congr judge other node pending blanks,
        bareAll_outlineAll_congr judge other rest]

end

/-- The shape of an outline is that of its nodes, whatever is noted of them. -/
theorem bareAll_outlineAll (judge : Nat → Bool) (nodes : List Node) (pending : List Char) :
    Item.bareAll (outlineAll judge nodes pending).1 = shapeOfAll nodes :=
  bareAll_outlineAll_congr _ _ _ _ _

@[simp]
theorem shapeOfAll_nil : shapeOfAll [] = [] := rfl

theorem shapeOfAll_append (first second : List Node) :
    shapeOfAll (first ++ second) = shapeOfAll first ++ shapeOfAll second := by
  have hsplit : ∀ pending, Item.bareAll (outlineAll (fun _ => true) (first ++ second) pending).1 =
      Item.bareAll (outlineAll (fun _ => true) first pending).1 ++ shapeOfAll second := by
    induction first with
    | nil =>
        intro pending
        rw [List.nil_append, bareAll_outlineAll]
        rfl
    | cons node rest ih =>
        intro pending
        simp only [List.cons_append, outlineAll, Item.bareAll_append, ih, List.append_assoc]
  exact hsplit []

theorem shapeOfAll_singleton (node : Node) :
    shapeOfAll [node] = Item.bareAll (outline (fun _ => true) node []).1 := by
  simp [shapeOfAll, outlineAll]

theorem shapeOfAll_text {piece : Leaf} (hkind : piece.kind = .text) :
    shapeOfAll [.leaf piece] = Item.ofProse piece.raw := by
  rw [shapeOfAll_singleton, outline, Leaf.bareAll_outline_text hkind]

theorem shapeOfAll_leaf {piece : Leaf} (hkind : piece.kind ≠ .text) :
    shapeOfAll [.leaf piece] = [.leaf [] piece.kind piece.raw] := by
  rw [shapeOfAll_singleton, outline, Leaf.bareAll_outline hkind]

theorem shapeOfAll_element {elem : Element} (hplain : elem.tag.takesRawText = false)
    (children : List Node) :
    shapeOfAll [.element elem children] =
      [.element true [] elem.tag.bare (shapeOfAll children)
        (elem.endTag.map fun tag => ([], tag.bare))] := by
  rw [shapeOfAll_singleton, outline, if_neg (by simp [hplain]), Element.outline]
  cases elem.endTag with
  | none => simp [Item.bareAll, Item.bare, shapeOfAll]
  | some close => simp [Item.bareAll, Item.bare, shapeOfAll]

theorem shapeOfAll_rawElement {elem : Element} (hraw : elem.tag.takesRawText = true)
    (children : List Node) :
    shapeOfAll [.element elem children] =
      [.rawText [] elem.tag.bare (Token.keptContent (textOfAll children) elem.endTag)
        (elem.endTag.map EndTag.bare)] := by
  rw [shapeOfAll_singleton, outline, if_pos hraw, Element.outlineRaw]
  cases elem.endTag with
  | none => simp [Item.bareAll, Item.bare, Token.keptContent]
  | some close => simp [Item.bareAll, Item.bare, Token.keptContent]

end Node

end Markup
