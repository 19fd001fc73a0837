import Markup.Proofs.Text.Spacing
import Markup.Proofs.Tree.Legibility
import Markup.Proofs.Tree.Soundness

/-!
# The outline of a document

Blanks have no place of their own in a document: they go with whatever comes next, and what is left
of them in an element without an end tag goes on behind it. The outline of a document is its tree
with the blanks where they belong. Text that is blank is gone from it, and the content of a raw text
element stands next to its tags. Main statements: `Node.textOfAll_outlineAll`, by which an outline
loses nothing, and `Node.proper_outlineAll`, by which it is made of pieces that can be read back.
-/

namespace Markup

open Markup.Text

/-- A part of a document, behind the blanks in front of it. With an element it is noted whether its
children would be indented as far as its height is concerned. -/
inductive Item where
  | words (before first : List Char) (rest : List (List Char × List Char))
  | leaf (before : List Char) (kind : LeafKind) (content : List Char)
  | rawText (before : List Char) (tag : StartTag) (content : List Char) (close : Option EndTag)
  | element (short : Bool) (before : List Char) (tag : StartTag) (children : List Item)
      (close : Option (List Char × EndTag))

namespace Item

/-- The text of an optional end tag behind blanks. -/
def closeText : Option (List Char × EndTag) → List Char
  | none => []
  | some (gap, tag) => gap ++ tag.raw

mutual

/-- The text of an item, with the blanks in front. -/
def text : Item → List Char
  | words before first rest => before ++ wordsText first rest
  | leaf before _ content => before ++ content
  | rawText before tag content close => before ++ (tag.text ++ (content ++ Token.closeText close))
  | element _ before tag children close =>
      before ++ (tag.text ++ (textOfAll children ++ closeText close))

def textOfAll : List Item → List Char
  | [] => []
  | item :: rest => text item ++ textOfAll rest

end

theorem textOfAll_append (first second : List Item) :
    textOfAll (first ++ second) = textOfAll first ++ textOfAll second := by
  induction first with
  | nil => rfl
  | cons item rest ih => simp only [List.cons_append, textOfAll, ih, List.append_assoc]

mutual

/-- An item whose parts can be read back, given what is known of its start tags. -/
def Proper (Holds : StartTag → Prop) : Item → Prop
  | words before first rest => allBlank before = true ∧ Solid first ∧ Parted rest
  | leaf before kind content =>
      allBlank before = true ∧ kind ≠ .text ∧ (Token.ofLeaf kind content).Fits
  | rawText before tag content close =>
      allBlank before = true ∧ Holds tag ∧ Named tag.name ∧ tag.takesRawText = true ∧
        Token.Encloses tag.name content close ∧ (close = none → (splitTail content).2 = [])
  | element _ before tag children close =>
      allBlank before = true ∧ Holds tag ∧ Named tag.name ∧ tag.takesRawText = false ∧
        (tag.standsAlone = true → children = [] ∧ close = none) ∧ ProperAll Holds children ∧
          ∀ parted ∈ close, allBlank parted.1 = true ∧ parted.2.Legible

def ProperAll (Holds : StartTag → Prop) : List Item → Prop
  | [] => True
  | item :: rest => Proper Holds item ∧ ProperAll Holds rest

end

theorem properAll_append {Holds : StartTag → Prop} {first second : List Item} :
    ProperAll Holds (first ++ second) ↔ ProperAll Holds first ∧ ProperAll Holds second := by
  induction first with
  | nil => simp [ProperAll]
  | cons item rest ih => simp [ProperAll, ih, and_assoc]

theorem trimmed_tag (tag : StartTag) : Trimmed tag.text := by
  refine trimmed_of_getLast? (c := '>') ?_ (by decide)
  cases hending : tag.ending <;>
    simp [StartTag.text, StartTag.body, Ending.text, hending, List.getLast?_cons,
      List.getLast?_append]

theorem trimmed_endTag {tag : EndTag} (hfits : tag.Fits) : tag.raw ≠ [] ∧ Trimmed tag.raw := by
  obtain ⟨body, -, rfl⟩ := hfits
  refine ⟨by simp [Token.endTagOf], trimmed_of_getLast? (c := '>') ?_ (by decide)⟩
  simp [Token.endTagOf, List.getLast?_cons, List.getLast?_append]

theorem trimmed_of_fits {kind : LeafKind} {content : List Char} (hkind : kind ≠ .text)
    (hfits : (Token.ofLeaf kind content).Fits) : content ≠ [] ∧ Trimmed content := by
  have hlast := Token.getLast?_of_fits hkind hfits
  refine ⟨?_, trimmed_of_getLast? hlast (by decide)⟩
  rintro rfl
  simp at hlast

mutual

theorem trimmed_text {Holds : StartTag → Prop} (item : Item) (hproper : item.Proper Holds) :
    text item ≠ [] ∧ Trimmed (text item) := by
  cases item with
  | words before first rest =>
      obtain ⟨-, hfirst, hrest⟩ := hproper
      obtain ⟨hne, htrimmed⟩ := trimmed_wordsText hfirst hrest
      exact ⟨by simp [text, hne], htrimmed.append_left hne _⟩
  | leaf before kind content =>
      obtain ⟨-, hkind, hfits⟩ := hproper
      obtain ⟨hne, htrimmed⟩ := trimmed_of_fits hkind hfits
      exact ⟨by simp [text, hne], htrimmed.append_left hne _⟩
  | rawText before tag content close =>
      obtain ⟨-, -, -, -, hencloses, hkept⟩ := hproper
      have htag : before ++ tag.text ≠ [] ∧ Trimmed (before ++ tag.text) :=
        ⟨by simp [StartTag.text], (trimmed_tag tag).append_left (by simp [StartTag.text]) _⟩
      cases close with
      | none =>
          have htrimmed : Trimmed content := hkept rfl
          rw [text, Token.closeText, List.append_nil, ← List.append_assoc]
          by_cases hne : content = []
          · rwa [hne, List.append_nil]
          · exact ⟨by simp [hne], htrimmed.append_left hne _⟩
      | some tag =>
          obtain ⟨hne, htrimmed⟩ := trimmed_endTag hencloses.1
          rw [text, Token.closeText, ← List.append_assoc, ← List.append_assoc]
          exact ⟨by simp [hne], htrimmed.append_left hne _⟩
  | element short before tag children close =>
      obtain ⟨-, -, -, -, -, hchildren, hclose⟩ := hproper
      have htag : before ++ tag.text ≠ [] ∧ Trimmed (before ++ tag.text) :=
        ⟨by simp [StartTag.text], (trimmed_tag tag).append_left (by simp [StartTag.text]) _⟩
      cases close with
      | none =>
          rw [text, closeText, List.append_nil, ← List.append_assoc]
          have htrimmed := trimmed_textOfAll children hchildren
          by_cases hne : textOfAll children = []
          · rwa [hne, List.append_nil]
          · exact ⟨by simp [hne], htrimmed.append_left hne _⟩
      | some parted =>
          obtain ⟨hne, htrimmed⟩ := trimmed_endTag (hclose parted rfl).2.1
          rw [text, closeText, ← List.append_assoc, ← List.append_assoc, ← List.append_assoc]
          exact ⟨by simp [hne], htrimmed.append_left hne _⟩

/-- Items do not end with blanks. -/
theorem trimmed_textOfAll {Holds : StartTag → Prop} (items : List Item)
    (hproper : ProperAll Holds items) : Trimmed (textOfAll items) := by
  cases items with
  | nil => rfl
  | cons item rest =>
      obtain ⟨hne, htrimmed⟩ := trimmed_text item hproper.1
      have hrest := trimmed_textOfAll rest hproper.2
      rw [textOfAll]
      by_cases hempty : textOfAll rest = []
      · rwa [hempty, List.append_nil]
      · exact hrest.append_left hempty _

end

end Item

/-! ## Outlines -/

/-- The item that a leaf is, given the blanks that wait for one, and the blanks left behind it. -/
def Leaf.outline (piece : Leaf) (pending : List Char) : List Item × List Char :=
  match piece.kind with
  | .text =>
      match Run.ofText piece.raw with
      | .blank leading => ([], pending ++ leading)
      | .words leading first rest trailing =>
          ([.words (pending ++ leading) (Word.raw first)
            (rest.map fun (gap, word) => (gap, Word.raw word))], trailing)
  | kind => ([.leaf pending kind piece.raw], [])

namespace Element

/-- The item that an element is, given those inside it. -/
def outline (elem : Element) (short : Bool) (pending : List Char) (inner : List Item × List Char) :
    List Item × List Char :=
  match elem.endTag with
  | none => ([.element short pending elem.tag inner.1 none], inner.2)
  | some close => ([.element short pending elem.tag inner.1 (some (inner.2, close))], [])

/-- The item that a raw text element is. -/
def outlineRaw (elem : Element) (pending content : List Char) : List Item × List Char :=
  match elem.endTag with
  | none => ([.rawText pending elem.tag (splitTail content).1 none], (splitTail content).2)
  | some close => ([.rawText pending elem.tag content (some close)], [])

end Element

namespace Node

mutual

/-- The items that a node makes, and the blanks left behind it. -/
def outline (judge : Nat → Bool) : Node → List Char → List Item × List Char
  | .leaf piece, pending => piece.outline pending
  | .element elem children, pending =>
      if elem.tag.takesRawText = true then elem.outlineRaw pending (textOfAll children)
      else elem.outline (judge elem.id) pending (outlineAll judge children [])

/-- The outline of nodes that follow each other. -/
def outlineAll (judge : Nat → Bool) : List Node → List Char → List Item × List Char
  | [], pending => ([], pending)
  | node :: rest, pending =>
      let first := outline judge node pending
      let others := outlineAll judge rest first.2
      (first.1 ++ others.1, others.2)

end

variable (judge : Nat → Bool)

mutual

theorem textOfAll_outline (node : Node) (pending : List Char) :
    Item.textOfAll (outline judge node pending).1 ++ (outline judge node pending).2 =
      pending ++ text node := by
  cases node with
  | leaf piece =>
      rw [outline, text_leaf, Leaf.outline]
      split
      next =>
        have hsource := Run.source_ofText piece.raw
        split
        next leading hrun =>
          rw [hrun] at hsource
          rw [← hsource]
          simp [Item.textOfAll, Run.source]
        next leading first rest trailing hrun =>
          rw [hrun, Run.source_words] at hsource
          rw [← hsource]
          simp [Item.textOfAll, Item.text]
      next => simp [Item.textOfAll, Item.text]
  | element elem children =>
      have hinner := textOfAll_outlineAll children []
      rw [List.nil_append] at hinner
      rw [outline, text_element]
      split
      next =>
        unfold Element.outlineRaw Element.endText
        cases elem.endTag with
        | none =>
            simp only [Item.textOfAll, Item.text, Token.closeText, List.append_nil,
              List.append_assoc, splitTail_append]
        | some close => simp [Item.textOfAll, Item.text, Token.closeText]
      next =>
        rw [← hinner]
        unfold Element.outline Element.endText
        cases elem.endTag with
        | none => simp [Item.textOfAll, Item.text, Item.closeText]
        | some close => simp [Item.textOfAll, Item.text, Item.closeText]

/-- An outline has the text of its nodes. -/
theorem textOfAll_outlineAll (nodes : List Node) (pending : List Char) :
    Item.textOfAll (outlineAll judge nodes pending).1 ++ (outlineAll judge nodes pending).2 =
      pending ++ textOfAll nodes := by
  cases nodes with
  | nil => simp [outlineAll, Item.textOfAll]
  | cons node rest =>
      simp only [outlineAll, Item.textOfAll_append, textOfAll_cons, List.append_assoc]
      rw [textOfAll_outlineAll rest, ← List.append_assoc, textOfAll_outline node,
        List.append_assoc]

end

mutual

theorem proper_outline (node : Node) (hlegible : node.Legible) (hsound : node.Sound)
    {pending : List Char} (hpending : allBlank pending = true) :
    Item.ProperAll StartTag.Fits (outline judge node pending).1 ∧
      allBlank (outline judge node pending).2 = true := by
  cases node with
  | leaf piece =>
      obtain ⟨-, hfits⟩ := hlegible
      rw [outline, Leaf.outline]
      split
      next hkind =>
        have hproper := Run.proper_ofText piece.raw
        split
        next leading hrun =>
          rw [hrun] at hproper
          have hleading : allBlank leading = true := hproper
          exact ⟨trivial, by simp [hpending, hleading]⟩
        next leading first rest trailing hrun =>
          rw [hrun] at hproper
          have hparted := hproper.parted
          obtain ⟨hleading, hfirst, -, htrailing⟩ := hproper
          exact ⟨⟨⟨by simp [hpending, hleading], hfirst, hparted⟩, trivial⟩, htrailing⟩
      next kind hkind => exact ⟨⟨⟨hpending, fun htext => hkind htext, hfits⟩, trivial⟩, rfl⟩
  | element elem children =>
      obtain ⟨hnamed, hlegible⟩ := hlegible
      obtain ⟨hfits, halone, hchildren⟩ := hsound
      rw [outline]
      split
      next hraw =>
        rw [if_pos hraw] at hlegible
        unfold Element.outlineRaw
        split
        next hclose =>
          rw [hclose, ← splitTail_append (textOfAll children),
            Token.encloses_none_append_blank] at hlegible
          · refine ⟨⟨⟨hpending, hfits, hnamed, hraw, hlegible, fun _ => ?_⟩, trivial⟩,
              splitTail_blank _⟩
            exact splitTail_splitTail _
          · intro c hmem
            have hin := hfits.name c hmem
            simp only [Attribute.inTagName, Bool.and_eq_true, Bool.not_eq_true'] at hin
            exact hin.1.1
          · exact splitTail_blank _
        next close hclose =>
          rw [hclose] at hlegible
          exact ⟨⟨⟨hpending, hfits, hnamed, hraw, hlegible, by simp⟩, trivial⟩, rfl⟩
      next hplain =>
        rw [if_neg hplain] at hlegible
        obtain ⟨hclosed, hinside⟩ := hlegible
        have hplain : elem.tag.takesRawText = false := Bool.not_eq_true _ ▸ hplain
        have hinner := proper_outlineAll children hinside hchildren allBlank_nil
        unfold Element.outline
        split
        next hclose =>
          refine ⟨⟨⟨hpending, hfits, hnamed, hplain, fun hstands => ?_, hinner.1, by simp⟩,
            trivial⟩, hinner.2⟩
          rw [(halone hstands).1]
          exact ⟨rfl, rfl⟩
        next close hclose =>
          refine ⟨⟨⟨hpending, hfits, hnamed, hplain, fun hstands => ?_, hinner.1, ?_⟩, trivial⟩,
            rfl⟩
          · simp [(halone hstands).2] at hclose
          · intro parted hparted
            obtain rfl := Option.some.inj hparted
            exact ⟨hinner.2, hclosed close hclose⟩

/-- The outline of a tree that was read is proper. -/
theorem proper_outlineAll (nodes : List Node) (hlegible : LegibleAll nodes)
    (hsound : SoundAll nodes) {pending : List Char} (hpending : allBlank pending = true) :
    Item.ProperAll StartTag.Fits (outlineAll judge nodes pending).1 ∧
      allBlank (outlineAll judge nodes pending).2 = true := by
  cases nodes with
  | nil => exact ⟨trivial, hpending⟩
  | cons node rest =>
      have hfirst := proper_outline node hlegible.1 hsound.1 hpending
      have hothers := proper_outlineAll rest hlegible.2 hsound.2 hfirst.2
      exact ⟨Item.properAll_append.mpr ⟨hfirst.1, hothers.1⟩, hothers.2⟩

end

end Node

/-- The content of an element that is copied is the text of its outline. -/
theorem Element.preserved_eq (elem : Element) {children : List Node} (judge : Nat → Bool)
    (hlegible : Node.LegibleAll children) (hsound : Node.SoundAll children) :
    elem.preserved children =
      match elem.endTag with
      | none => (Item.textOfAll (Node.outlineAll judge children []).1,
          (Node.outlineAll judge children []).2)
      | some tag => (Item.textOfAll (Node.outlineAll judge children []).1 ++
          ((Node.outlineAll judge children []).2 ++ tag.raw), []) := by
  have htext := Node.textOfAll_outlineAll judge children []
  obtain ⟨hproper, hblank⟩ := Node.proper_outlineAll judge children hlegible hsound allBlank_nil
  rw [List.nil_append] at htext
  unfold Element.preserved
  rw [← htext]
  cases elem.endTag with
  | none => exact (Item.trimmed_textOfAll _ hproper).splitTail_append hblank
  | some tag => simp

end Markup
