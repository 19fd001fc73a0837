import Markup.Proofs.Tree.Rowwise

/-!
# Legible trees

In the tree of a text every leaf and every tag is such that it can be read back from its own text:
a text is not empty, and whatever else there is ends where it ends. The content of a raw text
element is what the reader of raw text takes for it.
-/

namespace Markup

/-- A leaf outside raw text elements that can be read back. -/
def Leaf.Legible (piece : Leaf) : Prop :=
  piece.raw ≠ [] ∧ (Token.ofLeaf piece.kind piece.raw).Fits

/-- An end tag that can be read back as the end of an element. -/
def EndTag.Legible (close : EndTag) : Prop :=
  (Token.endTag close).Fits

namespace Node

mutual

/-- A node whose parts can be read back. -/
def Legible : Node → Prop
  | .element elem children =>
      Named elem.tag.name ∧
        if elem.tag.takesRawText = true then
          Token.Encloses elem.tag.name (textOfAll children) elem.endTag
        else (∀ close ∈ elem.endTag, close.Legible) ∧ LegibleAll children
  | .leaf piece => piece.Legible

def LegibleAll : List Node → Prop
  | [] => True
  | node :: rest => Legible node ∧ LegibleAll rest

end

theorem legibleAll_append {first second : List Node} :
    LegibleAll (first ++ second) ↔ LegibleAll first ∧ LegibleAll second := by
  induction first with
  | nil => simp [LegibleAll]
  | cons node rest ih => simp [LegibleAll, ih, and_assoc]

theorem legible_of_plain {elem : Element} {children : List Node} (hnamed : Named elem.tag.name)
    (hplain : elem.tag.takesRawText = false) (hclose : ∀ close ∈ elem.endTag, close.Legible)
    (hchildren : LegibleAll children) : Legible (.element elem children) := by
  refine ⟨hnamed, ?_⟩
  rw [if_neg (by simp [hplain])]
  exact ⟨hclose, hchildren⟩

end Node

/-- No token but running text is empty. -/
theorem ne_nil_of_ofLeaf_fits {kind : LeafKind} {raw : List Char} (hkind : kind ≠ .text)
    (hfits : (Token.ofLeaf kind raw).Fits) : raw ≠ [] := by
  rintro rfl
  have hread : ∀ token : Token, token.source = [] → ¬token.Legible := by
    intro token hsource hlegible
    have hnil := hlegible []
    rw [hsource, List.append_nil, Token.ofText] at hnil
    exact absurd hnil.symm (List.cons_ne_nil _ _)
  cases kind with
  | text => exact hkind rfl
  | comment => exact hread _ rfl hfits
  | verbatim => exact hread _ rfl hfits
  | doctype => exact hread _ rfl hfits

namespace Nesting

/-- The finished nodes are legible, and so are the open elements as far as they have been read. -/
def Legible (open_ : Nesting) : Prop :=
  open_.Rowwise (fun tag => Named tag.name ∧ tag.takesRawText = false) Node.LegibleAll

theorem legible_laws :
    RowLaws (fun tag => Named tag.name ∧ tag.takesRawText = false) EndTag.Legible
      Node.LegibleAll where
  nil := trivial
  concat hnodes hadded := Node.legibleAll_append.mpr ⟨hnodes, hadded⟩
  text hkind hraw := ⟨⟨hraw, by rw [hkind]; trivial⟩, trivial⟩
  leaf hkind hfits := ⟨⟨ne_nil_of_ofLeaf_fits hkind hfits, hfits⟩, trivial⟩
  opened hfits _ := hfits.2
  ended hfits := hfits
  alone hfits hnone :=
    ⟨Node.legible_of_plain hfits.2.1 hfits.2.2 (by simp [hnone]) trivial, trivial⟩
  element hopened hended hchildren :=
    ⟨Node.legible_of_plain hopened.1 hopened.2 hended hchildren, trivial⟩

end Nesting

namespace Builder

def Legible (builder : Builder) : Prop :=
  builder.nesting.Legible

theorem legible_stable : Stable Legible :=
  Nesting.legible_laws.stable fun _ _ hfits _ =>
    ⟨⟨hfits.2.1, by rw [if_pos hfits.2.2.1]; exact hfits.2.2.2⟩, trivial⟩

end Builder

/-- The tree of a text is legible. -/
theorem Document.legible_of_parse {text : List Char} {document : Document}
    (hparse : parse text = .ok document) : Node.LegibleAll document.children := by
  obtain ⟨builder, hlegible, hchildren, -⟩ := Builder.legible_stable.of_parse hparse
  rw [hchildren]
  exact (Nesting.legible_laws.popMany hlegible _ _).finished

end Markup
