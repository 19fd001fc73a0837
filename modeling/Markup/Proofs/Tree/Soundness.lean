import Markup.Proofs.Tree.Rowwise

/-!
# Sound trees

In the tree of a text every start tag keeps the grammar of tags, and an element that ends with its
own start tag has neither children nor an end tag.
-/

namespace Markup

theorem StartTag.standsAlone_of_takesRawText {tag : StartTag} (hraw : tag.takesRawText = true) :
    tag.standsAlone = false := by
  simp only [takesRawText, Bool.and_eq_true, decide_eq_true_eq, Bool.not_eq_true'] at hraw
  simp [standsAlone, hraw.1.1, hraw.1.2]

namespace Node

mutual

/-- A node whose tags and those inside it are such as are read from a text. -/
def Sound : Node → Prop
  | .element elem children =>
      elem.tag.Fits ∧ (elem.tag.standsAlone = true → children = [] ∧ elem.endTag = none) ∧
        SoundAll children
  | .leaf _ => True

def SoundAll : List Node → Prop
  | [] => True
  | node :: rest => Sound node ∧ SoundAll rest

end

theorem soundAll_append {first second : List Node} :
    SoundAll (first ++ second) ↔ SoundAll first ∧ SoundAll second := by
  induction first with
  | nil => simp [SoundAll]
  | cons node rest ih => simp [SoundAll, ih, and_assoc]

end Node

namespace Nesting

/-- The finished nodes are sound, and so are the open elements as far as they have been read. -/
def Sound (open_ : Nesting) : Prop :=
  open_.Rowwise (fun tag => tag.Fits ∧ tag.standsAlone = false) Node.SoundAll

theorem sound_laws :
    RowLaws (fun tag => tag.Fits ∧ tag.standsAlone = false) (fun _ => True) Node.SoundAll where
  nil := trivial
  concat hnodes hadded := Node.soundAll_append.mpr ⟨hnodes, hadded⟩
  text _ _ := ⟨trivial, trivial⟩
  leaf _ _ := ⟨trivial, trivial⟩
  opened hfits halone := ⟨hfits.1, halone⟩
  ended _ := trivial
  alone hfits hnone := ⟨⟨hfits.1, fun _ => ⟨rfl, hnone⟩, trivial⟩, trivial⟩
  element hopened _ hchildren :=
    ⟨⟨hopened.1, fun hstands => absurd hstands (by simp [hopened.2]), hchildren⟩, trivial⟩

end Nesting

namespace Builder

theorem sound_stable : Stable fun builder => builder.nesting.Sound :=
  Nesting.sound_laws.stable fun elem children hfits hinside => by
    have halone := StartTag.standsAlone_of_takesRawText hfits.2.2.1
    refine ⟨⟨hfits.1, fun hstands => absurd hstands (by simp [halone]), ?_⟩, trivial⟩
    obtain rfl | ⟨piece, rfl, -⟩ := hinside
    · trivial
    · exact ⟨trivial, trivial⟩

end Builder

/-- The tree of a text is sound. -/
theorem Document.sound_of_parse {text : List Char} {document : Document}
    (hparse : parse text = .ok document) : Node.SoundAll document.children := by
  obtain ⟨builder, hsound, hchildren, -⟩ := Builder.sound_stable.of_parse hparse
  rw [hchildren]
  exact (Nesting.sound_laws.popMany hsound _ _).finished

end Markup
