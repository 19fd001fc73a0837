import Markup.Proofs.Plan.Arrangement
import Markup.Proofs.Reading.Uniqueness

/-!
# Sketches

The sketch of a tree is what formatting is to preserve: how the nodes are nested and ordered, the
names, attributes and endings of start tags, which elements have an end tag, the words of texts, and
whatever is copied. Blanks, quotes and the text of end tags are not part of it. The sketch of an
outline is not changed by arranging it.
-/

namespace Markup

open Markup.Text

/-- What a start tag says, without its blanks and quotes. -/
structure Signature where
  name : List Char
  attributes : List (List Char × Option (List Char))
  ending : Ending
  deriving DecidableEq, Repr, Inhabited

/-- A node without what formatting may change. Of an element it is kept whether it has an end tag.
Of preserved content, all of it is kept, end tag included. -/
inductive Sketch where
  | text (words : List (List Char))
  | leaf (kind : LeafKind) (raw : List Char)
  | element (tag : Signature) (children : List Sketch) (closed : Bool)
  | preserved (tag : Signature) (content : List Char) (closed : Bool)
  deriving Repr

def StartTag.signature (tag : StartTag) : Signature :=
  ⟨tag.name, tag.attributes.map fun attr => (attr.name, attr.value.map (·.raw)), tag.ending⟩

/-- The sketch of a leaf. Blank text is left out. -/
def Leaf.sketch (piece : Leaf) : List Sketch :=
  match piece.kind, (Run.ofText piece.raw).units with
  | .text, [] => []
  | .text, words => [.text words]
  | kind, _ => [.leaf kind piece.raw]

namespace Settings

mutual

/-- The sketch of a node. -/
def sketch (settings : Settings) : Node → List Sketch
  | .leaf piece => piece.sketch
  | .element elem children =>
      match settings.contentOf elem.tag with
      | .verbatim =>
          [.preserved elem.tag.signature (elem.preserved children).1 elem.endTag.isSome]
      | _ => [.element elem.tag.signature (sketchAll settings children) elem.endTag.isSome]

/-- The sketch of nodes that follow each other. -/
def sketchAll (settings : Settings) : List Node → List Sketch
  | [] => []
  | node :: rest => sketch settings node ++ sketchAll settings rest

end

mutual

/-- The start tags of a node that are laid out, which are those outside preserved elements. -/
def laidTags (settings : Settings) : Node → List StartTag
  | .leaf _ => []
  | .element elem children =>
      elem.tag :: if settings.seals elem.tag then [] else laidTagsAll settings children

def laidTagsAll (settings : Settings) : List Node → List StartTag
  | [] => []
  | node :: rest => laidTags settings node ++ laidTagsAll settings rest

end

end Settings

/-! ## The sketch of an outline -/

namespace Item

mutual

def sketch : Item → Sketch
  | words _ first rest => .text (first :: rest.map (·.2))
  | leaf _ kind content => .leaf kind content
  | rawText _ tag content close => .preserved tag.signature content close.isSome
  | element _ _ tag children close =>
      .element tag.signature (sketchAll children) close.isSome

/-- The sketch of items that follow each other. -/
def sketchAll : List Item → List Sketch
  | [] => []
  | item :: rest => sketch item :: sketchAll rest

end

@[simp]
theorem sketchAll_append (first second : List Item) :
    sketchAll (first ++ second) = sketchAll first ++ sketchAll second := by
  induction first with
  | nil => rfl
  | cons item rest ih => simp only [List.cons_append, sketchAll, ih]

end Item

def Signature.bare (tag : Signature) : StartTag :=
  ⟨tag.name, tag.attributes.map fun (name, value) =>
    ⟨[], name, value.map fun raw => ⟨['='], raw, none⟩⟩, [], tag.ending⟩

theorem StartTag.bare_signature (tag : StartTag) : tag.signature.bare = tag.bare := by
  simp [signature, Signature.bare, bare, Attribute.bare, Function.comp_def]

namespace Sketch

mutual

/-- The item with a sketch that has nothing else. -/
def outer : Sketch → Item
  | text words => .words [] (words.headD []) (words.tail.map fun word => ([], word))
  | leaf kind raw => .leaf [] kind raw
  | element tag children closed =>
      .element true [] tag.bare (outerAll children) (if closed then some ([], .unknown) else none)
  | preserved tag content closed =>
      .rawText [] tag.bare content (if closed then some .unknown else none)

def outerAll : List Sketch → List Item
  | [] => []
  | sketch :: rest => outer sketch :: outerAll rest

end

end Sketch

namespace Item

mutual

theorem outer_sketch (item : Item) : item.sketch.outer = item.outer := by
  cases item with
  | words before first rest => simp [sketch, Sketch.outer, outer]
  | leaf before kind content => rfl
  | rawText before tag content close =>
      cases close <;> simp [sketch, Sketch.outer, outer, StartTag.bare_signature]
  | element short before tag children close =>
      cases close <;>
        simp [sketch, Sketch.outer, outer, StartTag.bare_signature, outerAll_sketchAll children]

theorem outerAll_sketchAll (items : List Item) :
    Sketch.outerAll (sketchAll items) = outerAll items := by
  cases items with
  | nil => rfl
  | cons item rest =>
      rw [sketchAll, Sketch.outerAll, outerAll, outer_sketch item, outerAll_sketchAll rest]

end

end Item

/-! ## The sketch of nodes is that of their outline -/

theorem Item.sealedAll_append (seals : StartTag → Bool) (first second : List Item) :
    sealedAll seals (first ++ second) = sealedAll seals first ++ sealedAll seals second := by
  induction first with
  | nil => rfl
  | cons item rest ih => simp only [List.cons_append, sealedAll, ih]

theorem Item.tagsAll_append (seals : StartTag → Bool) (first second : List Item) :
    tagsAll seals (first ++ second) = tagsAll seals first ++ tagsAll seals second := by
  induction first with
  | nil => rfl
  | cons item rest ih => simp only [List.cons_append, tagsAll, ih, List.append_assoc]

theorem Leaf.sketch_outline (piece : Leaf) (seals : StartTag → Bool) (pending : List Char) :
    Item.sketchAll (Item.sealedAll seals (piece.outline pending).1) = piece.sketch := by
  unfold outline Leaf.sketch
  split
  next hkind =>
    rw [hkind]
    cases Run.ofText piece.raw with
    | blank leading => rfl
    | words leading first rest trailing =>
        simp [Item.sealedAll, Item.sealed, Item.sketchAll, Item.sketch, Run.units, Run.wordList]
  next hkind =>
    split
    next htext _ => exact absurd htext hkind
    next htext _ => exact absurd htext hkind
    next => rfl

namespace Settings

variable (settings : Settings) (judge : Nat → Bool)

theorem sketch_outlineRaw {elem : Element} (hraw : elem.tag.takesRawText = true)
    (children : List Node) (pending : List Char) :
    Item.sketchAll (Item.sealedAll settings.seals
      (elem.outlineRaw pending (Node.textOfAll children)).1) =
      settings.sketch (.element elem children) := by
  rw [sketch, contentOf_of_takesRawText hraw]
  unfold Element.outlineRaw Element.preserved
  cases elem.endTag with
  | none =>
      simp [Item.sealedAll, Item.sealed, Item.sketchAll, Item.sketch, Token.closeText]
  | some close =>
      simp [Item.sealedAll, Item.sealed, Item.sketchAll, Item.sketch, Token.closeText]

mutual

theorem sketch_outline (node : Node) (hlegible : node.Legible) (hsound : node.Sound)
    (pending : List Char) :
    Item.sketchAll (Item.sealedAll settings.seals (Node.outline judge node pending).1) =
      settings.sketch node := by
  cases node with
  | leaf piece => exact piece.sketch_outline settings.seals pending
  | element elem children =>
      rw [Node.outline]
      split
      next hraw => exact settings.sketch_outlineRaw hraw children pending
      next hplain =>
        obtain ⟨-, hinside⟩ := hlegible
        rw [if_neg hplain] at hinside
        have hkept := elem.preserved_eq judge hinside.2 hsound.2.2
        have hchildren := sketchAll_outlineAll children hinside.2 hsound.2.2 []
        rw [sketch]
        cases hcontent : settings.contentOf elem.tag with
        | verbatim =>
            have hseals : settings.seals elem.tag = true := by simp [seals, hcontent]
            dsimp only
            rw [hkept]
            unfold Element.outline
            cases elem.endTag with
            | none =>
                simp [Item.sealedAll, Item.sealed, Item.sketchAll, Item.sketch, hseals,
                  Item.closeText]
            | some close =>
                simp [Item.sealedAll, Item.sealed, Item.sketchAll, Item.sketch, hseals,
                  Item.closeText]
        | empty =>
            have hseals : settings.seals elem.tag = false := by simp [seals, hcontent]
            unfold Element.outline
            cases elem.endTag <;>
              simp [Item.sealedAll, Item.sealed, Item.sketchAll, Item.sketch, hseals, hchildren]
        | formatted =>
            have hseals : settings.seals elem.tag = false := by simp [seals, hcontent]
            unfold Element.outline
            cases elem.endTag <;>
              simp [Item.sealedAll, Item.sealed, Item.sketchAll, Item.sketch, hseals, hchildren]

/-- The sketch of nodes is that of their outline, once what is copied is sealed. -/
theorem sketchAll_outlineAll (nodes : List Node) (hlegible : Node.LegibleAll nodes)
    (hsound : Node.SoundAll nodes) (pending : List Char) :
    Item.sketchAll (Item.sealedAll settings.seals (Node.outlineAll judge nodes pending).1) =
      settings.sketchAll nodes := by
  cases nodes with
  | nil => rfl
  | cons node rest =>
      rw [Node.outlineAll, Item.sealedAll_append, Item.sketchAll_append,
        sketch_outline node hlegible.1 hsound.1, sketchAll_outlineAll rest hlegible.2 hsound.2,
        sketchAll]

end

mutual

theorem tags_outline (node : Node) (hlegible : node.Legible) (pending : List Char) :
    Item.tagsAll settings.seals (Node.outline judge node pending).1 = settings.laidTags node := by
  cases node with
  | leaf piece =>
      rw [Node.outline, laidTags]
      unfold Leaf.outline
      split
      next => split <;> rfl
      next => rfl
  | element elem children =>
      rw [Node.outline, laidTags]
      split
      next hraw =>
        have hseals : settings.seals elem.tag = true := by
          simp [seals, contentOf_of_takesRawText hraw]
        unfold Element.outlineRaw
        split <;> simp [Item.tagsAll, Item.tags, hseals]
      next hplain =>
        obtain ⟨-, hinside⟩ := hlegible
        rw [if_neg hplain] at hinside
        have hchildren := tagsAll_outlineAll children hinside.2 []
        unfold Element.outline
        split <;> simp [Item.tagsAll, Item.tags, hchildren]

theorem tagsAll_outlineAll (nodes : List Node) (hlegible : Node.LegibleAll nodes)
    (pending : List Char) :
    Item.tagsAll settings.seals (Node.outlineAll judge nodes pending).1 =
      settings.laidTagsAll nodes := by
  cases nodes with
  | nil => rfl
  | cons node rest =>
      rw [Node.outlineAll, Item.tagsAll_append, tags_outline node hlegible.1,
        tagsAll_outlineAll rest hlegible.2, laidTagsAll]

end

end Settings

/-! ## Arranging keeps the sketch -/

theorem StartTag.signature_bare (tag : StartTag) : tag.bare.signature = tag.signature := by
  simp [signature, bare, Attribute.bare, Function.comp_def]

theorem Settings.signature_layTag (settings : Settings) (tag : StartTag) (indent : Nat)
    (cursor : Cursor) : (settings.layTag tag indent cursor).signature = tag.signature := by
  rw [← StartTag.signature_bare, settings.bare_layTag, StartTag.signature_bare]

namespace Settings

variable (settings : Settings)

theorem isSome_arrangeClose (front : Front) (inner : Stage) (close : Option (List Char × EndTag)) :
    (settings.arrangeClose front inner close).1.isSome = close.isSome := by
  cases close <;> rfl

mutual

theorem sketch_arrange (item : Item) (hproper : item.Proper StartTag.Fits) (stage : Stage) :
    ((settings.arrange item stage).1.sealed settings.seals).sketch =
      (item.sealed settings.seals).sketch := by
  cases item with
  | words before first rest =>
      simp only [arrange, arrangeWords, Item.sealed, Item.sketch]
      rw [(settings.fill_parted _ _ hproper.2.2).2]
  | leaf before kind content => rfl
  | rawText before tag content close =>
      obtain ⟨indent, cursor, htag⟩ :=
        settings.front_tag before tag (settings.tagWidth tag) stage
      simp only [arrange, Item.sealed, Item.sketch, htag, signature_layTag]
  | element short before tag children close =>
      obtain ⟨indent, cursor, htag⟩ :=
        settings.front_tag before tag (settings.leadingItems lookahead tag children) stage
      have hseals : settings.seals (settings.layTag tag indent cursor) = settings.seals tag := rfl
      rw [arrange]
      cases hcontent : settings.contentOf tag with
      | empty =>
          have hopen : settings.seals tag = false := by simp [seals, hcontent]
          simp [Item.sealed, Item.sketch, htag, hseals, hopen, signature_layTag]
      | verbatim =>
          have hsealed : settings.seals tag = true := by simp [seals, hcontent]
          simp [Item.sealed, Item.sketch, htag, hseals, hsealed, signature_layTag]
      | formatted =>
          have hopen : settings.seals tag = false := by simp [seals, hcontent]
          have hchildren := sketchAll_arrangeAll children hproper.2.2.2.2.2.1
          simp [Item.sealed, Item.sketch, htag, hseals, hopen, signature_layTag, hchildren,
            isSome_arrangeClose]

/-- Arranging items keeps their sketch. -/
theorem sketchAll_arrangeAll (items : List Item) (hproper : Item.ProperAll StartTag.Fits items)
    (stage : Stage) :
    Item.sketchAll (Item.sealedAll settings.seals (settings.arrangeAll items stage).1) =
      Item.sketchAll (Item.sealedAll settings.seals items) := by
  cases items with
  | nil => rfl
  | cons item rest =>
      rw [arrangeAll, Item.sealedAll, Item.sealedAll, Item.sketchAll, Item.sketchAll,
        sketch_arrange item hproper.1, sketchAll_arrangeAll rest hproper.2]

end

end Settings

namespace Item

variable (seals : StartTag → Bool)

mutual

theorem sketch_sealed_unnoted (item : Item) :
    (item.unnoted.sealed seals).sketch = (item.sealed seals).sketch := by
  cases item with
  | words before first rest => rfl
  | leaf before kind content => rfl
  | rawText before tag content close => rfl
  | element short before tag children close =>
      have hchildren := sketchAll_sealedAll_unnotedAll children
      simp only [unnoted, sealed, textOfAll_unnotedAll]
      split
      next => rfl
      next => simp only [sketch, hchildren]

/-- The sketch does not tell what was noted of elements. -/
theorem sketchAll_sealedAll_unnotedAll (items : List Item) :
    sketchAll (sealedAll seals (unnotedAll items)) = sketchAll (sealedAll seals items) := by
  cases items with
  | nil => rfl
  | cons item rest =>
      rw [unnotedAll, sealedAll, sealedAll, sketchAll, sketchAll, sketch_sealed_unnoted item,
        sketchAll_sealedAll_unnotedAll rest]

end

mutual

theorem tags_sealed (item : Item) : (item.sealed seals).tags seals = item.tags seals := by
  cases item with
  | words before first rest => rfl
  | leaf before kind content => rfl
  | rawText before tag content close => rfl
  | element short before tag children close =>
      rw [sealed]
      split
      next hseals => simp [tags, hseals]
      next hopen => simp [tags, hopen, tagsAll_sealedAll children]

theorem tagsAll_sealedAll (items : List Item) :
    tagsAll seals (sealedAll seals items) = tagsAll seals items := by
  cases items with
  | nil => rfl
  | cons item rest =>
      rw [sealedAll, tagsAll, tagsAll, tags_sealed item, tagsAll_sealedAll rest]

end

mutual

theorem tags_unnoted (item : Item) : item.unnoted.tags seals = item.tags seals := by
  cases item with
  | words before first rest => rfl
  | leaf before kind content => rfl
  | rawText before tag content close => rfl
  | element short before tag children close =>
      simp only [unnoted, tags, tagsAll_unnotedAll children]

theorem tagsAll_unnotedAll (items : List Item) :
    tagsAll seals (unnotedAll items) = tagsAll seals items := by
  cases items with
  | nil => rfl
  | cons item rest =>
      rw [unnotedAll, tagsAll, tagsAll, tags_unnoted item, tagsAll_unnotedAll rest]

end

section Apart

variable {seals : StartTag → Bool} {Holds : StartTag → Prop} {Closes : EndTag → Prop}

mutual

theorem Apart.of_mem_tags {item : Item} (hapart : item.Apart Holds Closes) {tag : StartTag}
    (hmem : tag ∈ item.tags seals) : Holds tag := by
  cases item with
  | words before first rest => cases hmem
  | leaf before kind content => cases hmem
  | rawText before found content close =>
      obtain rfl := List.mem_singleton.mp hmem
      exact hapart.2.1
  | element short before found children close =>
      rcases List.mem_cons.mp hmem with rfl | hinside
      · exact hapart.2.1
      · split at hinside
        next => cases hinside
        next => exact ApartAll.of_mem_tagsAll hapart.2.2.1 hinside

theorem ApartAll.of_mem_tagsAll {items : List Item} (hapart : ApartAll Holds Closes items)
    {tag : StartTag} (hmem : tag ∈ tagsAll seals items) : Holds tag := by
  cases items with
  | nil => cases hmem
  | cons item rest =>
      rcases List.mem_append.mp hmem with hfirst | hrest
      · exact Apart.of_mem_tags hapart.1 hfirst
      · exact ApartAll.of_mem_tagsAll hapart.2 hrest

end

end Apart

end Item

end Markup
