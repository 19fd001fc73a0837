import Markup.Proofs.Plan.Agreement
import Markup.Proofs.Plan.Position
import Markup.Proofs.Reading.Uniqueness
import Markup.Proofs.Tree.Tiling

/-!
# Items behind other blanks

The blanks in front of an item matter only for the gap that takes their place: behind the gap, the
item is arranged as one in front of which nothing goes. In an outline, the blanks that wait for an
item go in front of the first one, and are left over if there is none. Main statements:
`Settings.arrange_eq_land` and `Node.outlineAll_delay`.
-/

namespace Markup

open Markup.Text

/-! ## The gap in front of an item -/

namespace Item

/-- An item behind other blanks. -/
def apart (before : List Char) : Item → Item
  | words _ first rest => words before first rest
  | leaf _ kind content => leaf before kind content
  | rawText _ tag content close => rawText before tag content close
  | element short _ tag children close => element short before tag children close

@[simp]
theorem apart_apart (item : Item) (first second : List Char) :
    (item.apart first).apart second = item.apart second := by
  cases item <;> rfl

@[simp]
theorem apart_before (item : Item) : item.apart item.before = item := by
  cases item <;> rfl

@[simp]
theorem before_apart (item : Item) (before : List Char) : (item.apart before).before = before := by
  cases item <;> rfl

theorem Proper.blank_before {Holds : StartTag → Prop} {item : Item} (hproper : item.Proper Holds) :
    allBlank item.before = true := by
  cases item <;> exact hproper.1

theorem Proper.behind {Holds : StartTag → Prop} {item : Item} (hproper : item.Proper Holds)
    {before : List Char} (hblank : allBlank before = true) : (item.apart before).Proper Holds := by
  cases item <;> exact ⟨hblank, hproper.2⟩

end Item

namespace Settings

/-- The kind of an item as far as the gap in front of it is concerned, and the width of its leading
part. -/
def leading (settings : Settings) : Item → Following × Nat
  | .words _ first _ => (.inline, first.length)
  | .leaf _ kind content => (kind.following, (firstLine content).length)
  | .rawText _ tag _ _ =>
      (if !settings.isInline tag.name then .block else .inline,
        if !settings.isInline tag.name then 0 else settings.tagWidth tag)
  | .element _ _ tag children _ =>
      (if !settings.isInline tag.name then .block else .inline,
        if !settings.isInline tag.name then 0 else settings.leadingItems lookahead tag children)

/-- The gap in front of an item, and where the item itself begins. -/
def lead (settings : Settings) (item : Item) (stage : Stage) : Gap × Cursor × Flow :=
  settings.separate stage.cursor stage.flow item.before (settings.leading item).1
    (settings.leading item).2

end Settings

/-- The place that a gap leads to, as a stage at which nothing more goes in front of an item. -/
def Stage.land (found : Gap × Cursor × Flow) : Stage :=
  ⟨{ found.2.1 with anchored := true, fresh := false }, { found.2.2 with preceding := .inline }⟩

/-- The front of an element as one in front of which nothing goes. -/
def Front.land (front : Front) : Front :=
  { front with
    before := .nothing
    stage := ⟨front.stage.cursor, { front.stage.flow with preceding := .inline }⟩ }

theorem Front.behind_land (front : Front) (cursor : Cursor) (broken : Bool) :
    front.land.behind cursor broken = front.behind cursor broken := by
  have hkind : front.land.kind = front.kind := rfl
  unfold Front.behind
  rw [hkind]
  cases front.kind <;> rfl

namespace Settings

variable (settings : Settings)

/-- Behind an anchor, and with nothing in front, an item begins where it is. -/
theorem separate_land {found : Gap × Cursor × Flow} (hanchored : found.2.1.anchored = false)
    (next : Following) (width : Nat) :
    settings.separate (Stage.land found).cursor (Stage.land found).flow [] next width =
      (.nothing, { found.2.1 with fresh := false }, { found.2.2 with preceding := .inline }) := by
  simp [Stage.land, separate, Gap.keep, Cursor.skip, hanchored]

theorem front_land (before : List Char) (tag : StartTag) (width : Nat) (stage : Stage)
    {found : Gap × Cursor × Flow} (hanchored : found.2.1.anchored = false)
    (hfound : settings.separate stage.cursor stage.flow before
      (if !settings.isInline tag.name then .block else .inline)
        (if !settings.isInline tag.name then 0 else width) = found) :
    settings.front [] tag width (.land found) = (settings.front before tag width stage).land := by
  unfold front
  dsimp only
  rw [separate_land settings hanchored, hfound]
  rfl

theorem arrangeClose_land (front : Front) (inner : Stage) (close : Option (List Char × EndTag)) :
    settings.arrangeClose front.land inner close = settings.arrangeClose front inner close := by
  cases close <;> rfl

/-- An item is arranged as if it began where the gap in front of it ends. -/
theorem arrange_eq_land {item : Item} (hproper : item.Proper StartTag.Fits) (stage : Stage)
    (hanchored : (settings.lead item stage).2.1.anchored = false) :
    settings.arrange item stage =
      ((settings.arrange (item.apart []) (.land (settings.lead item stage))).1.apart
          (settings.lead item stage).1.text,
        (settings.arrange (item.apart []) (.land (settings.lead item stage))).2) := by
  cases item with
  | words before first rest =>
      simp only [arrange, arrangeWords, Item.apart, settings.separate_land hanchored]
      rfl
  | leaf before kind content =>
      have hne : content ≠ [] := by
        have hlast := Token.getLast?_of_fits hproper.2.1 hproper.2.2
        rintro rfl
        simp at hlast
      obtain ⟨c, rest, rfl⟩ := List.exists_cons_of_ne_nil hne
      simp only [arrange, arrangeLeaf, Item.apart, settings.separate_land hanchored]
      cases kind <;> rfl
  | rawText before tag content close =>
      simp only [arrange, Item.apart, settings.front_land before tag _ stage hanchored rfl,
        Front.behind_land]
      rfl
  | element short before tag children close =>
      have hfront := settings.front_land before tag (settings.leadingItems lookahead tag children)
        stage hanchored rfl
      rw [Item.apart, arrange, arrange, hfront]
      cases settings.contentOf tag with
      | empty =>
          simp only [Front.behind_land]
          rfl
      | verbatim =>
          simp only [Front.behind_land]
          rfl
      | formatted =>
          simp only [Front.behind_land, arrangeClose_land]
          rfl

end Settings

/-! ## Outlines behind blanks -/

/-- An outline behind more blanks, which go in front of its first item. -/
def Item.delay (pending : List Char) : List Item × List Char → List Item × List Char
  | ([], left) => ([], pending ++ left)
  | (item :: rest, left) => (item.apart (pending ++ item.before) :: rest, left)

namespace Node

variable (judge : Nat → Bool)

theorem outline_delay (node : Node) (pending more : List Char) :
    outline judge node (pending ++ more) = Item.delay pending (outline judge node more) := by
  cases node with
  | leaf piece =>
      rw [outline, outline]
      unfold Leaf.outline
      split
      next => split <;> simp [Item.delay, Item.apart, Item.before]
      next => rfl
  | element elem children =>
      rw [outline, outline]
      split
      next => unfold Element.outlineRaw; split <;> rfl
      next => unfold Element.outline; split <;> rfl

theorem outlineAll_delay (nodes : List Node) (pending more : List Char) :
    outlineAll judge nodes (pending ++ more) =
      Item.delay pending (outlineAll judge nodes more) := by
  induction nodes generalizing more with
  | nil => rfl
  | cons node rest ih =>
      rw [outlineAll, outlineAll, outline_delay]
      rcases outline judge node more with ⟨_ | ⟨item, items⟩, left⟩
      · exact ih left
      · rfl

theorem outlineAll_append (first second : List Node) (pending : List Char) :
    outlineAll judge (first ++ second) pending =
      ((outlineAll judge first pending).1 ++
          (outlineAll judge second (outlineAll judge first pending).2).1,
        (outlineAll judge second (outlineAll judge first pending).2).2) := by
  induction first generalizing pending with
  | nil => rfl
  | cons node rest ih => simp [outlineAll, ih]

theorem unnotedAll_append (first second : List Item) :
    Item.unnotedAll (first ++ second) = Item.unnotedAll first ++ Item.unnotedAll second := by
  induction first with
  | nil => rfl
  | cons item rest ih => simp only [List.cons_append, Item.unnotedAll, ih]

mutual

theorem unnotedAll_outline (node : Node) (pending : List Char) :
    Item.unnotedAll (outline (fun _ => true) node pending).1 =
      (outline (fun _ => true) node pending).1 := by
  cases node with
  | leaf piece =>
      rw [outline]
      unfold Leaf.outline
      split
      next => split <;> rfl
      next => rfl
  | element elem children =>
      have hchildren := unnotedAll_outlineAll children []
      rw [outline]
      split
      next => unfold Element.outlineRaw; split <;> rfl
      next => unfold Element.outline; split <;> simp [Item.unnotedAll, Item.unnoted, hchildren]

/-- Nothing is noted of elements that are all taken to be short. -/
theorem unnotedAll_outlineAll (nodes : List Node) (pending : List Char) :
    Item.unnotedAll (outlineAll (fun _ => true) nodes pending).1 =
      (outlineAll (fun _ => true) nodes pending).1 := by
  cases nodes with
  | nil => rfl
  | cons node rest =>
      rw [outlineAll, unnotedAll_append, unnotedAll_outline node, unnotedAll_outlineAll rest]

end

/-- Behind a node that does not end open no blanks are left. -/
theorem outline_eq_of_not_endsOpen {node : Node} (hends : node.endsOpen = false)
    (hsound : node.Sound) (pending : List Char) : (outline judge node pending).2 = [] := by
  cases node with
  | leaf piece =>
      have hkind : piece.kind ≠ .text := by simpa [endsOpen] using hends
      rw [outline]
      unfold Leaf.outline
      split
      next htext => exact absurd htext hkind
      next => rfl
  | element elem children =>
      rw [outline]
      unfold Element.outlineRaw Element.outline
      cases hclose : elem.endTag with
      | some close => split <;> rfl
      | none =>
          have halone : elem.tag.standsAlone = true := by simpa [endsOpen, hclose] using hends
          have hplain : ¬elem.tag.takesRawText = true := fun hraw => by
            rw [StartTag.standsAlone_of_takesRawText hraw] at halone
            cases halone
          rw [if_neg hplain, (hsound.2.1 halone).1]
          rfl

/-- No blanks are left in front of a text. -/
theorem outlineAll_eq_of_isText {nodes after : List Node} {node : Node} (hsound : SoundAll nodes)
    (hparted : Parted (nodes ++ node :: after)) (htext : node.isText = true) :
    (outlineAll judge nodes []).2 = [] := by
  cases hlast : nodes.getLast? with
  | none =>
      obtain rfl := List.getLast?_eq_none_iff.mp hlast
      rfl
  | some last =>
      obtain ⟨front, rfl⟩ := List.getLast?_eq_some_iff.mp hlast
      have hpair := (List.isChain_append.mp hparted).2.2 last (by simp) node (by simp)
      have hends : last.endsOpen = false := Bool.eq_false_iff.mpr fun hopen => hpair ⟨hopen, htext⟩
      rw [outlineAll_append]
      exact outline_eq_of_not_endsOpen judge hends (soundAll_append.mp hsound).2.1 _

/-- Nothing is in front of the first item of a node that is no text. -/
theorem exists_outline_of_not_isText {node : Node} (hmarkup : node.isText = false) :
    ∃ item, (outline judge node []).1 = [item] ∧ item.before = [] := by
  cases node with
  | leaf piece =>
      have hkind : piece.kind ≠ .text := by simpa [isText] using hmarkup
      rw [outline]
      unfold Leaf.outline
      split
      next htext => exact absurd htext hkind
      next => exact ⟨_, rfl, rfl⟩
  | element elem children =>
      rw [outline]
      split
      next => unfold Element.outlineRaw; split <;> exact ⟨_, rfl, rfl⟩
      next => unfold Element.outline; split <;> exact ⟨_, rfl, rfl⟩

end Node

end Markup
