import Markup.Proofs.Plan.Filling
import Markup.Proofs.Plan.Suiting
import Markup.Proofs.Tag.Layout
import Markup.Proofs.Tree.Shape

/-!
# Arranging an outline

Laying out nodes and writing the plan can be seen as one pass over the outline of a document, in
which every item gets its gaps, quotes and end tag as they are written. Nothing is measured in this
pass: of each element it is noted whether it is short. What an item is made of stays as it is. Main
statements: `Settings.bareAll_arrangeAll` and `Settings.properAll_arrangeAll`.
-/

namespace Markup

open Markup.Text

/-- How far a flow of items has been arranged. -/
structure Stage where
  cursor : Cursor
  flow : Flow
  deriving DecidableEq, Repr, Inhabited

/-- The start of an element, arranged: the gap in front of it, its indent, whether it begins its
line and whether it is a block; its start tag, and the stage behind that. -/
structure Front where
  before : Gap
  indent : Nat
  ownLine : Bool
  block : Bool
  tag : StartTag
  stage : Stage
  deriving Repr, Inhabited

/-- An end tag as it is written. -/
def EndTag.plain (tag : EndTag) : EndTag :=
  ⟨tag.name, '<' :: '/' :: (tag.name ++ ['>'])⟩

/-- The kind of item that a leaf is. -/
def LeafKind.following : LeafKind → Following
  | .comment => .comment
  | .doctype => .block
  | _ => .inline

namespace Front

def kind (front : Front) : Following :=
  if front.block then .block else .inline

/-- The stage behind an element, given where it ends and whether a line was broken in it. -/
def behind (front : Front) (cursor : Cursor) (broken : Bool) : Stage :=
  ⟨cursor, { front.stage.flow with
    broken := front.stage.flow.broken || (!front.block && broken) }.follow front.kind⟩

end Front

namespace Settings

/-- Number of columns of a start tag on one line, together with the items that are glued to it. -/
def leadingItems (settings : Settings) : Nat → StartTag → List Item → Nat
  | 0, tag, _ => settings.tagWidth tag
  | depth + 1, tag, children =>
      settings.tagWidth tag +
        if settings.preserves tag.name then 0
        else
          match children with
          | .element _ [] child inner _ :: _ =>
              if settings.isInline child.name then settings.leadingItems depth child inner else 0
          | .rawText [] child _ _ :: _ =>
              if settings.isInline child.name then settings.tagWidth child else 0
          | .words [] first _ :: _ => first.length
          | _ => 0

/-- Arranges running text. -/
def arrangeWords (settings : Settings) (before first : List Char)
    (rest : List (List Char × List Char)) (stage : Stage) : Item × Stage :=
  let (gap, cursor, flow) :=
    settings.separate stage.cursor stage.flow before .inline first.length
  let continuation := if settings.alignText then cursor.column else flow.indent
  let (gaps, after, broken) := settings.fill continuation (cursor.place first.length)
    (rest.map fun (blanks, word) => (blanks, word.length))
  (.words gap.text first (gaps.zipWith (fun gap parted => (gap.text, parted.2)) rest),
    ⟨after, { flow with broken := flow.broken || broken }.follow .inline⟩)

/-- Arranges what is neither running text nor an element. -/
def arrangeLeaf (settings : Settings) (before : List Char) (kind : LeafKind) (content : List Char)
    (stage : Stage) : Item × Stage :=
  let (gap, cursor, flow) := settings.separate stage.cursor stage.flow before kind.following
    (firstLine content).length
  (.leaf gap.text kind content, ⟨cursor.write content, flow.follow kind.following⟩)

/-- Arranges the start of an element whose leading part has the given width. -/
def front (settings : Settings) (before : List Char) (tag : StartTag) (width : Nat)
    (stage : Stage) :
    Front :=
  let block := !settings.isInline tag.name
  let (gap, cursor, flow) := settings.separate stage.cursor stage.flow before
    (if block then .block else .inline) (if block then 0 else width)
  let indent := if cursor.blank then cursor.column else flow.indent
  { before := gap
    indent := indent
    ownLine := cursor.blank
    block := block
    tag := settings.layTag tag indent cursor
    stage := ⟨(settings.layoutStartTag tag indent cursor).2.2, flow⟩ }

/-- The indent of the children of an element. -/
def childIndent (settings : Settings) (front : Front) (short : Bool) (name : List Char) : Nat :=
  if (front.ownLine || front.block) && !settings.doesNotIndentChildrenOf name &&
      (settings.heightLimit == 0 || short) then
    front.indent + settings.indentSize
  else front.indent

/-- Arranges the end tag of an element behind its children, and tells where the element ends. -/
def arrangeClose (settings : Settings) (front : Front) (inner : Stage) :
    Option (List Char × EndTag) → Option (List Char × EndTag) × Cursor
  | none => (none, inner.cursor)
  | some (blanks, tag) =>
      let gap := settings.closingGap inner.flow blanks front.indent (front.ownLine || front.block)
        front.block
      (some (gap.text, tag.plain), (inner.cursor.skip gap).place (3 + tag.name.length))

mutual

/-- Arranges an item. -/
def arrange (settings : Settings) : Item → Stage → Item × Stage
  | .words before first rest, stage => settings.arrangeWords before first rest stage
  | .leaf before kind content, stage => settings.arrangeLeaf before kind content stage
  | .rawText before tag content close, stage =>
      let front := settings.front before tag (settings.tagWidth tag) stage
      (.rawText front.before.text front.tag content close,
        front.behind (front.stage.cursor.write (content ++ Token.closeText close)) false)
  | .element short before tag children close, stage =>
      let front := settings.front before tag (settings.leadingItems lookahead tag children) stage
      match settings.contentOf tag with
      | .empty =>
          (.element short front.before.text front.tag children close,
            front.behind front.stage.cursor false)
      | .verbatim =>
          (.element short front.before.text front.tag children close,
            front.behind
              (front.stage.cursor.write (Item.textOfAll children ++ Item.closeText close)) false)
      | .formatted =>
          let indent := settings.childIndent front short tag.name
          let inner := arrangeAll settings children
            ⟨front.stage.cursor, Flow.start indent (.start front.block)⟩
          let ending := settings.arrangeClose front inner.2 close
          (.element short front.before.text front.tag inner.1 ending.1,
            front.behind ending.2 inner.2.flow.broken)

/-- Arranges items that follow each other. -/
def arrangeAll (settings : Settings) : List Item → Stage → List Item × Stage
  | [], stage => ([], stage)
  | item :: rest, stage =>
      let first := arrange settings item stage
      let others := arrangeAll settings rest first.2
      (first.1 :: others.1, others.2)

end

variable (settings : Settings)

/-! ## What stays as it is -/

theorem blank_wordGap (continuation : Nat) (cursor : Cursor) {blanks : List Char}
    (hblank : allBlank blanks = true) (width : Nat) :
    (settings.wordGap continuation cursor blanks width).1.Blank := by
  unfold wordGap
  split
  next =>
    split
    next => exact Gap.blank_lineBreak _ _
    next => exact Gap.blank_space
  next => exact settings.blank_hardGap continuation hblank

theorem wordGap_ne_nil (continuation : Nat) (cursor : Cursor) {blanks : List Char}
    (hne : blanks ≠ []) (width : Nat) :
    (settings.wordGap continuation cursor blanks width).1.text ≠ [] := by
  unfold wordGap hardGap breakGap
  split
  next => split <;> simp [Gap.text]
  next =>
    split
    next => exact hne
    next =>
      simp [Gap.text]

/-- Words that are filled stay, and stay parted. -/
theorem fill_parted (continuation : Nat) (cursor : Cursor) {rest : List (List Char × List Char)}
    (hrest : Parted rest) :
    Parted (((settings.fill continuation cursor
        (rest.map fun (blanks, word) => (blanks, word.length))).1).zipWith
          (fun gap parted => (gap.text, parted.2)) rest) ∧
      (((settings.fill continuation cursor
        (rest.map fun (blanks, word) => (blanks, word.length))).1).zipWith
          (fun gap parted => (gap.text, parted.2)) rest).map (·.2) = rest.map (·.2) := by
  induction rest generalizing cursor with
  | nil => exact ⟨by simp [Parted], rfl⟩
  | cons head others ih =>
      obtain ⟨⟨hne, hblank, hsolid⟩, hothers⟩ := List.forall_mem_cons.mp hrest
      simp only [List.map_cons, fill, List.zipWith_cons_cons]
      obtain ⟨hparted, hwords⟩ := ih ((cursor.skip (settings.wordGap continuation cursor head.1
        head.2.length).1).place head.2.length) hothers
      refine ⟨List.forall_mem_cons.mpr ⟨⟨?_, ?_, hsolid⟩, hparted⟩, by rw [hwords]⟩
      · exact settings.wordGap_ne_nil continuation cursor hne _
      · exact settings.blank_wordGap continuation cursor hblank _

end Settings

theorem Attribute.map_bare_zipWith {settings : Settings} {attributes : List Attribute}
    {layouts : List AttributeLayout} (hlays : List.Forall₂ settings.Lays attributes layouts) :
    (attributes.zipWith laid layouts).map bare = attributes.map bare := by
  induction hlays with
  | nil => rfl
  | @cons attr layout rest layouts hlay _ ih =>
      have hattr : (attr.laid layout).bare = attr.bare := by
        simp [laid, bare, Function.comp_def]
      rw [List.zipWith_cons_cons, List.map_cons, List.map_cons, hattr, ih]

theorem EndTag.Legible.plain {tag : EndTag} (hlegible : tag.Legible) : tag.plain.Legible := by
  obtain ⟨⟨body, hbody, htag⟩, hnamed⟩ := hlegible
  have hname : ∀ c ∈ tag.name, Attribute.inTagName c = true := by
    rw [htag]
    intro c hmem
    exact List.mem_takeWhile_imp hmem
  refine ⟨⟨tag.name, fun hmem => ?_, ?_⟩, hnamed⟩
  · have hin := hname '>' hmem
    simp [Attribute.inTagName] at hin
  · have htake : (tag.name ++ ['>']).takeWhile Attribute.inTagName = tag.name :=
      takeWhile_run hname (by rw [stopsAt_cons]; decide)
    simp [EndTag.plain, Token.endTagOf, htake]

namespace Settings

variable (settings : Settings)

@[simp]
theorem layTag_name (tag : StartTag) (indent : Nat) (cursor : Cursor) :
    (settings.layTag tag indent cursor).name = tag.name := rfl

@[simp]
theorem layTag_ending (tag : StartTag) (indent : Nat) (cursor : Cursor) :
    (settings.layTag tag indent cursor).ending = tag.ending := rfl

/-- A start tag keeps its name, its attributes and its ending. -/
theorem bare_layTag (tag : StartTag) (indent : Nat) (cursor : Cursor) :
    (settings.layTag tag indent cursor).bare = tag.bare := by
  have hlays := settings.lays_layoutStartTag tag indent cursor
  simp [StartTag.bare, layTag, StartTag.laid, Attribute.map_bare_zipWith hlays]

theorem blank_front {before : List Char} (hbefore : allBlank before = true) (tag : StartTag)
    (width : Nat) (stage : Stage) :
    allBlank (settings.front before tag width stage).before.text = true :=
  settings.blank_separate _ _ _ _ hbefore

theorem front_tag (before : List Char) (tag : StartTag) (width : Nat) (stage : Stage) :
    ∃ indent cursor, (settings.front before tag width stage).tag =
      settings.layTag tag indent cursor :=
  ⟨_, _, rfl⟩

theorem arrangeClose_bare (front : Front) (inner : Stage) (close : Option (List Char × EndTag)) :
    ((settings.arrangeClose front inner close).1.map fun (_, tag) => (([] : List Char), tag.bare)) =
      close.map fun (_, tag) => ([], tag.bare) := by
  cases close <;> rfl

theorem arrangeClose_legible (front : Front) (inner : Stage) {close : Option (List Char × EndTag)}
    (hclose : ∀ parted ∈ close, allBlank parted.1 = true ∧ parted.2.Legible) :
    ∀ parted ∈ (settings.arrangeClose front inner close).1,
      allBlank parted.1 = true ∧ parted.2.Legible := by
  cases close with
  | none => simp [arrangeClose]
  | some found =>
      obtain ⟨hblank, hlegible⟩ := hclose found rfl
      intro parted hparted
      obtain rfl := Option.some.inj hparted
      exact ⟨settings.blank_closingGap _ _ _ _ hblank, hlegible.plain⟩

mutual

theorem bare_arrange (item : Item) (hproper : item.Proper StartTag.Fits) (stage : Stage) :
    (settings.arrange item stage).1.bare = item.bare := by
  cases item with
  | words before first rest =>
      have hwords : ∀ parted : List (List Char × List Char), parted.map (fun (_, word) =>
          ([' '], word)) = (parted.map (·.2)).map fun word => ([' '], word) := by simp
      simp only [arrange, arrangeWords, Item.bare]
      rw [hwords, (settings.fill_parted _ _ hproper.2.2).2, ← hwords]
  | leaf before kind content => rfl
  | rawText before tag content close =>
      obtain ⟨indent, cursor, htag⟩ :=
        settings.front_tag before tag (settings.tagWidth tag) stage
      simp only [arrange, Item.bare, htag, bare_layTag]
  | element short before tag children close =>
      obtain ⟨indent, cursor, htag⟩ :=
        settings.front_tag before tag (settings.leadingItems lookahead tag children) stage
      rw [arrange]
      cases settings.contentOf tag with
      | empty => simp only [Item.bare, htag, bare_layTag]
      | verbatim => simp only [Item.bare, htag, bare_layTag]
      | formatted =>
          simp only [Item.bare, htag, bare_layTag, arrangeClose_bare]
          rw [bareAll_arrangeAll children hproper.2.2.2.2.2.1]

/-- Arranging keeps the shape of items. -/
theorem bareAll_arrangeAll (items : List Item) (hproper : Item.ProperAll StartTag.Fits items)
    (stage : Stage) : Item.bareAll (settings.arrangeAll items stage).1 = Item.bareAll items := by
  cases items with
  | nil => rfl
  | cons item rest =>
      rw [arrangeAll, Item.bareAll, Item.bareAll, bare_arrange item hproper.1,
        bareAll_arrangeAll rest hproper.2]

end

end Settings

/-! ## Start tags that are laid out -/

namespace Item

mutual

/-- The start tags of an item, but for those inside sealed elements. -/
def tags (seals : StartTag → Bool) : Item → List StartTag
  | words _ _ _ => []
  | leaf _ _ _ => []
  | rawText _ tag _ _ => [tag]
  | element _ _ tag children _ => tag :: if seals tag then [] else tagsAll seals children

def tagsAll (seals : StartTag → Bool) : List Item → List StartTag
  | [] => []
  | item :: rest => tags seals item ++ tagsAll seals rest

end

mutual

theorem Proper.mono {Holds Into : StartTag → Prop} (hholds : ∀ tag, Holds tag → Into tag)
    {item : Item} (hproper : item.Proper Holds) : item.Proper Into := by
  cases item with
  | words before first rest => exact hproper
  | leaf before kind content => exact hproper
  | rawText before tag content close =>
      obtain ⟨hbefore, htag, hrest⟩ := hproper
      exact ⟨hbefore, hholds tag htag, hrest⟩
  | element short before tag children close =>
      obtain ⟨hbefore, htag, hnamed, hplain, halone, hchildren, hclose⟩ := hproper
      exact ⟨hbefore, hholds tag htag, hnamed, hplain, halone, ProperAll.mono hholds hchildren,
        hclose⟩

theorem ProperAll.mono {Holds Into : StartTag → Prop} (hholds : ∀ tag, Holds tag → Into tag)
    {items : List Item} (hproper : ProperAll Holds items) : ProperAll Into items := by
  cases items with
  | nil => trivial
  | cons item rest => exact ⟨Proper.mono hholds hproper.1, ProperAll.mono hholds hproper.2⟩

end

end Item

namespace Settings

variable (settings : Settings)

/-- Whether the content of an element with this start tag is copied. -/
def seals (tag : StartTag) : Bool :=
  settings.contentOf tag == .verbatim

/-- One start tag is another one, laid out. -/
def LaysTag (tag laid : StartTag) : Prop :=
  ∃ indent cursor, laid = settings.layTag tag indent cursor

mutual

theorem tags_arrange (item : Item) (hproper : item.Proper StartTag.Fits) (stage : Stage) :
    List.Forall₂ settings.LaysTag (item.tags settings.seals)
      ((settings.arrange item stage).1.tags settings.seals) := by
  cases item with
  | words before first rest => exact .nil
  | leaf before kind content => exact .nil
  | rawText before tag content close =>
      exact .cons (settings.front_tag before tag (settings.tagWidth tag) stage) .nil
  | element short before tag children close =>
      obtain ⟨indent, cursor, htag⟩ :=
        settings.front_tag before tag (settings.leadingItems lookahead tag children) stage
      have hseals : settings.seals (settings.front before tag
          (settings.leadingItems lookahead tag children) stage).tag = settings.seals tag := by
        rw [htag]
        rfl
      rw [arrange]
      cases hcontent : settings.contentOf tag with
      | empty =>
          obtain ⟨rfl, -⟩ := hproper.2.2.2.2.1 (contentOf_eq_empty_iff.mp hcontent)
          simp only [Item.tags, hseals]
          refine .cons ⟨indent, cursor, htag⟩ ?_
          split <;> exact .nil
      | verbatim =>
          have hsealed : settings.seals tag = true := by simp [seals, hcontent]
          simp only [Item.tags, hseals, hsealed, if_true]
          exact .cons ⟨indent, cursor, htag⟩ .nil
      | formatted =>
          have hopen : settings.seals tag = false := by simp [seals, hcontent]
          simp only [Item.tags, hseals, hopen, Bool.false_eq_true, if_false]
          exact .cons ⟨indent, cursor, htag⟩ (tagsAll_arrangeAll children hproper.2.2.2.2.2.1 _)

/-- The start tags outside sealed elements are laid out one by one. -/
theorem tagsAll_arrangeAll (items : List Item) (hproper : Item.ProperAll StartTag.Fits items)
    (stage : Stage) :
    List.Forall₂ settings.LaysTag (Item.tagsAll settings.seals items)
      (Item.tagsAll settings.seals (settings.arrangeAll items stage).1) := by
  cases items with
  | nil => exact .nil
  | cons item rest =>
      simp only [arrangeAll, Item.tagsAll]
      exact List.rel_append (tags_arrange item hproper.1 stage)
        (tagsAll_arrangeAll rest hproper.2 _)

end

section Proper

variable {settings : Settings} {Into : StartTag → Prop}

mutual

theorem proper_arrange (hcopied : ∀ tag : StartTag, tag.Fits → Into tag) {item : Item}
    (hproper : item.Proper StartTag.Fits)
    (hlaid : ∀ tag ∈ item.tags settings.seals, tag.Fits → ∀ indent cursor,
      Into (settings.layTag tag indent cursor)) (stage : Stage) :
    (settings.arrange item stage).1.Proper Into := by
  cases item with
  | words before first rest =>
      obtain ⟨hbefore, hfirst, hrest⟩ := hproper
      exact ⟨settings.blank_separate _ _ _ _ hbefore, hfirst, (settings.fill_parted _ _ hrest).1⟩
  | leaf before kind content =>
      obtain ⟨hbefore, hkind, hfits⟩ := hproper
      exact ⟨settings.blank_separate _ _ _ _ hbefore, hkind, hfits⟩
  | rawText before tag content close =>
      obtain ⟨hbefore, hfits, hnamed, hraw, hrest⟩ := hproper
      obtain ⟨indent, cursor, htag⟩ :=
        settings.front_tag before tag (settings.tagWidth tag) stage
      refine ⟨settings.blank_front hbefore _ _ _, ?_, ?_⟩
      · rw [htag]
        exact hlaid tag (by simp [Item.tags]) hfits _ _
      · rw [htag]
        exact ⟨hnamed, hraw, hrest⟩
  | element short before tag children close =>
      obtain ⟨hbefore, hfits, hnamed, hplain, halone, hchildren, hclose⟩ := hproper
      obtain ⟨indent, cursor, htag⟩ :=
        settings.front_tag before tag (settings.leadingItems lookahead tag children) stage
      have hinto := hlaid tag (by simp [Item.tags]) hfits indent cursor
      have hblank := settings.blank_front hbefore tag
        (settings.leadingItems lookahead tag children) stage
      have hcopy := Item.ProperAll.mono hcopied hchildren
      rw [← htag] at hinto
      have hname : Named (settings.front before tag
          (settings.leadingItems lookahead tag children) stage).tag.name := hnamed
      have htakes : (settings.front before tag
          (settings.leadingItems lookahead tag children) stage).tag.takesRawText = false := hplain
      rw [arrange]
      cases hcontent : settings.contentOf tag with
      | empty => exact ⟨hblank, hinto, hname, htakes, halone, hcopy, hclose⟩
      | verbatim => exact ⟨hblank, hinto, hname, htakes, halone, hcopy, hclose⟩
      | formatted =>
          have hopen : settings.seals tag = false := by simp [seals, hcontent]
          have hinside := properAll_arrangeAll hcopied hchildren fun other hmem =>
            hlaid other (by simp [Item.tags, hopen, hmem])
          refine ⟨hblank, hinto, hname, htakes, fun hstands => ?_, hinside _,
            settings.arrangeClose_legible _ _ hclose⟩
          have hempty : settings.contentOf tag = .empty :=
            contentOf_eq_empty_iff.mpr hstands
          exact absurd (hempty.symm.trans hcontent) (by decide)

/-- Arranged items are proper again, given what is known of the start tags that are laid out. -/
theorem properAll_arrangeAll (hcopied : ∀ tag : StartTag, tag.Fits → Into tag) {items : List Item}
    (hproper : Item.ProperAll StartTag.Fits items)
    (hlaid : ∀ tag ∈ Item.tagsAll settings.seals items, tag.Fits → ∀ indent cursor,
      Into (settings.layTag tag indent cursor)) (stage : Stage) :
    Item.ProperAll Into (settings.arrangeAll items stage).1 := by
  cases items with
  | nil => trivial
  | cons item rest =>
      exact ⟨proper_arrange hcopied hproper.1
          (fun tag hmem => hlaid tag (by simp [Item.tagsAll, hmem])) _,
        properAll_arrangeAll hcopied hproper.2
          (fun tag hmem => hlaid tag (by simp [Item.tagsAll, hmem])) _⟩

end

end Proper

end Settings

end Markup
