import Mathlib.Data.List.Forall2
import Mathlib.Tactic.MkIffOfInductiveProp
import Markup.Proofs.Plan.Advance
import Markup.Proofs.Plan.Filling
import Markup.Proofs.Plan.Selection
import Markup.Proofs.Text.Fragments

/-!
# Planning without regard to spacing

Where blanks are not kept as they are, planning asks two things of the blanks between items, words
and attributes: whether there are any, and how many line feeds are among them, up to one more than
there are blank lines to be kept. Documents whose blanks agree in this, and which are the same
otherwise, get the same plan. Main statement: `Settings.layoutDocument_congr`.
-/

namespace Markup

open Markup.Text

/-! ## Blanks -/

/-- Blanks that planning does not tell apart: both are there or neither, and as far as line feeds
count there are as many of them in both. -/
@[mk_iff]
structure Settings.SameBlanks (settings : Settings) (first second : List Char) : Prop where
  empty : first = [] ↔ second = []
  lines : min (newlines first) (settings.keepBlankLines + 1) =
    min (newlines second) (settings.keepBlankLines + 1)

namespace Settings.SameBlanks

variable {settings : Settings} {first second others more : List Char}

theorem refl (blanks : List Char) : settings.SameBlanks blanks blanks :=
  ⟨Iff.rfl, rfl⟩

theorem append (hsame : settings.SameBlanks first second)
    (hmore : settings.SameBlanks others more) :
    settings.SameBlanks (first ++ others) (second ++ more) := by
  refine ⟨by simp [hsame.empty, hmore.empty], ?_⟩
  have hfirst := hsame.lines
  have hothers := hmore.lines
  rw [newlines_append, newlines_append]
  omega

theorem isEmpty (hsame : settings.SameBlanks first second) : first.isEmpty = second.isEmpty := by
  rw [Bool.eq_iff_iff, List.isEmpty_iff, List.isEmpty_iff, hsame.empty]

/-- At least one line feed counts, so that both have one or neither has. -/
theorem breaks (hsame : settings.SameBlanks first second) :
    (0 < newlines first) = (0 < newlines second) := by
  have hlines := hsame.lines
  rw [eq_iff_iff]
  omega

theorem contains (hsame : settings.SameBlanks first second) :
    first.contains '\n' = second.contains '\n' := by
  have hbreaks := hsame.breaks
  rw [newlines, newlines, List.count_pos_iff, List.count_pos_iff] at hbreaks
  rw [List.contains_eq_mem, List.contains_eq_mem, decide_eq_decide, hbreaks]

theorem breakGap (hsame : settings.SameBlanks first second) (indent : Nat) :
    settings.breakGap (newlines first) indent = settings.breakGap (newlines second) indent := by
  have hfeeds : min (newlines first) settings.feedLimit =
      min (newlines second) settings.feedLimit := by
    rw [← Nat.min_eq_right settings.feedLimit_le, ← Nat.min_assoc, ← Nat.min_assoc, hsame.lines]
  rw [Settings.breakGap, Settings.breakGap, hfeeds]

end Settings.SameBlanks

/-! ## Documents -/

/-- The attribute without the blanks in front of it and around its equals sign. -/
def Attribute.tight (attr : Attribute) : Attribute :=
  { attr with gap := [], value := attr.value.map fun value => { value with before := [] } }

/-- Attributes that are the same but for their blanks. -/
@[mk_iff]
structure Attribute.Respaced (settings : Settings) (first second : Attribute) : Prop where
  gap : settings.SameBlanks first.gap second.gap
  tight : first.tight = second.tight

/-- Start tags that are the same but for their blanks. -/
@[mk_iff]
structure StartTag.Respaced (settings : Settings) (first second : StartTag) : Prop where
  name : first.name = second.name
  attributes : List.Forall₂ (Attribute.Respaced settings) first.attributes second.attributes
  trailing : settings.SameBlanks first.trailing second.trailing
  ending : first.ending = second.ending

/-- Running texts of the same words, with the blanks in front of them, between them and behind them
alike. -/
@[mk_iff]
structure Text.Run.Respaced (settings : Settings) (first second : Run) : Prop where
  leading : settings.SameBlanks first.leading second.leading
  units : first.units = second.units
  gaps : List.Forall₂ settings.SameBlanks first.gaps second.gaps
  trailing : settings.SameBlanks first.trailing second.trailing

/-- Leaves that are the same but for the blanks of running text. -/
@[mk_iff]
structure Leaf.Respaced (settings : Settings) (first second : Leaf) : Prop where
  kind : first.kind = second.kind
  id : first.id = second.id
  words : first.kind = .text → (Run.ofText first.raw).Respaced settings (Run.ofText second.raw)
  raw : first.kind ≠ .text → first.raw = second.raw

mutual

/-- Nodes that are the same but for their blanks. What is preserved of an element has to be the same
altogether, apart from the blanks at the end of an element without an end tag. -/
def Node.Respaced (settings : Settings) : Node → Node → Prop
  | .leaf first, .leaf second => first.Respaced settings second
  | .element first children, .element second others =>
      first.id = second.id ∧ first.tag.Respaced settings second.tag ∧
        if settings.contentOf first.tag = .verbatim then
          (first.preserved children).1 = (second.preserved others).1 ∧
            settings.SameBlanks (first.preserved children).2 (second.preserved others).2
        else
          first.endTag.map EndTag.name = second.endTag.map EndTag.name ∧
            RespacedAll settings children others
  | _, _ => False

/-- Nodes one after the other that are the same but for their blanks. -/
def Node.RespacedAll (settings : Settings) : List Node → List Node → Prop
  | [], [] => True
  | first :: nodes, second :: others =>
      Node.Respaced settings first second ∧ RespacedAll settings nodes others
  | _, _ => False

end

/-- Documents that are the same but for their blanks. -/
@[mk_iff]
structure Document.Respaced (settings : Settings) (first second : Document) : Prop where
  children : Node.RespacedAll settings first.children second.children
  count : first.count = second.count

section Decidable

variable (settings : Settings)

instance (first second : List Char) : Decidable (settings.SameBlanks first second) :=
  decidable_of_iff' _ (Settings.sameBlanks_iff settings first second)

instance (first second : Attribute) : Decidable (first.Respaced settings second) :=
  decidable_of_iff' _ (Attribute.respaced_iff settings first second)

instance (first second : StartTag) : Decidable (first.Respaced settings second) :=
  decidable_of_iff' _ (StartTag.respaced_iff settings first second)

instance (first second : Run) : Decidable (first.Respaced settings second) :=
  decidable_of_iff' _ (Run.respaced_iff settings first second)

instance (first second : Leaf) : Decidable (first.Respaced settings second) :=
  decidable_of_iff' _ (Leaf.respaced_iff settings first second)

mutual

def Node.decideRespaced : (first second : Node) → Decidable (Node.Respaced settings first second)
  | .leaf first, .leaf second =>
      inferInstanceAs (Decidable (first.Respaced settings second))
  | .element first children, .element second others =>
      have := Node.decideRespacedAll children others
      inferInstanceAs (Decidable (first.id = second.id ∧ first.tag.Respaced settings second.tag ∧
        if settings.contentOf first.tag = .verbatim then
          (first.preserved children).1 = (second.preserved others).1 ∧
            settings.SameBlanks (first.preserved children).2 (second.preserved others).2
        else
          first.endTag.map EndTag.name = second.endTag.map EndTag.name ∧
            Node.RespacedAll settings children others))
  | .leaf _, .element _ _ => .isFalse fun hnot => hnot
  | .element _ _, .leaf _ => .isFalse fun hnot => hnot

def Node.decideRespacedAll :
    (nodes others : List Node) → Decidable (Node.RespacedAll settings nodes others)
  | [], [] => .isTrue trivial
  | first :: nodes, second :: others =>
      have := Node.decideRespaced first second
      have := Node.decideRespacedAll nodes others
      inferInstanceAs (Decidable (Node.Respaced settings first second ∧
        Node.RespacedAll settings nodes others))
  | [], _ :: _ => .isFalse fun hnot => hnot
  | _ :: _, [] => .isFalse fun hnot => hnot

end

instance (first second : Document) : Decidable (first.Respaced settings second) :=
  have := Node.decideRespacedAll settings first.children second.children
  decidable_of_iff' _ (Document.respaced_iff settings first second)

end Decidable

namespace Settings

variable {settings : Settings}

/-! ## Gaps between items and words -/

section Gaps

variable {first second : List Char}

theorem gapBetween_congr (hsame : settings.SameBlanks first second) (cursor : Cursor) (flow : Flow)
    (next : Following) (width : Nat) :
    settings.gapBetween cursor flow first next width =
      settings.gapBetween cursor flow second next width := by
  simp only [gapBetween, hsame.breakGap, hsame.isEmpty, hsame.breaks]

theorem separate_congr (hkeep : settings.keepWhitespaces = false)
    (hsame : settings.SameBlanks first second) {cursor : Cursor} (hfree : cursor.anchored = false)
    (flow : Flow) (next : Following) (width : Nat) :
    settings.separate cursor flow first next width =
      settings.separate cursor flow second next width := by
  simp only [separate, hfree, hkeep, Bool.or_self, Bool.false_eq_true, if_false,
    gapBetween_congr hsame]

theorem closingGap_congr (hkeep : settings.keepWhitespaces = false)
    (hsame : settings.SameBlanks first second) (inner : Flow) (indent : Nat)
    (ownLine block : Bool) :
    settings.closingGap inner first indent ownLine block =
      settings.closingGap inner second indent ownLine block := by
  simp only [closingGap, hkeep, Bool.false_eq_true, if_false, hsame.breakGap, hsame.isEmpty,
    hsame.breaks]

theorem finalGap_congr (hkeep : settings.keepWhitespaces = false)
    (hsame : settings.SameBlanks first second) :
    settings.finalGap first = settings.finalGap second := by
  simp only [finalGap, hkeep, Bool.false_eq_true, if_false, hsame.contains]

theorem wordGap_congr (hkeep : settings.keepWhitespaces = false)
    (hsame : settings.SameBlanks first second) (continuation : Nat) (cursor : Cursor)
    (width : Nat) :
    settings.wordGap continuation cursor first width =
      settings.wordGap continuation cursor second width := by
  simp only [wordGap, isSoft, hardGap, hkeep, Bool.false_eq_true, if_false, hsame.breakGap,
    hsame.breaks]

theorem keepsBreakInTag_congr (hsame : settings.SameBlanks first second) :
    settings.keepsBreakInTag first = settings.keepsBreakInTag second := by
  rw [keepsBreakInTag, keepsBreakInTag, hsame.contains]

end Gaps

theorem fill_congr (hkeep : settings.keepWhitespaces = false) (continuation : Nat) (cursor : Cursor)
    {gaps others : List (List Char)} (hgaps : List.Forall₂ settings.SameBlanks gaps others)
    (widths : List Nat) :
    settings.fill continuation cursor (gaps.zip widths) =
      settings.fill continuation cursor (others.zip widths) := by
  induction hgaps generalizing cursor widths with
  | nil => rfl
  | cons hgap _ ih =>
      cases widths with
      | nil => rfl
      | cons width rest =>
          simp only [List.zip_cons_cons, fill, wordGap_congr hkeep hgap, ih]

/-! ## Start tags -/

section Tag

theorem quoteFor_tight (settings : Settings) (attr : Attribute) :
    settings.quoteFor attr.tight = settings.quoteFor attr := by
  obtain ⟨gap, name, value⟩ := attr
  cases value <;> rfl

theorem attributeWidth_tight (settings : Settings) (attr : Attribute) :
    settings.attributeWidth attr.tight = settings.attributeWidth attr := by
  rw [attributeWidth, attributeWidth, quoteFor_tight]
  obtain ⟨gap, name, value⟩ := attr
  cases value <;> rfl

theorem writeAttribute_tight (cursor : Cursor) (attr : Attribute) (quote : Option Quote) :
    writeAttribute cursor attr.tight quote = writeAttribute cursor attr quote := by
  obtain ⟨gap, name, value⟩ := attr
  cases value <;> rfl

variable {attr other : Attribute} {tag twin : StartTag}

theorem layoutAttribute_congr (hrespaced : attr.Respaced settings other) (cursor : Cursor)
    (broken : Bool) (aligned : Nat) :
    settings.layoutAttribute cursor attr broken aligned =
      settings.layoutAttribute cursor other broken aligned := by
  have htight : ∀ attr : Attribute, settings.layoutAttribute cursor attr.tight broken aligned =
      settings.layoutAttribute cursor attr broken aligned := by
    intro attr
    simp only [layoutAttribute, quoteFor_tight, writeAttribute_tight]
  rw [← htight attr, hrespaced.tight, htight]

theorem layoutFurther_congr {attributes others : List Attribute}
    (hrespaced : List.Forall₂ (Attribute.Respaced settings) attributes others) (wrapped : Bool)
    (aligned : Nat) (cursor : Cursor) :
    settings.layoutFurther wrapped aligned cursor attributes =
      settings.layoutFurther wrapped aligned cursor others := by
  induction hrespaced generalizing cursor with
  | nil => rfl
  | cons hattr _ ih =>
      simp only [layoutFurther, keepsBreakInTag_congr hattr.gap, layoutAttribute_congr hattr, ih]

theorem layoutAttributes_congr {attributes others : List Attribute}
    (hrespaced : List.Forall₂ (Attribute.Respaced settings) attributes others) (wrapped : Bool)
    (indent : Nat) (cursor : Cursor) :
    settings.layoutAttributes wrapped indent cursor attributes =
      settings.layoutAttributes wrapped indent cursor others := by
  cases hrespaced with
  | nil => rfl
  | cons hattr hrest =>
      simp only [layoutAttributes, keepsBreakInTag_congr hattr.gap, layoutAttribute_congr hattr,
        layoutFurther_congr hrest]

theorem restOfTagWidth_congr (hrespaced : tag.Respaced settings twin) :
    settings.restOfTagWidth tag = settings.restOfTagWidth twin := by
  have hwidths : ∀ {attributes others : List Attribute} (final : Nat),
      List.Forall₂ (Attribute.Respaced settings) attributes others →
        attributes.foldr (fun attr width => 1 + settings.attributeWidth attr + width) final =
          others.foldr (fun attr width => 1 + settings.attributeWidth attr + width) final := by
    intro attributes others final hall
    induction hall with
    | nil => rfl
    | @cons attr other _ _ hattr _ ih =>
        rw [List.foldr_cons, List.foldr_cons, ih, ← attributeWidth_tight settings attr, hattr.tight,
          attributeWidth_tight]
  rw [restOfTagWidth, restOfTagWidth, hrespaced.ending, hwidths _ hrespaced.attributes]

theorem tagWidth_congr (hrespaced : tag.Respaced settings twin) :
    settings.tagWidth tag = settings.tagWidth twin := by
  rw [tagWidth, tagWidth, hrespaced.name, restOfTagWidth_congr hrespaced]

theorem layoutStartTag_congr (hrespaced : tag.Respaced settings twin) (indent : Nat)
    (cursor : Cursor) :
    settings.layoutStartTag tag indent cursor = settings.layoutStartTag twin indent cursor := by
  have hgap : settings.tagEndGap tag indent = settings.tagEndGap twin indent := by
    rw [tagEndGap, tagEndGap, keepsBreakInTag_congr hrespaced.trailing, hrespaced.ending]
  simp only [layoutStartTag, hgap, hrespaced.name, hrespaced.ending, restOfTagWidth_congr hrespaced,
    layoutAttributes_congr hrespaced.attributes]

theorem contentOf_congr (hrespaced : tag.Respaced settings twin) :
    settings.contentOf tag = settings.contentOf twin := by
  rw [contentOf, contentOf, hrespaced.name, hrespaced.ending]

end Tag

/-! ## What an element begins with -/

/-- Inside an element that is not preserved, everything is the same but for the blanks. -/
theorem respacedAll_children {elem twin : Element} {children others : List Node}
    (hrespaced : Node.Respaced settings (.element elem children) (.element twin others))
    (hcontent : settings.contentOf elem.tag ≠ .verbatim) :
    elem.endTag.map EndTag.name = twin.endTag.map EndTag.name ∧
      Node.RespacedAll settings children others := by
  obtain ⟨-, -, hinside⟩ := hrespaced
  rwa [if_neg hcontent] at hinside

/-- Running texts with the same words begin with the same word, glued to what is in front of it or
not. -/
theorem leadingText_congr {first second : List Char}
    (hrespaced : (Run.ofText first).Respaced settings (Run.ofText second)) :
    (match Run.ofText first with
      | .words [] word _ _ => word.width
      | _ => 0) =
      match Run.ofText second with
      | .words [] word _ _ => word.width
      | _ => 0 := by
  have hwords := Run.wordList_eq_of_units hrespaced.units
  have hleading := hrespaced.leading.empty
  cases hfirst : Run.ofText first with
  | blank blanks =>
      cases hsecond : Run.ofText second with
      | blank others => rfl
      | words others word rest trailing => simp [hfirst, hsecond, Run.wordList] at hwords
  | words blanks word rest trailing =>
      cases hsecond : Run.ofText second with
      | blank others => simp [hfirst, hsecond, Run.wordList] at hwords
      | words others twin rest trailing =>
          rw [hfirst, hsecond] at hwords hleading
          obtain ⟨rfl, -⟩ := List.cons.inj hwords
          cases blanks with
          | nil => rw [show others = [] from hleading.mp rfl]
          | cons c more =>
              cases others with
              | nil => exact absurd (hleading.mpr rfl) (List.cons_ne_nil c more)
              | cons d most => rfl

theorem leadingWidth_congr (depth : Nat) {tag twin : StartTag} {children others : List Node}
    (htag : tag.Respaced settings twin)
    (hchildren : settings.preserves tag.name = false → Node.RespacedAll settings children others) :
    settings.leadingWidth depth tag children = settings.leadingWidth depth twin others := by
  induction depth generalizing tag twin children others with
  | zero => exact tagWidth_congr htag
  | succ depth ih =>
      unfold leadingWidth
      rw [tagWidth_congr htag, ← htag.name]
      cases hopen : settings.preserves tag.name with
      | true => rfl
      | false =>
          simp only [Bool.false_eq_true, if_false]
          have hall := hchildren hopen
          cases children with
          | nil =>
              cases others with
              | nil => rfl
              | cons node rest => exact absurd hall id
          | cons node rest =>
              cases others with
              | nil => exact absurd hall id
              | cons other more =>
                  have hnode := hall.1
                  cases node with
                  | leaf leaf =>
                      cases other with
                      | leaf other =>
                          simp only [← hnode.kind]
                          split
                          next hkind =>
                            exact congrArg (settings.tagWidth twin + ·)
                              (leadingText_congr (hnode.words hkind))
                          next => rfl
                      | element other inner => exact absurd hnode id
                  | element child inner =>
                      cases other with
                      | leaf other => exact absurd hnode id
                      | element other within =>
                          have hsame := hnode.2.1
                          have hname : child.name = other.name := hsame.name
                          have hinner := ih hsame fun hopen =>
                            (respacedAll_children hnode (contentOf_ne_verbatim hopen)).2
                          simp only [hname, hinner]

end Settings

/-! ## Planning -/

/-- Stages of planning that are the same but for the blanks that wait for the next item. -/
structure Progress.Matches (settings : Settings) (first second : Progress) : Prop where
  draft : first.draft = second.draft
  flow : first.flow = second.flow
  blanks : settings.SameBlanks first.blanks second.blanks

/-- Contents of elements that are laid out the same, but for the blanks that are left over. -/
structure Body.Matches (settings : Settings) (first second : Body) : Prop where
  endTag : first.endTag = second.endTag
  blanks : settings.SameBlanks first.blanks second.blanks
  broken : first.broken = second.broken
  draft : first.draft = second.draft

namespace Settings

variable {settings : Settings} {first second : Progress}

theorem matches_layoutAtom (hkeep : settings.keepWhitespaces = false) {leaf other : Leaf}
    (hid : leaf.id = other.id) (hraw : leaf.raw = other.raw)
    (hmatches : first.Matches settings second) (hfree : first.draft.cursor.anchored = false)
    (kind : Following) :
    Progress.Matches settings (settings.layoutAtom leaf kind first)
      (settings.layoutAtom other kind second) := by
  obtain ⟨draft, flow, blanks⟩ := first
  obtain ⟨_, _, others⟩ := second
  obtain ⟨rfl, rfl, hblanks⟩ := hmatches
  simp only [layoutAtom, hid, hraw, separate_congr hkeep hblanks hfree]
  exact ⟨rfl, rfl, .refl _⟩

/-- Words and the gaps in front of them are two lists of their own. -/
theorem map_width_eq_zip (rest : List (List Char × Word)) :
    (rest.map fun (blanks, word) => (blanks, word.width)) =
      (rest.map (·.1)).zip ((rest.map (·.2)).map Word.width) := by
  rw [List.map_map, List.zip_map']
  rfl

theorem matches_layoutText (hkeep : settings.keepWhitespaces = false) {leaf other : Leaf}
    (hid : leaf.id = other.id)
    (hrespaced : (Run.ofText leaf.raw).Respaced settings (Run.ofText other.raw))
    (hmatches : first.Matches settings second) (hfree : first.draft.cursor.anchored = false) :
    Progress.Matches settings (settings.layoutText leaf first)
      (settings.layoutText other second) := by
  obtain ⟨draft, flow, blanks⟩ := first
  obtain ⟨_, _, others⟩ := second
  obtain ⟨rfl, rfl, hblanks⟩ := hmatches
  have hwords := Run.wordList_eq_of_units hrespaced.units
  have hleading := hrespaced.leading
  have hgaps := hrespaced.gaps
  have htrailing := hrespaced.trailing
  unfold layoutText
  cases hfirst : Run.ofText leaf.raw with
  | blank leading =>
      cases hsecond : Run.ofText other.raw with
      | blank more =>
          rw [hfirst, hsecond] at hleading
          simp only [hid]
          exact ⟨rfl, rfl, hblanks.append hleading⟩
      | words more word rest trailing => simp [hfirst, hsecond, Run.wordList] at hwords
  | words leading word rest trailing =>
      cases hsecond : Run.ofText other.raw with
      | blank more => simp [hfirst, hsecond, Run.wordList] at hwords
      | words more twin others trailing' =>
          rw [hfirst, hsecond] at hwords hleading hgaps htrailing
          obtain ⟨rfl, hrest⟩ := List.cons.inj hwords
          have hblanks : settings.SameBlanks (blanks ++ leading) (_ ++ more) :=
            hblanks.append hleading
          have hgaps : List.Forall₂ settings.SameBlanks (rest.map (·.1)) (others.map (·.1)) := hgaps
          simp only [hid, separate_congr hkeep hblanks hfree, map_width_eq_zip, layoutWords_eq_fill,
            hrest, fill_congr hkeep _ _ hgaps]
          exact ⟨rfl, rfl, htrailing⟩

theorem matches_layoutLeaf (hkeep : settings.keepWhitespaces = false) {leaf other : Leaf}
    (hrespaced : leaf.Respaced settings other) (hmatches : first.Matches settings second)
    (hfree : first.draft.cursor.anchored = false) :
    Progress.Matches settings (settings.layoutLeaf leaf first)
      (settings.layoutLeaf other second) := by
  have hatom :=
    fun hkind => matches_layoutAtom hkeep hrespaced.id (hrespaced.raw hkind) hmatches hfree
  unfold layoutLeaf
  rw [← hrespaced.kind]
  cases hkind : leaf.kind with
  | text => exact matches_layoutText hkeep hrespaced.id (hrespaced.words hkind) hmatches hfree
  | comment => exact hatom (by simp [hkind]) _
  | verbatim => exact hatom (by simp [hkind]) _
  | doctype => exact hatom (by simp [hkind]) _

theorem layoutHeading_congr (hkeep : settings.keepWhitespaces = false) {tag twin : StartTag}
    {children others : List Node} (htag : tag.Respaced settings twin)
    (hchildren : settings.preserves tag.name = false → Node.RespacedAll settings children others)
    (hmatches : first.Matches settings second) (hfree : first.draft.cursor.anchored = false) :
    settings.layoutHeading tag children first = settings.layoutHeading twin others second := by
  obtain ⟨draft, flow, blanks⟩ := first
  obtain ⟨_, _, others⟩ := second
  obtain ⟨rfl, rfl, hblanks⟩ := hmatches
  simp only [layoutHeading, htag.name, leadingWidth_congr lookahead htag hchildren,
    layoutStartTag_congr htag, separate_congr hkeep hblanks hfree]

theorem matches_layoutEnding (hkeep : settings.keepWhitespaces = false) (heading : Heading)
    {endTag other : Option EndTag} (hname : endTag.map EndTag.name = other.map EndTag.name)
    (hmatches : first.Matches settings second) :
    Body.Matches settings (settings.layoutEnding heading endTag first)
      (settings.layoutEnding heading other second) := by
  obtain ⟨draft, flow, blanks⟩ := first
  obtain ⟨_, _, others⟩ := second
  obtain ⟨rfl, rfl, hblanks⟩ := hmatches
  cases endTag with
  | none =>
      cases other with
      | none => exact ⟨rfl, hblanks, rfl, rfl⟩
      | some twin => cases hname
  | some tag =>
      cases other with
      | none => cases hname
      | some twin =>
          have hsame : tag.name = twin.name := Option.some.inj hname
          simp only [layoutEnding, hsame, closingGap_congr hkeep hblanks]
          exact ⟨rfl, .refl _, rfl, rfl⟩

theorem matches_layoutBody (id : Nat) (name : List Char) {heading : Heading}
    {content other : Nat → Draft → Body} (hfree : heading.draft.cursor.anchored = false)
    (hcontent : ∀ indent (draft : Draft), draft.cursor.anchored = false →
      Body.Matches settings (content indent draft) (other indent draft)) :
    Body.Matches settings (settings.layoutBody id name heading content)
      (settings.layoutBody id name heading other) := by
  have htrial := hcontent (heading.indent + settings.indentSize) heading.draft hfree
  unfold layoutBody
  dsimp only
  split
  next =>
    split
    next => exact htrial
    next => exact hcontent _ _ hfree
    next =>
      rw [htrial.draft]
      split
      next => exact ⟨htrial.endTag, htrial.blanks, htrial.broken, rfl⟩
      next => exact hcontent heading.indent { heading.draft with short := _ } hfree
  next => exact hcontent _ _ hfree

theorem matches_finishElement (id : Nat) (heading : Heading) (content : Content) {body other : Body}
    (hmatches : body.Matches settings other) :
    Progress.Matches settings (finishElement id heading content body)
      (finishElement id heading content other) := by
  obtain ⟨endTag, blanks, broken, draft⟩ := body
  obtain ⟨_, others, _, _⟩ := other
  obtain ⟨rfl, hblanks, rfl, rfl⟩ := hmatches
  exact ⟨rfl, rfl, hblanks⟩

mutual

theorem matches_layoutNode (hkeep : settings.keepWhitespaces = false) {node other : Node}
    (hrespaced : Node.Respaced settings node other) {first second : Progress}
    (hmatches : first.Matches settings second) (hfree : first.draft.cursor.anchored = false) :
    Progress.Matches settings (settings.layoutNode node first)
      (settings.layoutNode other second) := by
  cases node with
  | leaf leaf =>
      cases other with
      | leaf other =>
          rw [layoutNode, layoutNode]
          exact matches_layoutLeaf hkeep hrespaced hmatches hfree
      | element twin others => exact absurd hrespaced id
  | element elem children =>
      cases other with
      | leaf other => exact absurd hrespaced id
      | element twin others =>
          obtain ⟨hid, htag, hinside⟩ := id hrespaced
          have hname : elem.name = twin.name := htag.name
          have hheading := layoutHeading_congr hkeep htag (fun hopen =>
            (respacedAll_children hrespaced (contentOf_ne_verbatim hopen)).2) hmatches hfree
          have hbehind := (settings.ahead_layoutHeading elem.tag children first).anchored hfree
          rw [layoutNode, layoutNode, ← contentOf_congr htag, ← hheading, ← hid, ← hname]
          generalize settings.layoutHeading elem.tag children first = heading at hbehind
          cases hcontent : settings.contentOf elem.tag with
          | empty => exact matches_finishElement _ _ _ ⟨rfl, .refl _, rfl, rfl⟩
          | verbatim =>
              rw [if_pos hcontent] at hinside
              obtain ⟨hkept, hleft⟩ := hinside
              simp only [hkept]
              exact matches_finishElement _ _ _ ⟨rfl, hleft, rfl, rfl⟩
          | formatted =>
              obtain ⟨hended, hchildren⟩ := respacedAll_children hrespaced (by simp [hcontent])
              refine matches_finishElement _ _ _ (matches_layoutBody _ _ hbehind ?_)
              intro indent draft hdraft
              exact matches_layoutEnding hkeep heading hended
                (matches_layoutNodes hkeep hchildren ⟨rfl, rfl, .refl _⟩ hdraft)

/-- Nodes that are the same but for their blanks are laid out the same. -/
theorem matches_layoutNodes (hkeep : settings.keepWhitespaces = false) {nodes others : List Node}
    (hrespaced : Node.RespacedAll settings nodes others) {first second : Progress}
    (hmatches : first.Matches settings second) (hfree : first.draft.cursor.anchored = false) :
    Progress.Matches settings (settings.layoutNodes nodes first)
      (settings.layoutNodes others second) := by
  cases nodes with
  | nil =>
      cases others with
      | nil => exact hmatches
      | cons other more => exact absurd hrespaced id
  | cons node rest =>
      cases others with
      | nil => exact absurd hrespaced id
      | cons other more =>
          rw [layoutNodes, layoutNodes]
          exact matches_layoutNodes hkeep hrespaced.2
            (matches_layoutNode hkeep hrespaced.1 hmatches hfree)
            ((settings.ahead_layoutNode node first).anchored hfree)

end

/-- Where blanks are not kept, documents that are the same but for their blanks get the same
plan. -/
theorem layoutDocument_congr (hkeep : settings.keepWhitespaces = false) {document other : Document}
    (hrespaced : document.Respaced settings other) :
    settings.layoutDocument document = settings.layoutDocument other := by
  have hmatches := matches_layoutNodes hkeep hrespaced.children
    (⟨rfl, rfl, .refl _⟩ : Progress.Matches settings
      ⟨Draft.start .origin document.count, Flow.start 0 (.start false), []⟩
      ⟨Draft.start .origin document.count, Flow.start 0 (.start false), []⟩) rfl
  rw [layoutDocument, layoutDocument, ← hrespaced.count]
  simp only [hmatches.draft, finalGap_congr hkeep hmatches.blanks]

end Settings

end Markup
