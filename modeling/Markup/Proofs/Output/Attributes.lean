import Markup.Proofs.Output.Margin
import Markup.Proofs.Plan.OnePass
import Markup.Proofs.Tag.Requoting

/-!
# How attributes are laid out

A start tag goes on one line or on several, and which of the two is decided in front of its first
attribute, from the width that the tag would have on one line. Attributes that begin a line all
begin at one column: behind the name of the element, if attributes are aligned and the first one
stays on its line, and at the continuation indent otherwise. The width is foretold from the parts of
the tag, with the quotes that its values will have and nothing around the equals signs, and comes
out as it was foretold wherever no line is broken. Main statement:
`Settings.layoutStartTag_of_parse`.
-/

namespace Markup

open Markup.Text

namespace Settings

variable (settings : Settings)

/-! ## The tag on one line -/

/-- A start tag on one line, its values quoted as they will be. -/
def oneLine (tag : StartTag) : List Char :=
  (tag.laid (tag.attributes.map settings.onLine)
    (if tag.ending = .selfClosing && settings.spaceInsideEmptyTag then .space else .nothing)).text

/-- A start tag on one line is as long as it is foretold to be. -/
theorem length_oneLine (tag : StartTag) :
    (settings.oneLine tag).length = settings.tagWidth tag := by
  have hattributes := length_attributes (settings.lays_map_onLine tag.attributes)
    (by simp [onLine, Regular]) (by simp [onLine, Gap.breaksLine]) (settings.endingWidth tag.ending)
  have hending : (Gap.text (if tag.ending = .selfClosing && settings.spaceInsideEmptyTag
      then .space else .nothing)).length + tag.ending.text.length =
        settings.endingWidth tag.ending := by
    cases tag.ending <;> cases hinside : settings.spaceInsideEmptyTag <;>
      simp [endingWidth, Ending.text, Gap.text, hinside]
  rw [tagWidth, restOfTagWidth, ← hattributes]
  simp only [oneLine, StartTag.text, StartTag.body, StartTag.laid, List.length_cons,
    List.length_append]
  omega

/-! ## Where attributes go -/

/-- Whether a start tag would go over the margin on one line. -/
def tagOverflows (tag : StartTag) (cursor : Cursor) : Bool :=
  decide (settings.rightMargin < cursor.column + settings.tagWidth tag)

/-- Whether the attribute at an index begins a line. -/
def breaksAttribute (tag : StartTag) (cursor : Cursor) (index : Nat) (attr : Attribute) : Bool :=
  settings.keepsBreakInTag attr.gap ||
    decide (0 < index) && settings.wrapsAttributes (settings.tagOverflows tag cursor)

/-- The column that attributes on lines of their own begin at. -/
def alignment (tag : StartTag) (indent : Nat) (cursor : Cursor) : Nat :=
  if settings.alignAttributes &&
    !(tag.attributes.head?.any fun attr => settings.keepsBreakInTag attr.gap)
  then cursor.column + (1 + tag.name.length) + 1
  else indent + settings.continuationIndentSize

theorem layoutFurther_eq_map (wrapped : Bool) (aligned : Nat) (cursor : Cursor)
    (attributes : List Attribute) :
    (settings.layoutFurther wrapped aligned cursor attributes).1 = attributes.map fun attr =>
      ⟨attributeGap (settings.keepsBreakInTag attr.gap || wrapped) aligned,
        settings.quoteFor attr⟩ := by
  induction attributes generalizing cursor with
  | nil => rfl
  | cons attr rest ih =>
      rw [layoutFurther, List.map_cons, ← ih]
      rfl

/-- The layout of the attribute at an index. -/
theorem getElem?_layoutStartTag (tag : StartTag) (indent : Nat) (cursor : Cursor) (index : Nat) :
    (settings.layoutStartTag tag indent cursor).1[index]? = tag.attributes[index]?.map fun attr =>
      ⟨attributeGap (settings.breaksAttribute tag cursor index attr)
        (settings.alignment tag indent cursor), settings.quoteFor attr⟩ := by
  have hoverflow : decide (settings.rightMargin < (cursor.place (1 + tag.name.length)).column +
      settings.restOfTagWidth tag) = settings.tagOverflows tag cursor := by
    simp only [tagOverflows, tagWidth, Cursor.place, Nat.add_assoc]
  unfold layoutStartTag alignment breaksAttribute
  dsimp only
  rw [hoverflow]
  cases tag.attributes with
  | nil => rfl
  | cons attr rest =>
      simp only [layoutAttributes, layoutFurther_eq_map]
      cases index with
      | zero => simp [layoutAttribute, Cursor.place]
      | succ index => simp [Cursor.place]

theorem mem_layoutStartTag {tag : StartTag} {indent : Nat} {cursor : Cursor}
    {layout : AttributeLayout} (hmem : layout ∈ (settings.layoutStartTag tag indent cursor).1) :
    ∃ broken, layout.gap = attributeGap broken (settings.alignment tag indent cursor) := by
  obtain ⟨index, hindex⟩ := List.mem_iff_getElem?.mp hmem
  rw [getElem?_layoutStartTag] at hindex
  obtain ⟨attr, -, rfl⟩ := Option.map_eq_some_iff.mp hindex
  exact ⟨_, rfl⟩

theorem breaksLine_attributeGap (broken : Bool) (aligned : Nat) :
    (attributeGap broken aligned).breaksLine = broken := by
  cases broken <;> rfl

theorem breaksAttribute_iff {tag : StartTag} {cursor : Cursor} {index : Nat} {attr : Attribute} :
    settings.breaksAttribute tag cursor index attr = true ↔
      ('\n' ∈ attr.gap ∧ (settings.keepLineBreaks = true ∨ settings.attributeWrap = .never)) ∨
      (0 < index ∧ (settings.attributeWrap = .always ∨ settings.attributeWrap = .asNeeded ∧
        settings.rightMargin < cursor.column + (settings.oneLine tag).length)) := by
  rw [length_oneLine]
  unfold breaksAttribute keepsBreakInTag wrapsAttributes tagOverflows
  cases settings.attributeWrap <;> simp

/-- The column that broken attributes begin at is that of the first name, where the first one is not
broken. -/
theorem alignment_eq {tag : StartTag} {indent : Nat} {cursor : Cursor} (hname : '\n' ∉ tag.name)
    {first : AttributeLayout}
    (hfirst : (settings.layoutStartTag tag indent cursor).1.head? = some first) :
    settings.alignment tag indent cursor =
      if settings.alignAttributes = true ∧ first.gap.breaksLine = false then
        columnAfter cursor.column ('<' :: (tag.name ++ first.gap.text))
      else indent + settings.continuationIndentSize := by
  rw [List.head?_eq_getElem?, getElem?_layoutStartTag] at hfirst
  obtain ⟨attr, hattr, rfl⟩ := Option.map_eq_some_iff.mp hfirst
  have hhead : tag.attributes.head? = some attr := by rw [List.head?_eq_getElem?, hattr]
  have hkept : settings.breaksAttribute tag cursor 0 attr = settings.keepsBreakInTag attr.gap := by
    simp [breaksAttribute]
  simp only [breaksLine_attributeGap, hkept]
  unfold alignment
  rw [hhead, Option.any_some]
  cases hbreaks : settings.keepsBreakInTag attr.gap with
  | true => simp
  | false =>
      have hcolumn : columnAfter cursor.column ('<' :: (tag.name ++ [' '])) =
          cursor.column + (1 + tag.name.length) + 1 := by
        rw [columnAfter_of_not_mem (by simp [hname])]
        simp only [List.length_cons, List.length_append, List.length_nil]
        omega
      simp [attributeGap, Gap.text, hcolumn]

/-- A tag that was not to be wrapped and is not broken ends within the margin. -/
theorem columnAfter_startTag_le {tag : StartTag} {indent : Nat} {cursor : Cursor}
    (hneeded : settings.attributeWrap = .asNeeded) (hseveral : 2 ≤ tag.attributes.length)
    (hattributes : ∀ layout ∈ (settings.layoutStartTag tag indent cursor).1,
      layout.gap.breaksLine = false)
    (htagEnd : (settings.layoutStartTag tag indent cursor).2.1.breaksLine = false) :
    columnAfter cursor.column (joinPieces (tag.pieces (settings.layoutStartTag tag indent cursor).1
      (settings.layoutStartTag tag indent cursor).2.1)) ≤ settings.rightMargin := by
  -- the second attribute would have been broken if the tag went over the margin
  have hsecond := settings.getElem?_layoutStartTag tag indent cursor 1
  rw [List.getElem?_eq_getElem (show 1 < tag.attributes.length from hseveral),
    Option.map_some] at hsecond
  have hunbroken := hattributes _ (List.mem_of_getElem? hsecond)
  rw [breaksLine_attributeGap, ← Bool.not_eq_true, breaksAttribute_iff, length_oneLine] at hunbroken
  have hfits : cursor.column + settings.tagWidth tag ≤ settings.rightMargin := by
    apply Nat.le_of_not_lt
    intro hover
    exact hunbroken (.inr ⟨Nat.zero_lt_one, .inr ⟨hneeded, hover⟩⟩)
  have hlength := settings.length_startTag hattributes htagEnd
  calc columnAfter cursor.column _ ≤ cursor.column + _ := columnAfter_le _ _
    _ = cursor.column + settings.tagWidth tag := by rw [hlength]
    _ ≤ settings.rightMargin := hfits

/-- How the attributes of an element are laid out, wherever its start tag begins. Those on lines of
their own stand at one column, one line feed in front of each. An attribute gets a line of its own
where the source has one that is kept, or where it is not the first and lines are wrapped: always,
or because the tag would go over the margin on one line. Where that was the reason not to wrap, the
tag does not go over the margin. -/
theorem layoutStartTag_of_parse {text : List Char} {document : Document} {elem : Element}
    {children : List Node} (hparse : parse text = .ok document)
    (hmem : .element elem children ∈ Node.preorderAll document.children) (indent : Nat)
    (cursor : Cursor) :
    let layouts := (settings.layoutStartTag elem.tag indent cursor).1
    let tagEnd := (settings.layoutStartTag elem.tag indent cursor).2.1
    let reached := columnAfter cursor.column (joinPieces (elem.tag.pieces layouts tagEnd))
    layouts.length = elem.tag.attributes.length ∧
    (∃ aligned, (∀ layout ∈ layouts, ∀ newlines column, layout.gap = .lineBreak newlines column →
        newlines = 1 ∧ column = aligned) ∧
      ∀ first ∈ layouts.head?, aligned =
        if settings.alignAttributes = true ∧ first.gap.breaksLine = false then
          columnAfter cursor.column ('<' :: (elem.name ++ first.gap.text))
        else indent + settings.continuationIndentSize) ∧
    (∀ index attr layout, elem.tag.attributes[index]? = some attr → layouts[index]? = some layout →
      (layout.gap.breaksLine = true ↔
        ('\n' ∈ attr.gap ∧ (settings.keepLineBreaks = true ∨ settings.attributeWrap = .never)) ∨
        (0 < index ∧ (settings.attributeWrap = .always ∨ settings.attributeWrap = .asNeeded ∧
          settings.rightMargin < cursor.column + (settings.oneLine elem.tag).length)))) ∧
    (settings.layoutStartTag elem.tag indent cursor).2.2.column = reached ∧
    (settings.attributeWrap = .asNeeded → 2 ≤ elem.tag.attributes.length →
      (∀ layout ∈ layouts, layout.gap.breaksLine = false) → tagEnd.breaksLine = false →
        reached ≤ settings.rightMargin) := by
  intro layouts tagEnd reached
  have hsound : Node.Sound (.element elem children) :=
    (Document.sound_of_parse hparse).of_mem_preorderAll hmem
  have hname := hsound.1.newline_not_mem
  refine ⟨(settings.lays_layoutStartTag elem.tag indent cursor).length_eq.symm,
    ⟨settings.alignment elem.tag indent cursor, ?_, ?_⟩, ?_, ?_, ?_⟩
  · intro layout hlayout newlines column hgap
    obtain ⟨broken, hbroken⟩ := settings.mem_layoutStartTag hlayout
    rw [hgap] at hbroken
    cases broken with
    | true =>
        obtain ⟨rfl, rfl⟩ := Gap.lineBreak.inj hbroken
        exact ⟨rfl, rfl⟩
    | false => cases hbroken
  · intro first hfirst
    exact settings.alignment_eq hname hfirst
  · intro index attr layout hattr hlayout
    rw [getElem?_layoutStartTag, hattr] at hlayout
    obtain rfl := Option.some.inj hlayout
    rw [breaksLine_attributeGap]
    exact settings.breaksAttribute_iff
  · have hpasses := settings.passes_layoutStartTag hname indent cursor
    rw [layTag, ← StartTag.joinPieces_pieces] at hpasses
    exact hpasses.column
  · exact settings.columnAfter_startTag_le

/-- Two attributes that do not fit on a line of twelve columns. -/
theorem layoutStartTag_of_parse_wrapped :
    let text := "<a bb=\"c\" dd=\"e\">".toList
    let settings : Settings := { rightMargin := 12 }
    let quoted (name value : List Char) : Attribute :=
      ⟨[' '], name, some ⟨['='], value, some .double⟩⟩
    let elem : Element :=
      ⟨0, ⟨['a'], [quoted "bb".toList ['c'], quoted "dd".toList ['e']], [], .plain⟩, none,
        ⟨0, 17⟩, ⟨17, 17⟩⟩
    let layouts : List AttributeLayout := [⟨.space, some .double⟩, ⟨.lineBreak 1 3, some .double⟩]
    ∃ document, parse text = .ok document ∧
      .element elem [] ∈ Node.preorderAll document.children ∧
      (settings.layoutStartTag elem.tag 0 .origin).1 = layouts ∧
      columnAfter 0 ('<' :: (elem.name ++ Gap.text .space)) = 3 ∧
      settings.rightMargin < (settings.oneLine elem.tag).length := by
  intro text settings quoted elem layouts
  have hparse : parse text = .ok ⟨text, [.element elem []], 1, []⟩ := by
    with_unfolding_all rfl
  have hmem : .element elem [] ∈ Node.preorderAll [.element elem []] := by
    simp [Node.preorderAll, Node.preorder]
  have hlayouts : (settings.layoutStartTag elem.tag 0 .origin).1 = layouts := by decide
  obtain ⟨-, ⟨aligned, hbreaks, hfirst⟩, hbroken, -⟩ :=
    settings.layoutStartTag_of_parse hparse hmem 0 .origin
  rw [hlayouts] at hbreaks hfirst hbroken
  obtain ⟨-, hcolumn⟩ := hbreaks ⟨.lineBreak 1 3, some .double⟩ (by simp [layouts]) 1 3 rfl
  have haligned : aligned = columnAfter 0 ('<' :: (elem.name ++ Gap.text .space)) :=
    hfirst ⟨.space, some .double⟩ rfl
  have hover := (hbroken 1 (quoted "dd".toList ['e']) ⟨.lineBreak 1 3, some .double⟩ rfl rfl).mp rfl
  refine ⟨_, hparse, hmem, hlayouts, haligned.symm.trans hcolumn.symm, ?_⟩
  simpa [quoted, settings, Cursor.origin] using hover

end Settings

end Markup
