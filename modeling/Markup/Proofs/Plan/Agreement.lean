import Markup.Proofs.Output.RoundTrip
import Markup.Proofs.Plan.Arrangement

/-!
# Planning agrees with arranging

Nodes are laid out by decisions about them, some of them more than once, and are written by those
decisions. What is written in the end is the outline of the nodes, arranged, if every element is
noted to be short that is not known to be too tall. Main statement: `Settings.agrees_layoutNodes`.
-/

namespace Markup

open Markup.Text

/-! ## What is known of elements -/

namespace Draft

/-- Between two drafts only what is decided about these nodes and known of them has changed, and
there is room for as much as before. -/
structure Keeps (ids : List Nat) (before after : Draft) : Prop where
  plan : ∀ id, id ∉ ids → after.plan.get? id = before.plan.get? id
  short : ∀ id, id ∉ ids → after.short? id = before.short? id
  measured : after.short.size = before.short.size
  decided : after.plan.decisions.size = before.plan.decisions.size

variable {ids others : List Nat} {before between after : Draft}

theorem Keeps.refl (draft : Draft) : Keeps ids draft draft :=
  ⟨fun _ _ => rfl, fun _ _ => rfl, rfl, rfl⟩

theorem Keeps.trans (hfirst : Keeps ids before between) (hsecond : Keeps others between after) :
    Keeps (ids ++ others) before after := by
  have hparts : ∀ id, id ∉ ids ++ others → id ∉ ids ∧ id ∉ others := fun id hmem => by
    simpa [not_or] using hmem
  exact ⟨fun id hmem => (hsecond.plan id (hparts id hmem).2).trans
    (hfirst.plan id (hparts id hmem).1), fun id hmem =>
      (hsecond.short id (hparts id hmem).2).trans (hfirst.short id (hparts id hmem).1),
    hsecond.measured.trans hfirst.measured, hsecond.decided.trans hfirst.decided⟩

theorem Keeps.mono (hkeeps : Keeps ids before after) (hsub : ids ⊆ others) :
    Keeps others before after :=
  ⟨fun id hmem => hkeeps.plan id fun hin => hmem (hsub hin),
    fun id hmem => hkeeps.short id fun hin => hmem (hsub hin), hkeeps.measured, hkeeps.decided⟩

theorem Keeps.moveTo (hkeeps : Keeps ids before after) (cursor : Cursor) :
    Keeps ids before (after.moveTo cursor) :=
  ⟨hkeeps.plan, hkeeps.short, hkeeps.measured, hkeeps.decided⟩

theorem Keeps.decide (hkeeps : Keeps ids before after) {id : Nat} (hmem : id ∈ ids)
    (decision : Decision) : Keeps ids before (after.decide id decision) := by
  refine ⟨fun other hother => ?_, hkeeps.short, hkeeps.measured, ?_⟩
  · exact (Plan.get?_decide_of_ne (by rintro rfl; exact hother hmem) _).trans
      (hkeeps.plan other hother)
  · simpa [Draft.decide, Plan.decide] using hkeeps.decided

theorem short?_measure (draft : Draft) (id other : Nat) (fits : Bool) :
    (draft.measure id fits).short? other =
      if id = other ∧ id < draft.short.size then some fits else draft.short? other := by
  unfold measure short?
  rw [Array.getElem?_setIfInBounds]
  split
  next heq =>
    subst heq
    split
    next hlt => simp [hlt]
    next hlt => simp [hlt]
  next heq => simp [heq]

end Draft

namespace Settings

variable (settings : Settings)

open Draft (Keeps)

theorem keeps_layoutLeaf (leaf : Leaf) (progress : Progress) :
    Keeps [leaf.id] progress.draft (settings.layoutLeaf leaf progress).draft := by
  have hatom : ∀ kind, Keeps [leaf.id] progress.draft
      (settings.layoutAtom leaf kind progress).draft := fun kind =>
    ((Keeps.refl progress.draft).moveTo _).decide List.mem_cons_self _
  unfold layoutLeaf
  split
  next =>
    unfold layoutText
    split
    next => exact (Keeps.refl progress.draft).decide List.mem_cons_self _
    next => exact ((Keeps.refl progress.draft).moveTo _).decide List.mem_cons_self _
  next => exact hatom _
  next => exact hatom _
  next => exact hatom _

end Settings

/-- Two layouts of the content of an element that differ at most in what is known of other
elements. -/
structure Body.SameIn (ids : List Nat) (body other : Body) : Prop where
  endTag : body.endTag = other.endTag
  blanks : body.blanks = other.blanks
  broken : body.broken = other.broken
  cursor : body.draft.cursor = other.draft.cursor
  plan : body.draft.plan = other.draft.plan
  short : ∀ id ∈ ids, body.draft.short? id = other.draft.short? id

theorem Body.SameIn.refl (ids : List Nat) (body : Body) : Body.SameIn ids body body :=
  ⟨rfl, rfl, rfl, rfl, rfl, fun _ _ => rfl⟩

namespace Settings

variable (settings : Settings)

open Draft (Keeps)

/-- The indent of the content of an element, given whether it is short. -/
def bodyIndent (heading : Heading) (short : Bool) (name : List Char) : Nat :=
  if (heading.ownLine || heading.block) && !settings.doesNotIndentChildrenOf name &&
      (settings.heightLimit == 0 || short) then
    heading.indent + settings.indentSize
  else heading.indent

section Body

variable (id : Nat) (name : List Char) (heading : Heading) {ids : List Nat}
  {content : Nat → Draft → Body}

/-- Laying out the content of an element, be it twice, changes only what is known of the element and
of those inside it. -/
theorem keeps_layoutBody (hkeeps : ∀ indent draft, Keeps ids draft (content indent draft).draft) :
    Keeps (id :: ids) heading.draft (settings.layoutBody id name heading content).draft := by
  have hthrough : ∀ indent, Keeps (id :: ids) heading.draft (content indent heading.draft).draft :=
    fun indent => (hkeeps indent heading.draft).mono (List.subset_cons_self _ _)
  have hmeasure : ∀ indent fits, Keeps (id :: ids) heading.draft
      ((content indent heading.draft).draft.measure id fits) := by
    intro indent fits
    refine ⟨(hthrough indent).plan, fun other hmem => ?_, ?_, (hkeeps indent heading.draft).decided⟩
    · rw [Draft.short?_measure, if_neg fun hand => hmem (by simp [hand.1])]
      exact (hthrough indent).short other hmem
    · simpa [Draft.measure] using (hkeeps indent heading.draft).measured
  unfold layoutBody
  dsimp only
  split
  next =>
    split
    next => exact hthrough _
    next => exact hthrough _
    next =>
      split
      next => exact hmeasure _ _
      next =>
        generalize hfits : Nat.blt _ _ = fits
        have hmeasured := hmeasure (heading.indent + settings.indentSize) fits
        refine ⟨fun other hmem => ?_, fun other hmem => ?_, ?_, (hkeeps _ _).decided⟩
        · exact (hkeeps _ _).plan other fun hin => hmem (List.mem_cons_of_mem _ hin)
        · rw [(hkeeps _ _).short other fun hin => hmem (List.mem_cons_of_mem _ hin)]
          exact hmeasured.short other hmem
        · exact (hkeeps _ _).measured.trans hmeasured.measured
  next => exact hthrough _

/-- The content of an element is laid out at the indent that its height allows, as far as the height
is known in the end. -/
theorem layoutBody_sameIn (hkeeps : ∀ indent draft, Keeps ids draft (content indent draft).draft)
    (hfresh : id ∉ ids) (hroom : id < heading.draft.short.size) {short : Bool}
    (hshort : settings.heightLimit ≠ 0 → ∀ fits,
      (settings.layoutBody id name heading content).draft.short? id = some fits → short = fits) :
    ∃ draft : Draft, draft.cursor = heading.draft.cursor ∧ draft.plan = heading.draft.plan ∧
      draft.short.size = heading.draft.short.size ∧
        Body.SameIn ids (settings.layoutBody id name heading content)
          (content (settings.bodyIndent heading short name) draft) := by
  have hown : ∀ indent draft, (content indent draft).draft.short? id = draft.short? id :=
    fun indent draft => (hkeeps indent draft).short id hfresh
  have hmeasured : ∀ indent fits,
      ((content indent heading.draft).draft.measure id fits).short? id = some fits := by
    intro indent fits
    rw [Draft.short?_measure, if_pos ⟨rfl, by rwa [(hkeeps indent heading.draft).measured]⟩]
  unfold layoutBody at hshort ⊢
  unfold bodyIndent
  dsimp only at hshort ⊢
  split at hshort
  next hindents =>
    simp only [hindents, Bool.true_and, if_true]
    split at hshort
    next hknown =>
      have hindented : (settings.heightLimit == 0 || short) = true := by
        unfold isShort? at hknown
        split at hknown
        next hlimit => simp [hlimit]
        next hlimit => simp [hshort hlimit true ((hown _ _).trans hknown)]
      rw [hindented]
      exact ⟨heading.draft, rfl, rfl, rfl, .refl _ _⟩
    next hknown =>
      have hflush : (settings.heightLimit == 0 || short) = false := by
        unfold isShort? at hknown
        split at hknown
        next hlimit => simp at hknown
        next hlimit => simp [hlimit, hshort hlimit false ((hown _ _).trans hknown)]
      rw [hflush]
      exact ⟨heading.draft, rfl, rfl, rfl, .refl _ _⟩
    next hknown =>
      have hlimit : settings.heightLimit ≠ 0 := by
        intro hzero
        simp [isShort?, hzero] at hknown
      split at hshort
      next hfits =>
        have hindented : (settings.heightLimit == 0 || short) = true := by
          simp [hshort hlimit true (by rw [hfits]; exact hmeasured _ _)]
        rw [if_pos hfits, hindented]
        refine ⟨heading.draft, rfl, rfl, rfl, ⟨rfl, rfl, rfl, rfl, rfl, fun other hmem => ?_⟩⟩
        refine (Draft.short?_measure _ id other _).trans (if_neg ?_)
        rintro ⟨rfl, -⟩
        exact hfresh hmem
      next hfits =>
        have hflush : (settings.heightLimit == 0 || short) = false := by
          simp only [Bool.not_eq_true] at hfits
          refine Bool.or_eq_false_iff.mpr ⟨by simp [hlimit], hshort hlimit false ?_⟩
          rw [hown, hfits]
          exact hmeasured _ _
        rw [if_neg hfits, hflush]
        rw [if_neg Bool.false_ne_true]
        refine ⟨_, ?_, ?_, ?_, .refl _ _⟩
        · rfl
        · rfl
        · simpa [Draft.measure] using (hkeeps _ heading.draft).measured
  next hindents =>
    simp only [Bool.not_eq_true] at hindents
    simp only [hindents, Bool.false_and, Bool.false_eq_true, if_false]
    exact ⟨heading.draft, rfl, rfl, rfl, .refl _ _⟩

end Body

theorem keeps_layoutEnding {ids : List Nat} {draft : Draft} (heading : Heading)
    (endTag : Option EndTag) {inner : Progress} (hinner : Keeps ids draft inner.draft) :
    Keeps ids draft (settings.layoutEnding heading endTag inner).draft := by
  cases endTag with
  | none => exact hinner
  | some tag => exact hinner.moveTo _

mutual

theorem keeps_layoutNode (node : Node) (progress : Progress) :
    Keeps node.ids progress.draft (settings.layoutNode node progress).draft := by
  cases node with
  | leaf leaf =>
      rw [layoutNode]
      exact settings.keeps_layoutLeaf leaf progress
  | element elem children =>
      have hheading : Keeps (elem.id :: Node.idsOfAll children) progress.draft
          (settings.layoutHeading elem.tag children progress).draft :=
        (Keeps.refl progress.draft).moveTo _
      rw [layoutNode, Node.ids_element]
      cases settings.contentOf elem.tag with
      | empty => exact hheading.decide List.mem_cons_self _
      | verbatim => exact (hheading.moveTo _).decide List.mem_cons_self _
      | formatted =>
          have hbody := settings.keeps_layoutBody elem.id elem.name
            (settings.layoutHeading elem.tag children progress) fun indent draft =>
              settings.keeps_layoutEnding (settings.layoutHeading elem.tag children progress)
                elem.endTag (keeps_layoutNodes children ⟨draft, Flow.start indent
                  (.start (settings.layoutHeading elem.tag children progress).block), []⟩)
          exact ((hheading.trans hbody).mono (by simp)).decide List.mem_cons_self _

theorem keeps_layoutNodes (nodes : List Node) (progress : Progress) :
    Keeps (Node.idsOfAll nodes) progress.draft (settings.layoutNodes nodes progress).draft := by
  cases nodes with
  | nil =>
      rw [layoutNodes]
      exact .refl _
  | cons node rest =>
      rw [layoutNodes]
      exact (keeps_layoutNode node progress).trans (keeps_layoutNodes rest _)

end

end Settings

/-! ## The leading part of an element -/

namespace Item

/-- The blanks in front of an item. -/
def before : Item → List Char
  | words before _ _ => before
  | leaf before _ _ => before
  | rawText before _ _ _ => before
  | element _ before _ _ _ => before

end Item

theorem Settings.leadingItems_of_apart (settings : Settings) (depth : Nat) (tag : StartTag)
    {items : List Item} (hapart : ∀ item ∈ items.head?, item.before ≠ []) :
    settings.leadingItems depth tag items = settings.tagWidth tag := by
  cases depth with
  | zero => rfl
  | succ depth =>
      unfold leadingItems
      split
      next => rfl
      next =>
        split
        next => exact absurd rfl (hapart _ rfl)
        next => exact absurd rfl (hapart _ rfl)
        next => exact absurd rfl (hapart _ rfl)
        next => rfl

namespace Node

/-- Behind blanks, the first item has blanks in front of it. -/
theorem before_outlineAll (judge : Nat → Bool) (nodes : List Node) {pending : List Char}
    (hpending : pending ≠ []) :
    ∀ item ∈ (outlineAll judge nodes pending).1.head?, item.before ≠ [] := by
  induction nodes generalizing pending with
  | nil => simp [outlineAll]
  | cons node rest ih =>
      intro item hmem
      rw [outlineAll] at hmem
      cases node with
      | leaf piece =>
          rw [outline, Leaf.outline] at hmem
          split at hmem
          next =>
            split at hmem
            next leading _ => exact ih (by simp [hpending]) item hmem
            next =>
              obtain rfl := Option.some.inj hmem
              simp [Item.before, hpending]
          next =>
            obtain rfl := Option.some.inj hmem
            exact hpending
      | element elem children =>
          rw [outline] at hmem
          split at hmem
          next =>
            unfold Element.outlineRaw at hmem
            split at hmem <;> obtain rfl := Option.some.inj hmem <;> exact hpending
          next =>
            unfold Element.outline at hmem
            split at hmem <;> obtain rfl := Option.some.inj hmem <;> exact hpending

end Node

/-- The leading part of an element is as wide in the outline as in the tree. -/
theorem Settings.leadingItems_outlineAll (settings : Settings) (judge : Nat → Bool) (depth : Nat)
    (tag : StartTag) (children : List Node) (hlegible : Node.LegibleAll children) :
    settings.leadingItems depth tag (Node.outlineAll judge children []).1 =
      settings.leadingWidth depth tag children := by
  induction depth generalizing tag children with
  | zero => rfl
  | succ depth ih =>
      cases children with
      | nil => simp [leadingWidth, leadingItems, Node.outlineAll]
      | cons node rest =>
          rw [Node.outlineAll]
          cases node with
          | leaf piece =>
              obtain ⟨⟨hraw, -⟩, -⟩ := hlegible
              rw [Node.outline, Leaf.outline, leadingWidth]
              split
              next hkind =>
                have hsource := Run.source_ofText piece.raw
                simp only [hkind, if_true]
                split
                next leading hrun =>
                  have hleading : leading ≠ [] := by
                    rintro rfl
                    rw [hrun] at hsource
                    exact hraw hsource.symm
                  rw [List.nil_append, List.nil_append, leadingItems_of_apart _ _ _
                    (Node.before_outlineAll judge rest hleading)]
                  simp [hrun]
                next leading first others trailing hrun =>
                  cases leading with
                  | nil => simp [leadingItems, hrun, Word.width]
                  | cons c blanks => simp [leadingItems, hrun]
              next kind hkind =>
                have htext : piece.kind ≠ .text := hkind
                simp [leadingItems, htext]
          | element elem inner =>
              obtain ⟨⟨-, hinner⟩, -⟩ := hlegible
              rw [Node.outline, leadingWidth]
              split
              next hraw =>
                have hpreserves : settings.preserves elem.tag.name = true := by
                  simp only [StartTag.takesRawText, Bool.and_eq_true] at hraw
                  simp [preserves, hraw.2]
                have hwidth : settings.leadingWidth depth elem.tag inner =
                    settings.tagWidth elem.tag := by
                  cases depth <;> simp [leadingWidth, hpreserves]
                unfold Element.outlineRaw
                split <;> simp [leadingItems, hwidth, Element.name]
              next hplain =>
                rw [if_neg hplain] at hinner
                have hwidth := ih elem.tag inner hinner.2
                unfold Element.outline
                split
                next =>
                  simp only [leadingItems, List.singleton_append, hwidth, Element.name]
                  rfl
                next =>
                  simp only [leadingItems, List.singleton_append, hwidth, Element.name]
                  rfl

/-! ## Headings -/

/-- The start of an element is laid out as it is arranged. -/
structure Heading.Shows (heading : Heading) (front : Front) (tag : StartTag) (draft : Draft) :
    Prop where
  before : heading.before = front.before
  indent : heading.indent = front.indent
  ownLine : heading.ownLine = front.ownLine
  block : heading.block = front.block
  attributes : heading.attributes.length = tag.attributes.length
  tag : tag.laid heading.attributes heading.tagEnd = front.tag
  flow : heading.flow = front.stage.flow
  draft : heading.draft = draft.moveTo front.stage.cursor

namespace Settings

variable (settings : Settings)

theorem shows_layoutHeading (tag : StartTag) (children : List Node) (progress : Progress) :
    (settings.layoutHeading tag children progress).Shows
      (settings.front progress.blanks tag (settings.leadingWidth lookahead tag children)
        ⟨progress.draft.cursor, progress.flow⟩) tag progress.draft :=
  ⟨rfl, rfl, rfl, rfl, (settings.layoutStartTag_spec _ _ _).1, rfl, rfl, rfl⟩

end Settings

/-! ## Agreement -/

namespace Settings

/-- Between two stages of planning, nodes with the given numbers and the given outline have been
laid out as the outline is arranged, and are written that way. -/
structure Agrees (settings : Settings) (outlined : List Item × List Char) (ids : List Nat)
    (write : Plan → Except RenderError (List OutputPiece)) (before after : Progress) : Prop where
  stage : (settings.arrangeAll outlined.1 ⟨before.draft.cursor, before.flow⟩).2 =
    ⟨after.draft.cursor, after.flow⟩
  left : outlined.2 = after.blanks
  written : ∀ plan : Plan, (∀ id ∈ ids, plan.get? id = after.draft.plan.get? id) →
    ∃ pieces, write plan = .ok pieces ∧ joinPieces pieces =
      Item.textOfAll (settings.arrangeAll outlined.1 ⟨before.draft.cursor, before.flow⟩).1

/-- There is room in a draft for what is decided about nodes with these numbers and known of
them. -/
def Room (ids : List Nat) (draft : Draft) : Prop :=
  ∀ id ∈ ids, id < draft.plan.decisions.size ∧ id < draft.short.size

theorem Room.of_keeps {ids others : List Nat} {before after : Draft} (hroom : Room ids before)
    (hkeeps : Draft.Keeps others before after) : Room ids after := by
  intro id hmem
  rw [hkeeps.decided, hkeeps.measured]
  exact hroom id hmem

variable (settings : Settings)

theorem arrangeAll_singleton (item : Item) (stage : Stage) :
    settings.arrangeAll [item] stage =
      ([(settings.arrange item stage).1], (settings.arrange item stage).2) := rfl

theorem arrangeAll_append (first second : List Item) (stage : Stage) :
    settings.arrangeAll (first ++ second) stage =
      ((settings.arrangeAll first stage).1 ++
        (settings.arrangeAll second (settings.arrangeAll first stage).2).1,
      (settings.arrangeAll second (settings.arrangeAll first stage).2).2) := by
  induction first generalizing stage with
  | nil => rfl
  | cons item rest ih => simp [arrangeAll, ih]

/-! ## Leaves -/

theorem render_leaf {plan : Plan} {leaf : Leaf} {decision : Decision} {inside : List OutputPiece}
    (hdecision : plan.get? leaf.id = some decision)
    (hinside : leaf.renderWith decision.layout = .ok inside) :
    ∃ pieces, plan.render (.leaf leaf) = .ok pieces ∧ joinPieces pieces =
      decision.before.text ++ (joinPieces inside ++ decision.after.text) := by
  refine ⟨decision.before.pieces ++ (inside ++ decision.after.pieces), ?_, ?_⟩
  · simp only [Plan.render, hdecision, hinside]
    rfl
  · rw [joinPieces_append, joinPieces_append, Gap.joinPieces_pieces, Gap.joinPieces_pieces]

theorem get?_decide_self {draft : Draft} {id : Nat} (hroom : Room [id] draft)
    (decision : Decision) : (draft.decide id decision).plan.get? id = some decision := by
  rw [Draft.decide, Plan.get?_decide, if_pos ⟨rfl, (hroom id List.mem_cons_self).1⟩]

theorem get?_finishElement_self {id : Nat} {draft : Draft} (hroom : Room [id] draft)
    (heading : Heading) (content : Content) {body : Body}
    (hsize : (finishElement id heading content body).draft.plan.decisions.size =
      draft.plan.decisions.size) :
    (finishElement id heading content body).draft.plan.get? id = some ⟨heading.before, .nothing,
      heading.indent, .element heading.attributes heading.tagEnd content body.endTag⟩ := by
  have hlt : id < body.draft.plan.decisions.size := by
    simp only [finishElement, Draft.decide, Plan.decide, Array.size_setIfInBounds] at hsize
    rw [hsize]
    exact (hroom id List.mem_cons_self).1
  exact (Plan.get?_decide _ _ _ _).trans (if_pos ⟨rfl, hlt⟩)

theorem get?_finishElement_of_ne {id wanted : Nat} (hne : id ≠ wanted) (heading : Heading)
    (content : Content) (body : Body) :
    (finishElement id heading content body).draft.plan.get? wanted = body.draft.plan.get? wanted :=
  Plan.get?_decide_of_ne hne _

theorem agrees_layoutAtom {leaf : Leaf} (hkind : leaf.kind ≠ .text) (judge : Nat → Bool)
    {progress : Progress} (hroom : Room [leaf.id] progress.draft) :
    settings.Agrees (Node.outline judge (.leaf leaf) progress.blanks) [leaf.id]
      (fun plan => plan.render (.leaf leaf)) progress
      (settings.layoutAtom leaf leaf.kind.following progress) := by
  have houtline : Node.outline judge (.leaf leaf) progress.blanks =
      ([.leaf progress.blanks leaf.kind leaf.raw], []) := by
    rw [Node.outline, Leaf.outline]
    split
    next htext => exact absurd htext hkind
    next => rfl
  rw [houtline]
  refine ⟨rfl, rfl, fun plan hplan => ?_⟩
  have hdecision := hplan leaf.id List.mem_cons_self
  rw [layoutAtom, get?_decide_self (by exact hroom)] at hdecision
  have hinside : leaf.renderWith .atom = .ok leaf.pieces := by
    unfold Leaf.renderWith
    cases hleaf : leaf.kind <;> simp_all
  obtain ⟨pieces, hpieces, htext⟩ := render_leaf hdecision hinside
  refine ⟨pieces, hpieces, ?_⟩
  rw [htext, leaf.joinPieces_pieces]
  simp [arrangeAll, arrange, arrangeLeaf, Item.textOfAll, Item.text, Gap.text]

/-- Words with gaps between them are written as they are filled. -/
theorem wordPieces?_of_gaps {first : Word} {rest : List (List Char × Word)} {gaps : List Gap}
    (hlength : gaps.length = rest.length) :
    ∃ pieces, wordPieces? (first :: rest.map (·.2)) gaps = some pieces ∧
      joinPieces pieces = wordsText (Word.raw first) (gaps.zipWith
        (fun gap parted => (gap.text, parted.2))
          (rest.map fun (gap, word) => (gap, Word.raw word))) := by
  induction rest generalizing first gaps with
  | nil =>
      obtain rfl := List.length_eq_zero_iff.mp hlength
      exact ⟨fragmentPieces first, rfl, by simp [joinPieces_fragmentPieces, wordsText, Word.raw]⟩
  | cons next words ih =>
      cases gaps with
      | nil => simp at hlength
      | cons gap gaps =>
          obtain ⟨pieces, hpieces, htext⟩ := @ih next.2 gaps (by simpa using hlength)
          refine ⟨fragmentPieces first ++ (gap.pieces ++ pieces),
            by simp [wordPieces?, hpieces], ?_⟩
          rw [joinPieces_append, joinPieces_append, joinPieces_fragmentPieces,
            Gap.joinPieces_pieces, htext]
          simp [wordsText, Word.raw]

theorem length_fill (continuation : Nat) (cursor : Cursor) (rest : List (List Char × Nat)) :
    (settings.fill continuation cursor rest).1.length = rest.length := by
  induction rest generalizing cursor with
  | nil => rfl
  | cons head others ih => simp [fill, ih]

theorem agrees_layoutText {leaf : Leaf} (hkind : leaf.kind = .text) (judge : Nat → Bool)
    {progress : Progress} (hroom : Room [leaf.id] progress.draft) :
    settings.Agrees (Node.outline judge (.leaf leaf) progress.blanks) [leaf.id]
      (fun plan => plan.render (.leaf leaf)) progress (settings.layoutText leaf progress) := by
  rw [Node.outline, Leaf.outline, layoutText]
  simp only [hkind]
  cases hrun : Run.ofText leaf.raw with
  | blank leading =>
      refine ⟨rfl, rfl, fun plan hplan => ?_⟩
      have hdecision := hplan leaf.id List.mem_cons_self
      rw [get?_decide_self hroom] at hdecision
      have hinside : leaf.renderWith (.text []) = .ok [] := by
        simp [Leaf.renderWith, hkind, hrun, Run.wordList, wordPieces?]
      obtain ⟨pieces, hpieces, htext⟩ := render_leaf hdecision hinside
      exact ⟨pieces, hpieces, htext⟩
  | words leading first rest trailing =>
      have hwidths : (rest.map fun parted => (parted.1, Word.raw parted.2)).map
          (fun parted => (parted.1, parted.2.length)) =
            rest.map fun parted => (parted.1, Word.width parted.2) := by
        simp [Word.width]
      dsimp only
      generalize hseparated : settings.separate progress.draft.cursor progress.flow
        (progress.blanks ++ leading) .inline first.width = separated
      obtain ⟨gap, cursor, flow⟩ := separated
      dsimp only
      rw [settings.layoutWords_eq_fill]
      generalize hcontinuation : (if settings.alignText = true then cursor.column
        else flow.indent) = continuation
      have hlength := settings.length_fill continuation (cursor.place first.width)
        (rest.map fun parted => (parted.1, Word.width parted.2))
      generalize hfilled : settings.fill continuation (cursor.place first.width)
        (rest.map fun parted => (parted.1, Word.width parted.2)) = filled at hlength
      obtain ⟨gaps, after, broken⟩ := filled
      rw [List.length_map] at hlength
      have harranged : settings.arrangeAll [.words (progress.blanks ++ leading)
          (Word.raw first) (rest.map fun parted => (parted.1, Word.raw parted.2))]
          ⟨progress.draft.cursor, progress.flow⟩ = ([.words gap.text (Word.raw first)
            (gaps.zipWith (fun gap parted => (gap.text, parted.2))
              (rest.map fun parted => (parted.1, Word.raw parted.2)))],
            ⟨after, { flow with broken := flow.broken || broken }.follow .inline⟩) := by
        have hfirst : (Word.raw first).length = first.width := rfl
        rw [arrangeAll_singleton, arrange, arrangeWords, hfirst, hseparated]
        dsimp only
        rw [hcontinuation, hwidths, hfilled]
      refine ⟨by rw [harranged]; rfl, rfl, fun plan hplan => ?_⟩
      have hdecision := hplan leaf.id List.mem_cons_self
      rw [get?_decide_self (by exact hroom)] at hdecision
      obtain ⟨inside, hinside, htext⟩ := @wordPieces?_of_gaps first rest gaps hlength
      have hrendered : leaf.renderWith (.text gaps) = .ok inside := by
        simp [Leaf.renderWith, hkind, hrun, Run.wordList, hinside]
      obtain ⟨pieces, hpieces, hwritten⟩ := render_leaf hdecision hrendered
      refine ⟨pieces, hpieces, ?_⟩
      rw [hwritten, htext, harranged]
      simp [Item.textOfAll, Item.text, Gap.text]

theorem agrees_layoutLeaf (leaf : Leaf) (judge : Nat → Bool) {progress : Progress}
    (hroom : Room [leaf.id] progress.draft) :
    settings.Agrees (Node.outline judge (.leaf leaf) progress.blanks) [leaf.id]
      (fun plan => plan.render (.leaf leaf)) progress (settings.layoutLeaf leaf progress) := by
  cases hkind : leaf.kind with
  | text =>
      rw [layoutLeaf, hkind]
      exact settings.agrees_layoutText hkind judge hroom
  | comment =>
      have hatom := settings.agrees_layoutAtom (by simp [hkind]) judge hroom
      rw [hkind] at hatom
      rw [layoutLeaf, hkind]
      exact hatom
  | verbatim =>
      have hatom := settings.agrees_layoutAtom (by simp [hkind]) judge hroom
      rw [hkind] at hatom
      rw [layoutLeaf, hkind]
      exact hatom
  | doctype =>
      have hatom := settings.agrees_layoutAtom (by simp [hkind]) judge hroom
      rw [hkind] at hatom
      rw [layoutLeaf, hkind]
      exact hatom

/-! ## Elements -/

/-- What is written inside an element. -/
inductive WritesInside (plan : Plan) (elem : Element) (children : List Node) (endGap : Gap) :
    Content → List OutputPiece → Prop
  | empty : WritesInside plan elem children endGap .empty []
  | verbatim :
      WritesInside plan elem children endGap .verbatim (emit .verbatim (elem.preserved children).1)
  | formatted {inner : List OutputPiece} : plan.renderAll children = .ok inner →
      WritesInside plan elem children endGap .formatted (inner ++ endPieces elem.endTag endGap)

/-- An element is written by its decision, given what is written inside it. -/
theorem render_element {plan : Plan} {elem : Element} {children : List Node} {decision : Decision}
    {attributes : List AttributeLayout} {tagEnd endGap : Gap} {content : Content}
    {inside : List OutputPiece} (hdecision : plan.get? elem.id = some decision)
    (hlayout : decision.layout = .element attributes tagEnd content endGap)
    (hlength : attributes.length = elem.tag.attributes.length)
    (hinside : WritesInside plan elem children endGap content inside) :
    ∃ pieces, plan.render (.element elem children) = .ok pieces ∧ joinPieces pieces =
      decision.before.text ++ ((elem.tag.laid attributes tagEnd).text ++
        (joinPieces inside ++ decision.after.text)) := by
  refine ⟨decision.before.pieces ++ (elem.tag.pieces attributes tagEnd ++
    (inside ++ decision.after.pieces)), ?_, ?_⟩
  · simp only [Plan.render, hdecision, hlayout, hlength, ne_eq, not_true_eq_false, if_false]
    cases hinside with
    | empty => rfl
    | verbatim => rfl
    | formatted hinner =>
        rw [hinner]
        rfl
  · simp only [joinPieces_append, Gap.joinPieces_pieces, StartTag.joinPieces_pieces]

section Element

variable {settings : Settings} {judge : Nat → Bool} {elem : Element} {children : List Node}
  {progress : Progress}

/-- An element whose content has been laid out as it is arranged. -/
theorem agrees_finishElement {heading : Heading} {front : Front} {body : Body} {content : Content}
    {outlined : List Item × List Char} {item : Item}
    (hshows : heading.Shows front elem.tag progress.draft)
    (hfresh : elem.id ∉ Node.idsOfAll children) (hroom : Room [elem.id] body.draft)
    (houtlined : outlined = ([item], body.blanks))
    (hstage : (settings.arrange item ⟨progress.draft.cursor, progress.flow⟩).2 =
      front.behind body.draft.cursor body.broken)
    (hwritten : ∀ plan : Plan,
      (∀ id ∈ Node.idsOfAll children, plan.get? id = body.draft.plan.get? id) →
        ∃ inside, WritesInside plan elem children body.endTag content inside ∧
          (settings.arrange item ⟨progress.draft.cursor, progress.flow⟩).1.text =
            front.before.text ++ (front.tag.text ++ joinPieces inside)) :
    settings.Agrees outlined (elem.id :: Node.idsOfAll children)
      (fun plan => plan.render (.element elem children)) progress
      (finishElement elem.id heading content body) := by
  subst houtlined
  refine ⟨?_, rfl, fun plan hplan => ?_⟩
  · rw [arrangeAll_singleton, hstage, finishElement, Front.behind, Front.kind, hshows.flow,
      hshows.block]
    rfl
  · have hdecision := hplan elem.id List.mem_cons_self
    rw [finishElement, get?_decide_self hroom] at hdecision
    obtain ⟨inside, hinside, htext⟩ := hwritten plan fun id hmem => by
      rw [hplan id (List.mem_cons_of_mem _ hmem)]
      exact Plan.get?_decide_of_ne (by rintro rfl; exact hfresh hmem) _
    obtain ⟨pieces, hpieces, hrendered⟩ := render_element hdecision rfl hshows.attributes hinside
    refine ⟨pieces, hpieces, ?_⟩
    rw [hrendered, arrangeAll_singleton, hshows.tag, hshows.before]
    simp [Item.textOfAll, htext, Gap.text]

/-- What is known of elements in the end is what is noted of them, if it is of any consequence. -/
def Knows (settings : Settings) (judge : Nat → Bool) (ids : List Nat) (draft : Draft) : Prop :=
  settings.heightLimit ≠ 0 → ∀ id ∈ ids, ∀ fits, draft.short? id = some fits → judge id = fits

theorem leadingWidth_of_takesRawText {tag : StartTag} (hraw : tag.takesRawText = true) :
    settings.leadingWidth lookahead tag children = settings.tagWidth tag := by
  simp only [StartTag.takesRawText, Bool.and_eq_true] at hraw
  simp [leadingWidth, lookahead, preserves, hraw.2]

/-- An element whose content is copied. -/
theorem agrees_copied {front : Front} {item : Item} {kept left : List Char}
    (hshows : (settings.layoutHeading elem.tag children progress).Shows front elem.tag
      progress.draft)
    (hcontent : settings.contentOf elem.tag = .verbatim)
    (hfresh : elem.id ∉ Node.idsOfAll children) (hroom : Room [elem.id] progress.draft)
    (hpreserved : elem.preserved children = (kept, left))
    (houtlined : Node.outline judge (.element elem children) progress.blanks = ([item], left))
    (hstage : (settings.arrange item ⟨progress.draft.cursor, progress.flow⟩).2 =
      front.behind (front.stage.cursor.write kept) false)
    (htext : (settings.arrange item ⟨progress.draft.cursor, progress.flow⟩).1.text =
      front.before.text ++ (front.tag.text ++ kept)) :
    settings.Agrees (Node.outline judge (.element elem children) progress.blanks)
      (elem.id :: Node.idsOfAll children)
        (fun plan => plan.render (.element elem children)) progress
      (settings.layoutNode (.element elem children) progress) := by
  rw [layoutNode]
  simp only [hcontent, hpreserved]
  have hcursor : (settings.layoutHeading elem.tag children progress).draft.cursor =
      front.stage.cursor := by
    rw [hshows.draft]
    rfl
  refine agrees_finishElement hshows hfresh hroom houtlined (hstage.trans ?_)
    fun plan _ => ⟨_, .verbatim, ?_⟩
  · rw [hcursor]
    rfl
  · rw [htext, joinPieces_emit, hpreserved]

theorem agrees_verbatim (hlegible : Node.Legible (.element elem children))
    (hsound : Node.SoundAll children) (hcontent : settings.contentOf elem.tag = .verbatim)
    (hfresh : elem.id ∉ Node.idsOfAll children) (hroom : Room [elem.id] progress.draft) :
    settings.Agrees (Node.outline judge (.element elem children) progress.blanks)
      (elem.id :: Node.idsOfAll children)
        (fun plan => plan.render (.element elem children)) progress
      (settings.layoutNode (.element elem children) progress) := by
  have hshows := settings.shows_layoutHeading elem.tag children progress
  obtain ⟨-, hinside⟩ := hlegible
  by_cases hraw : elem.tag.takesRawText = true
  · rw [leadingWidth_of_takesRawText hraw] at hshows
    have houtlined : Node.outline judge (.element elem children) progress.blanks =
        elem.outlineRaw progress.blanks (Node.textOfAll children) := by
      rw [Node.outline, if_pos hraw]
    unfold Element.outlineRaw at houtlined
    have hpreserved : elem.preserved children = elem.preserved children := rfl
    conv_rhs at hpreserved => unfold Element.preserved
    cases hclose : elem.endTag with
    | none =>
        rw [hclose] at houtlined hpreserved
        refine agrees_copied hshows hcontent hfresh hroom hpreserved houtlined ?_ ?_
        · rw [arrange, Token.closeText, List.append_nil]
        · rw [arrange, Item.text, Token.closeText, List.append_nil]
    | some close =>
        rw [hclose] at houtlined hpreserved
        refine agrees_copied hshows hcontent hfresh hroom hpreserved houtlined ?_ ?_
        · rw [arrange, Token.closeText]
        · rw [arrange, Item.text, Token.closeText]
  · rw [if_neg hraw] at hinside
    rw [← settings.leadingItems_outlineAll judge lookahead elem.tag children hinside.2] at hshows
    have hpreserved := elem.preserved_eq judge hinside.2 hsound
    have houtlined : Node.outline judge (.element elem children) progress.blanks =
        elem.outline (judge elem.id) progress.blanks (Node.outlineAll judge children []) := by
      rw [Node.outline, if_neg hraw]
    unfold Element.outline at houtlined
    cases hclose : elem.endTag with
    | none =>
        rw [hclose] at houtlined hpreserved
        refine agrees_copied hshows hcontent hfresh hroom hpreserved houtlined ?_ ?_
        · rw [arrange, hcontent, Item.closeText, List.append_nil]
        · rw [arrange, hcontent]
          simp only [Item.text, Item.closeText, List.append_nil]
    | some close =>
        rw [hclose] at houtlined hpreserved
        refine agrees_copied hshows hcontent hfresh hroom hpreserved houtlined ?_ ?_
        · rw [arrange, hcontent, Item.closeText]
        · rw [arrange, hcontent]
          simp only [Item.text, Item.closeText]

theorem agrees_empty (hplain : elem.tag.takesRawText = false)
    (halone : children = [] ∧ elem.endTag = none) (hcontent : settings.contentOf elem.tag = .empty)
    (hroom : Room [elem.id] progress.draft) :
    settings.Agrees (Node.outline judge (.element elem children) progress.blanks)
      (elem.id :: Node.idsOfAll children)
        (fun plan => plan.render (.element elem children)) progress
      (settings.layoutNode (.element elem children) progress) := by
  obtain ⟨rfl, hclose⟩ := halone
  have hshows := settings.shows_layoutHeading elem.tag [] progress
  rw [← settings.leadingItems_outlineAll judge lookahead elem.tag [] trivial] at hshows
  have houtlined : Node.outline judge (.element elem []) progress.blanks =
      ([.element (judge elem.id) progress.blanks elem.tag [] none], []) := by
    rw [Node.outline, if_neg (by simp [hplain]), Element.outline, hclose]
    rfl
  rw [layoutNode]
  simp only [hcontent]
  refine agrees_finishElement hshows (by simp) hroom houtlined ?_ fun plan _ => ⟨[], .empty, ?_⟩
  · rw [arrange, hcontent, hshows.draft]
    rfl
  · rw [arrange, hcontent]
    simp [Item.text, Item.textOfAll, Item.closeText, joinPieces, Node.outlineAll]

/-- The end tag of an element is laid out as it is arranged. -/
theorem layoutEnding_eq {heading : Heading} {front : Front} {tag : StartTag} {draft : Draft}
    (hshows : heading.Shows front tag draft) (endTag : Option EndTag) (inner : Progress) :
    settings.arrangeClose front ⟨inner.draft.cursor, inner.flow⟩
        (endTag.map fun close => (inner.blanks, close)) =
      (endTag.map fun close => ((settings.layoutEnding heading endTag inner).endTag.text,
        close.plain), (settings.layoutEnding heading endTag inner).draft.cursor) ∧
      (settings.layoutEnding heading endTag inner).broken = inner.flow.broken ∧
        (settings.layoutEnding heading endTag inner).draft.plan = inner.draft.plan ∧
          ∀ id, (settings.layoutEnding heading endTag inner).draft.short? id =
            inner.draft.short? id := by
  cases endTag with
  | none => exact ⟨rfl, rfl, rfl, fun _ => rfl⟩
  | some close =>
      refine ⟨?_, rfl, rfl, fun _ => rfl⟩
      simp only [Option.map_some, arrangeClose, layoutEnding, hshows.indent, hshows.ownLine,
        hshows.block]
      rfl

theorem joinPieces_endPieces (endTag : Option EndTag) (gap : Gap) :
    joinPieces (endPieces endTag gap) =
      Item.closeText (endTag.map fun close => (gap.text, close.plain)) := by
  cases endTag with
  | none => rfl
  | some close =>
      simp [endPieces, EndTag.pieces, joinPieces_append, joinPieces_emit, Gap.joinPieces_pieces,
        Item.closeText, EndTag.plain]

theorem plain_of_formatted (hlegible : Node.Legible (.element elem children))
    (hcontent : settings.contentOf elem.tag = .formatted) :
    ¬elem.tag.takesRawText = true ∧ Node.LegibleAll children := by
  have hplain : ¬elem.tag.takesRawText = true := by
    intro hraw
    rw [contentOf_of_takesRawText hraw] at hcontent
    cases hcontent
  have hinside := hlegible.2
  rw [if_neg hplain] at hinside
  exact ⟨hplain, hinside.2⟩

/-- The outline of an element with its content laid out, given what the content leaves. -/
theorem outline_formatted (hplain : ¬elem.tag.takesRawText = true) (heading : Heading)
    {inner : Progress} (hleft : (Node.outlineAll judge children []).2 = inner.blanks)
    (blanks : List Char) :
    Node.outline judge (.element elem children) blanks =
      ([.element (judge elem.id) blanks elem.tag (Node.outlineAll judge children []).1
        (elem.endTag.map fun close => (inner.blanks, close))],
        (settings.layoutEnding heading elem.endTag inner).blanks) := by
  rw [Node.outline, if_neg hplain, Element.outline, ← hleft]
  cases elem.endTag with
  | none => simp [layoutEnding, hleft]
  | some close => rfl

/-- An element is arranged as it is laid out if its content is. -/
theorem arrange_formatted (hcontent : settings.contentOf elem.tag = .formatted) {heading : Heading}
    {front : Front} {draft : Draft} (hshows : heading.Shows front elem.tag draft)
    {blanks : List Char} {items : List Item} {short : Bool} {stage : Stage}
    (hfront : settings.front blanks elem.tag (settings.leadingItems lookahead elem.tag items)
      stage = front) {inner : Progress} :
    let start : Stage := ⟨front.stage.cursor,
      Flow.start (settings.childIndent front short elem.tag.name) (.start front.block)⟩
    let body := settings.layoutEnding heading elem.endTag inner
    (settings.arrangeAll items start).2 = ⟨inner.draft.cursor, inner.flow⟩ →
      settings.arrange (.element short blanks elem.tag items
          (elem.endTag.map fun close => (inner.blanks, close))) stage =
        (.element short front.before.text front.tag (settings.arrangeAll items start).1
          (elem.endTag.map fun close => (body.endTag.text, close.plain)),
          front.behind body.draft.cursor body.broken) := by
  intro start body hinner
  obtain ⟨hending, hbroken, -⟩ := settings.layoutEnding_eq hshows elem.endTag inner
  rw [arrange, hcontent, hbroken]
  simp only [hfront]
  rw [hinner, hending]

theorem agrees_formatted (hlegible : Node.Legible (.element elem children))
    (hcontent : settings.contentOf elem.tag = .formatted)
    (hfresh : elem.id ∉ Node.idsOfAll children)
    (hroom : Room (elem.id :: Node.idsOfAll children) progress.draft)
    (hknows : settings.Knows judge (elem.id :: Node.idsOfAll children)
      (settings.layoutNode (.element elem children) progress).draft)
    (hchildren : ∀ before : Progress, Room (Node.idsOfAll children) before.draft →
      settings.Knows judge (Node.idsOfAll children) (settings.layoutNodes children before).draft →
        settings.Agrees (Node.outlineAll judge children before.blanks) (Node.idsOfAll children)
          (fun plan => plan.renderAll children) before (settings.layoutNodes children before)) :
    settings.Agrees (Node.outline judge (.element elem children) progress.blanks)
      (elem.id :: Node.idsOfAll children)
        (fun plan => plan.render (.element elem children)) progress
      (settings.layoutNode (.element elem children) progress) := by
  obtain ⟨hplain, hinside⟩ := plain_of_formatted hlegible hcontent
  have hshows := settings.shows_layoutHeading elem.tag children progress
  rw [← settings.leadingItems_outlineAll judge lookahead elem.tag children hinside] at hshows
  generalize hheading : settings.layoutHeading elem.tag children progress = heading at hshows
  generalize hfront : settings.front progress.blanks elem.tag (settings.leadingItems lookahead
    elem.tag (Node.outlineAll judge children []).1) ⟨progress.draft.cursor, progress.flow⟩ =
      front at hshows
  have hkeeps : ∀ indent draft, Draft.Keeps (Node.idsOfAll children) draft
      (settings.layoutEnding heading elem.endTag (settings.layoutNodes children
        ⟨draft, Flow.start indent (.start heading.block), []⟩)).draft := fun indent draft =>
    settings.keeps_layoutEnding heading elem.endTag (settings.keeps_layoutNodes children
      ⟨draft, Flow.start indent (.start heading.block), []⟩)
  have hstart : heading.draft.short.size = progress.draft.short.size ∧
      heading.draft.plan.decisions.size = progress.draft.plan.decisions.size := by
    rw [hshows.draft]
    exact ⟨rfl, rfl⟩
  rw [layoutNode] at hknows ⊢
  simp only [hcontent, hheading] at hknows ⊢
  have hbodyKeeps := settings.keeps_layoutBody elem.id elem.name heading hkeeps
  have hshort : settings.heightLimit ≠ 0 → ∀ fits, (settings.layoutBody elem.id elem.name heading
      fun indent draft => settings.layoutEnding heading elem.endTag (settings.layoutNodes children
        ⟨draft, Flow.start indent (.start heading.block), []⟩)).draft.short? elem.id = some fits →
          judge elem.id = fits := fun hlimit => hknows hlimit elem.id List.mem_cons_self
  -- of the layouts of the content, the one that stands starts from this draft
  obtain ⟨draft, hcursor, hplan, hsize, hsame⟩ := settings.layoutBody_sameIn elem.id elem.name
    heading hkeeps hfresh (hstart.1 ▸ (hroom elem.id List.mem_cons_self).2) hshort
  generalize settings.layoutBody elem.id elem.name heading _ = body at hbodyKeeps hknows hsame ⊢
  generalize hbefore : (⟨draft, Flow.start (settings.bodyIndent heading (judge elem.id) elem.name)
    (.start heading.block), []⟩ : Progress) = before at hsame
  obtain ⟨-, -, hendPlan, hendShort⟩ := settings.layoutEnding_eq hshows elem.endTag
    (settings.layoutNodes children before)
  have hinner := hchildren before ?room ?knows
  case room =>
    intro id hmem
    have hin := hroom id (List.mem_cons_of_mem _ hmem)
    rw [← hbefore, hplan, hsize, hstart.1, hstart.2]
    exact hin
  case knows =>
    intro hlimit id hmem fits hfits
    refine hknows hlimit id (List.mem_cons_of_mem _ hmem) fits ?_
    rw [← hendShort, ← hsame.short id hmem] at hfits
    exact hfits
  obtain ⟨hstage, hleft, hwritten⟩ := hinner
  have hthere : (⟨before.draft.cursor, before.flow⟩ : Stage) = ⟨front.stage.cursor,
      Flow.start (settings.childIndent front (judge elem.id) elem.tag.name)
        (.start front.block)⟩ := by
    rw [← hbefore, hcursor, hshows.draft, bodyIndent, childIndent, hshows.indent, hshows.ownLine,
      hshows.block]
    rfl
  have hblanks : before.blanks = [] := by rw [← hbefore]
  rw [hthere, hblanks] at hstage hwritten
  rw [hblanks] at hleft
  have houtlined := settings.outline_formatted hplain heading hleft progress.blanks
  have harranged := arrange_formatted hcontent hshows hfront hstage
  rw [← hsame.blanks] at houtlined
  rw [← hsame.endTag, ← hsame.cursor, ← hsame.broken] at harranged
  have hbodyRoom : Room [elem.id] body.draft := by
    intro id hmem
    have hin := hroom id (List.mem_cons.mpr (.inl (List.mem_singleton.mp hmem)))
    rw [hbodyKeeps.decided, hbodyKeeps.measured, hstart.1, hstart.2]
    exact hin
  refine agrees_finishElement hshows hfresh hbodyRoom houtlined (by rw [harranged]) ?_
  intro plan hplans
  obtain ⟨inner, hpieces, htext⟩ := hwritten plan fun id hmem => by
    rw [hplans id hmem, hsame.plan, hendPlan]
  refine ⟨_, .formatted hpieces, ?_⟩
  rw [harranged, joinPieces_append, joinPieces_endPieces, htext]
  simp [Item.text]

end Element

/-! ## All nodes -/

/-- A node and those behind it, one after the other. -/
theorem agrees_cons {settings : Settings} {judge : Nat → Bool} {node : Node} {rest : List Node}
    {before between after : Progress} (hdisjoint : ∀ id ∈ node.ids, id ∉ Node.idsOfAll rest)
    (hkeeps : Draft.Keeps (Node.idsOfAll rest) between.draft after.draft)
    (hfirst : settings.Agrees (Node.outline judge node before.blanks) node.ids
      (fun plan => plan.render node) before between)
    (hothers : settings.Agrees (Node.outlineAll judge rest between.blanks) (Node.idsOfAll rest)
      (fun plan => plan.renderAll rest) between after) :
    settings.Agrees (Node.outlineAll judge (node :: rest) before.blanks)
      (Node.idsOfAll (node :: rest)) (fun plan => plan.renderAll (node :: rest)) before after := by
  have hparts := settings.arrangeAll_append (Node.outline judge node before.blanks).1
    (Node.outlineAll judge rest between.blanks).1 ⟨before.draft.cursor, before.flow⟩
  rw [hfirst.stage] at hparts
  have houtlined : Node.outlineAll judge (node :: rest) before.blanks =
      ((Node.outline judge node before.blanks).1 ++ (Node.outlineAll judge rest between.blanks).1,
        (Node.outlineAll judge rest between.blanks).2) := by
    rw [Node.outlineAll, hfirst.left]
  rw [houtlined]
  refine ⟨by rw [hparts, hothers.stage], hothers.left, fun plan hplan => ?_⟩
  have hnode : ∀ id ∈ node.ids, plan.get? id = between.draft.plan.get? id := fun id hmem =>
    (hplan id (by simp [hmem])).trans (hkeeps.plan id (hdisjoint id hmem))
  obtain ⟨first, hfirstPieces, hfirstText⟩ := hfirst.written plan hnode
  obtain ⟨others, hotherPieces, hotherText⟩ := hothers.written plan fun id hmem =>
    hplan id (by simp [hmem])
  refine ⟨first ++ others, ?_, ?_⟩
  · simp only [Plan.renderAll, hfirstPieces, hotherPieces]
    rfl
  · rw [joinPieces_append, hfirstText, hotherText, hparts, Item.textOfAll_append]

mutual

theorem agrees_layoutNode {settings : Settings} {judge : Nat → Bool} (node : Node)
    (hlegible : node.Legible) (hsound : node.Sound) (hnodup : node.ids.Nodup) (progress : Progress)
    (hroom : Room node.ids progress.draft)
    (hknows : settings.Knows judge node.ids (settings.layoutNode node progress).draft) :
    settings.Agrees (Node.outline judge node progress.blanks) node.ids
      (fun plan => plan.render node) progress (settings.layoutNode node progress) := by
  cases node with
  | leaf leaf =>
      rw [layoutNode]
      exact settings.agrees_layoutLeaf leaf judge hroom
  | element elem children =>
      rw [Node.ids_element] at hnodup hroom hknows ⊢
      obtain ⟨hfresh, hinside⟩ := List.nodup_cons.mp hnodup
      have hown : Room [elem.id] progress.draft := fun id hmem =>
        hroom id (List.mem_cons.mpr (.inl (List.mem_singleton.mp hmem)))
      cases hcontent : settings.contentOf elem.tag with
      | empty =>
          have halone := contentOf_eq_empty_iff.mp hcontent
          refine agrees_empty ?_ (hsound.2.1 halone) hcontent hown
          refine Bool.eq_false_iff.mpr fun hraw => ?_
          rw [contentOf_of_takesRawText hraw] at hcontent
          cases hcontent
      | verbatim => exact agrees_verbatim hlegible hsound.2.2 hcontent hfresh hown
      | formatted =>
          have hchildren := (plain_of_formatted hlegible hcontent).2
          exact agrees_formatted hlegible hcontent hfresh hroom hknows fun before =>
            agrees_layoutNodes children hchildren hsound.2.2 hinside before

/-- Nodes are written as their outline is arranged. -/
theorem agrees_layoutNodes {settings : Settings} {judge : Nat → Bool} (nodes : List Node)
    (hlegible : Node.LegibleAll nodes) (hsound : Node.SoundAll nodes)
    (hnodup : (Node.idsOfAll nodes).Nodup) (progress : Progress)
    (hroom : Room (Node.idsOfAll nodes) progress.draft)
    (hknows : settings.Knows judge (Node.idsOfAll nodes)
      (settings.layoutNodes nodes progress).draft) :
    settings.Agrees (Node.outlineAll judge nodes progress.blanks) (Node.idsOfAll nodes)
      (fun plan => plan.renderAll nodes) progress (settings.layoutNodes nodes progress) := by
  cases nodes with
  | nil =>
      rw [layoutNodes]
      exact ⟨rfl, rfl, fun plan _ => ⟨[], rfl, rfl⟩⟩
  | cons node rest =>
      rw [Node.idsOfAll_cons] at hnodup hroom hknows
      rw [layoutNodes] at hknows ⊢
      obtain ⟨hnode, hrest, hdisjoint⟩ := List.nodup_append.mp hnodup
      have hapart : ∀ id ∈ node.ids, id ∉ Node.idsOfAll rest := fun id hmem hin =>
        hdisjoint id hmem id hin rfl
      have hkeeps := settings.keeps_layoutNodes rest (settings.layoutNode node progress)
      have hfirst := agrees_layoutNode node hlegible.1 hsound.1 hnode progress
        (fun id hmem => hroom id (List.mem_append_left _ hmem)) fun hlimit id hmem fits hfits => by
          refine hknows hlimit id (List.mem_append_left _ hmem) fits ?_
          rw [hkeeps.short id (hapart id hmem)]
          exact hfits
      have hothers := agrees_layoutNodes rest hlegible.2 hsound.2 hrest
        (settings.layoutNode node progress)
        (Room.of_keeps (fun id hmem => hroom id (List.mem_append_right _ hmem))
          (settings.keeps_layoutNode node progress))
        fun hlimit id hmem => hknows hlimit id (List.mem_append_right _ hmem)
      exact agrees_cons hapart hkeeps hfirst hothers

end

/-! ## Documents -/

/-- How far a document has been laid out once all of it is. -/
def laidOut (document : Document) : Progress :=
  settings.layoutNodes document.children
    ⟨Draft.start .origin document.count, Flow.start 0 (.start false), []⟩

/-- Whether a document is laid out as if an element in it were short. -/
def judge (document : Document) (id : Nat) : Bool :=
  settings.heightLimit == 0 || (settings.laidOut document).draft.short? id != some false

/-- What is written for a document with this outline. -/
def writtenFor (outlined : List Item × List Char) : List Char :=
  Item.textOfAll (settings.arrangeAll outlined.1 ⟨.origin, Flow.start 0 (.start false)⟩).1 ++
    (settings.finalGap outlined.2).text

/-- A document that is laid out is written as its outline is arranged. -/
theorem renderDocument_layoutDocument {text : List Char} {document : Document}
    (hparse : parse text = .ok document) :
    ∃ pieces, (settings.layoutDocument document).renderDocument document = .ok pieces ∧
      joinPieces pieces =
        settings.writtenFor (Node.outlineAll (settings.judge document) document.children []) := by
  have hroom : Room (Node.idsOfAll document.children) (Draft.start .origin document.count) := by
    intro id hmem
    rw [Document.ids_of_parse hparse, List.mem_range] at hmem
    simpa [Draft.start, Plan.empty] using hmem
  have hknows : settings.Knows (settings.judge document) (Node.idsOfAll document.children)
      (settings.laidOut document).draft := by
    intro hlimit id _ fits hfits
    rw [judge, hfits]
    cases fits <;> simp [hlimit]
  obtain ⟨-, hleft, hwritten⟩ := agrees_layoutNodes document.children
    (Document.legible_of_parse hparse) (Document.sound_of_parse hparse)
    (Document.nodup_ids_of_parse hparse) _ hroom hknows
  obtain ⟨pieces, hpieces, htext⟩ := hwritten (settings.layoutDocument document) fun _ _ => rfl
  refine ⟨pieces ++ (settings.layoutDocument document).ending.pieces, ?_, ?_⟩
  · simp only [Plan.renderDocument, hpieces]
    rfl
  · rw [joinPieces_append, htext, Gap.joinPieces_pieces, writtenFor, hleft]
    rfl

end Settings

end Markup
