import Markup.Plan.Nodes

/-!
# Decisions that are made anew

Nodes are laid out without a look at the plan. So laying them out enters the same decisions whatever
is in the plan, about the same nodes each time, and what an earlier layout of the same nodes has
left there is gone. Main statements: `Settings.heedless_layoutNodes` and `Body.Heedless.again`.
-/

namespace Markup

open Markup.Text

/-! ## Entering decisions -/

namespace Plan

/-- Enters decisions about nodes, one after the other. -/
def enter (plan : Plan) (entries : List (Nat × Decision)) : Plan :=
  entries.foldl (fun plan entry => plan.decide entry.1 entry.2) plan

variable {plan : Plan}

theorem enter_append (first second : List (Nat × Decision)) :
    plan.enter (first ++ second) = (plan.enter first).enter second :=
  List.foldl_append

theorem decide_decide (id : Nat) (first second : Decision) :
    (plan.decide id first).decide id second = plan.decide id second := by
  simp [decide, Array.setIfInBounds_setIfInBounds]

theorem decide_comm {id other : Nat} (hne : id ≠ other) (first second : Decision) :
    (plan.decide id first).decide other second = (plan.decide other second).decide id first := by
  simp only [decide]
  rw [Array.setIfInBounds_comm _ _ hne]

/-- A decision is gone once the same node is decided about anew. -/
theorem enter_decide {id : Nat} {entries : List (Nat × Decision)} (decision : Decision)
    (hmem : id ∈ entries.map Prod.fst) :
    (plan.decide id decision).enter entries = plan.enter entries := by
  induction entries generalizing plan with
  | nil => cases hmem
  | cons entry rest ih =>
      change ((plan.decide id decision).decide entry.1 entry.2).enter rest =
        (plan.decide entry.1 entry.2).enter rest
      by_cases hsame : id = entry.1
      · rw [hsame, decide_decide]
      · rw [decide_comm hsame]
        exact ih ((List.mem_cons.mp hmem).resolve_left hsame)

/-- Nothing is left of earlier decisions once the same nodes are decided about anew. -/
theorem enter_enter {earlier later : List (Nat × Decision)}
    (hsub : earlier.map Prod.fst ⊆ later.map Prod.fst) :
    (plan.enter earlier).enter later = plan.enter later := by
  induction earlier generalizing plan with
  | nil => rfl
  | cons entry rest ih =>
      rw [List.map_cons, List.cons_subset] at hsub
      exact (ih hsub.2).trans (enter_decide entry.2 hsub.1)

end Plan

/-! ## Another plan -/

/-- The same draft over another plan. -/
def Draft.over (draft : Draft) (plan : Plan) : Draft :=
  { draft with plan := plan }

@[simp]
theorem Draft.over_cursor (draft : Draft) (plan : Plan) :
    (draft.over plan).cursor = draft.cursor := rfl

/-- The same progress over another plan. -/
def Progress.over (progress : Progress) (plan : Plan) : Progress :=
  { progress with draft := progress.draft.over plan }

/-- The same start of an element, over another plan. -/
def Heading.over (heading : Heading) (plan : Plan) : Heading :=
  { heading with draft := heading.draft.over plan }

/-- The same content of an element, over another plan. -/
def Body.over (body : Body) (plan : Plan) : Body :=
  { body with draft := body.draft.over plan }

@[simp]
theorem Body.over_draft (body : Body) (plan : Plan) :
    (body.over plan).draft = body.draft.over plan := rfl

/-- Nodes are laid out without a look at the plan: decisions about these nodes are entered into it,
the same whatever is in it. -/
def Progress.Heedless (ids : List Nat) (layout : Progress → Progress) : Prop :=
  ∀ progress, ∃ entries, entries.map Prod.fst = ids ∧
    ∀ plan, layout (progress.over plan) = (layout progress).over (plan.enter entries)

/-- Content is laid out without a look at the plan, at whatever indent. -/
def Body.Heedless (ids : List Nat) (content : Nat → Draft → Body) : Prop :=
  ∀ indent draft, ∃ entries, entries.map Prod.fst = ids ∧
    ∀ plan, content indent (draft.over plan) = (content indent draft).over (plan.enter entries)

/-- Content that has been laid out from a plan before comes out as if it had not: all that was
decided is decided anew. -/
theorem Body.Heedless.again {ids : List Nat} {content : Nat → Draft → Body}
    (hcontent : Body.Heedless ids content) (earlier draft : Draft)
    (hplan : earlier.plan = draft.plan) (first indent : Nat) :
    content indent (draft.over (content first earlier).draft.plan) = content indent draft := by
  obtain ⟨left, hleft, hearlier⟩ := hcontent first earlier
  obtain ⟨entries, hentries, hover⟩ := hcontent indent draft
  have hstale : (content first earlier).draft.plan = draft.plan.enter left := by
    rw [← hplan]
    exact congrArg (fun body => body.draft.plan) (hearlier earlier.plan)
  calc content indent (draft.over (content first earlier).draft.plan)
      = (content indent draft).over ((draft.plan.enter left).enter entries) := by rw [hstale, hover]
    _ = (content indent draft).over (draft.plan.enter entries) := by
        rw [Plan.enter_enter (by rw [hleft, hentries]; exact List.Subset.refl ids)]
    _ = content indent (draft.over draft.plan) := (hover draft.plan).symm
    _ = content indent draft := rfl

namespace Settings

variable (settings : Settings)

theorem heedless_layoutAtom (leaf : Leaf) (kind : Following) :
    Progress.Heedless [leaf.id] (settings.layoutAtom leaf kind) := by
  intro progress
  let separated := settings.separate progress.draft.cursor progress.flow progress.blanks kind
    (firstLine leaf.raw).length
  exact ⟨[(leaf.id, ⟨separated.1, .nothing, separated.2.1.column, .atom⟩)], rfl, fun plan => rfl⟩

theorem heedless_layoutText (leaf : Leaf) :
    Progress.Heedless [leaf.id] (settings.layoutText leaf) := by
  intro progress
  unfold layoutText
  cases Run.ofText leaf.raw with
  | blank leading =>
      exact ⟨[(leaf.id, ⟨.nothing, .nothing, progress.flow.indent, .text []⟩)], rfl,
        fun plan => rfl⟩
  | words leading first rest trailing =>
      let separated := settings.separate progress.draft.cursor progress.flow
        (progress.blanks ++ leading) .inline first.width
      let continuation := if settings.alignText then separated.2.1.column else separated.2.2.indent
      let words := settings.layoutWords continuation separated.2.1 first.width
        (rest.map fun part => (part.1, part.2.width))
      exact ⟨[(leaf.id, ⟨separated.1, .nothing, separated.2.2.indent, .text words.1⟩)], rfl,
        fun plan => rfl⟩

theorem heedless_layoutLeaf (leaf : Leaf) :
    Progress.Heedless [leaf.id] (settings.layoutLeaf leaf) := by
  unfold layoutLeaf
  cases leaf.kind with
  | text => exact settings.heedless_layoutText leaf
  | comment => exact settings.heedless_layoutAtom leaf .comment
  | verbatim => exact settings.heedless_layoutAtom leaf .inline
  | doctype => exact settings.heedless_layoutAtom leaf .block

theorem layoutHeading_over (tag : StartTag) (children : List Node) (progress : Progress)
    (plan : Plan) :
    settings.layoutHeading tag children (progress.over plan) =
      (settings.layoutHeading tag children progress).over plan :=
  rfl

theorem layoutEnding_over (heading : Heading) (endTag : Option EndTag) (inner : Progress)
    (under plan : Plan) : settings.layoutEnding (heading.over under) endTag (inner.over plan) =
      (settings.layoutEnding heading endTag inner).over plan := by
  cases endTag <;> rfl

/-- The content of an element may be laid out twice; the decisions are those of the layout that
stands. -/
theorem layoutBody_over (id : Nat) (name : List Char) (heading : Heading) {ids : List Nat}
    {content : Nat → Draft → Body} (hcontent : Body.Heedless ids content) :
    ∃ entries, entries.map Prod.fst = ids ∧
      ∀ plan, settings.layoutBody id name (heading.over plan) content =
        (settings.layoutBody id name heading content).over (plan.enter entries) := by
  have hknown : ∀ plan, settings.isShort? (heading.draft.over plan) id =
      settings.isShort? heading.draft id := fun _ => rfl
  obtain ⟨stepped, hsteppedIds, hstepped⟩ :=
    hcontent (heading.indent + settings.indentSize) heading.draft
  obtain ⟨flush, hflushIds, hflush⟩ := hcontent heading.indent heading.draft
  unfold layoutBody
  simp only [Heading.over, hknown]
  split
  next =>
    cases settings.isShort? heading.draft id with
    | some short =>
        cases short with
        | true => exact ⟨stepped, hsteppedIds, hstepped⟩
        | false => exact ⟨flush, hflushIds, hflush⟩
    | none =>
        -- a trial finds out the same over any plan
        simp only [hstepped, Body.over_draft, Draft.over_cursor]
        generalize Nat.blt _ _ = fits
        cases fits with
        | true => exact ⟨stepped, hsteppedIds, fun plan => rfl⟩
        | false => exact hcontent heading.indent { heading.draft with
            short := ((content (heading.indent + settings.indentSize) heading.draft).draft.measure
              id false).short }
  next => exact ⟨flush, hflushIds, hflush⟩

/-- An element is decided about behind its content. -/
theorem finishElement_over (id : Nat) (heading : Heading) (content : Content) (body : Body)
    (entries : List (Nat × Decision)) :
    ∃ decision, ∀ plan, finishElement id (heading.over plan) content
      (body.over (plan.enter entries)) =
      (finishElement id heading content body).over (plan.enter (entries ++ [(id, decision)])) := by
  refine ⟨⟨heading.before, .nothing, heading.indent,
    .element heading.attributes heading.tagEnd content body.endTag⟩, fun plan => ?_⟩
  rw [Plan.enter_append]
  rfl

theorem heedless_content {children : List Node} {ids : List Nat}
    (hchildren : Progress.Heedless ids (settings.layoutNodes children)) (heading : Heading)
    (endTag : Option EndTag) :
    Body.Heedless ids fun indent draft => settings.layoutEnding heading endTag
      (settings.layoutNodes children ⟨draft, Flow.start indent (.start heading.block), []⟩) := by
  intro indent draft
  obtain ⟨entries, hids, hover⟩ := hchildren ⟨draft, Flow.start indent (.start heading.block), []⟩
  refine ⟨entries, hids, fun plan => ?_⟩
  rw [← settings.layoutEnding_over heading endTag _ heading.draft.plan, ← hover]
  rfl

mutual

theorem heedless_layoutNode (node : Node) :
    ∃ ids, Progress.Heedless ids (settings.layoutNode node) := by
  cases node with
  | leaf leaf =>
      refine ⟨[leaf.id], fun progress => ?_⟩
      simp only [layoutNode]
      exact settings.heedless_layoutLeaf leaf progress
  | element elem children =>
      obtain ⟨ids, hchildren⟩ := heedless_layoutNodes children
      cases hcontent : settings.contentOf elem.tag with
      | empty =>
          refine ⟨[elem.id], fun progress => ?_⟩
          let heading := settings.layoutHeading elem.tag children progress
          obtain ⟨decision, hfinish⟩ := finishElement_over elem.id heading .empty
            ⟨.nothing, [], false, heading.draft⟩ []
          refine ⟨[(elem.id, decision)], rfl, fun plan => ?_⟩
          simp only [layoutNode, hcontent, layoutHeading_over]
          exact hfinish plan
      | verbatim =>
          refine ⟨[elem.id], fun progress => ?_⟩
          let heading := settings.layoutHeading elem.tag children progress
          let preserved := elem.preserved children
          obtain ⟨decision, hfinish⟩ := finishElement_over elem.id heading .verbatim ⟨.nothing,
            preserved.2, false, heading.draft.moveTo (heading.draft.cursor.write preserved.1)⟩ []
          refine ⟨[(elem.id, decision)], rfl, fun plan => ?_⟩
          simp only [layoutNode, hcontent, layoutHeading_over]
          exact hfinish plan
      | formatted =>
          refine ⟨ids ++ [elem.id], fun progress => ?_⟩
          let heading := settings.layoutHeading elem.tag children progress
          let body := settings.layoutBody elem.id elem.name heading fun indent draft =>
            settings.layoutEnding heading elem.endTag
              (settings.layoutNodes children ⟨draft, Flow.start indent (.start heading.block), []⟩)
          obtain ⟨entries, hids, hover⟩ := settings.layoutBody_over elem.id elem.name heading
            (settings.heedless_content hchildren heading elem.endTag)
          obtain ⟨decision, hfinish⟩ := finishElement_over elem.id heading .formatted body entries
          refine ⟨entries ++ [(elem.id, decision)],
            by rw [List.map_append, hids]; rfl, fun plan => ?_⟩
          simp only [layoutNode, hcontent, layoutHeading_over]
          rw [← hfinish, ← hover]
          rfl

/-- Laying out nodes enters decisions about the same nodes every time, and what they are does not
depend on the plan. -/
theorem heedless_layoutNodes (nodes : List Node) :
    ∃ ids, Progress.Heedless ids (settings.layoutNodes nodes) := by
  cases nodes with
  | nil =>
      refine ⟨[], fun progress => ⟨[], rfl, fun plan => ?_⟩⟩
      simp only [layoutNodes]
      rfl
  | cons node rest =>
      obtain ⟨firstIds, hfirst⟩ := heedless_layoutNode node
      obtain ⟨otherIds, hothers⟩ := heedless_layoutNodes rest
      refine ⟨firstIds ++ otherIds, fun progress => ?_⟩
      obtain ⟨first, rfl, hnode⟩ := hfirst progress
      obtain ⟨others, rfl, hrest⟩ := hothers (settings.layoutNode node progress)
      refine ⟨first ++ others, List.map_append, fun plan => ?_⟩
      rw [layoutNodes, layoutNodes, hnode, hrest, Plan.enter_append]

end

end Settings

end Markup
