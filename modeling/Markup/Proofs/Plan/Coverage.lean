import Markup.Proofs.Output.Fitting
import Markup.Proofs.Output.Frame
import Markup.Proofs.Plan.Locating

/-!
# What is decided about

A node that is laid out gets a decision, and so does every node inside it, but for those inside an
element whose content is preserved. Content that is laid out a second time gets the same decisions
anew, so it is enough to know which decisions are added on the way. Of a part of a document this is
true for the run that a range selects; the one node outside the run that may get a decision is the
text in front of it, which is cut short where the run begins its line. Main statement:
`Settings.plan_covers`.
-/

namespace Markup

open Markup.Text

/-! ## Plans that grow -/

namespace Plan

/-- Decisions about these numbers have been added to a plan as far as it has room for them. Others
may have been changed, but none has been taken back. -/
structure Gains (ids : List Nat) (before after : Plan) : Prop where
  size : after.decisions.size = before.decisions.size
  decided : ∀ id, after.get? id ≠ none ↔
    before.get? id ≠ none ∨ id ∈ ids ∧ id < before.decisions.size

variable {ids others : List Nat} {before between after : Plan}

theorem Gains.refl (plan : Plan) : Gains [] plan plan :=
  ⟨rfl, by simp⟩

theorem Gains.trans (hfirst : Gains ids before between) (hsecond : Gains others between after) :
    Gains (ids ++ others) before after := by
  refine ⟨hsecond.size.trans hfirst.size, fun id => ?_⟩
  rw [hsecond.decided, hfirst.decided, hfirst.size, List.mem_append, or_and_right, or_assoc]

theorem Gains.of_perm (hgains : Gains ids before after) (hperm : ids.Perm others) :
    Gains others before after :=
  ⟨hgains.size, fun id => by rw [hgains.decided, hperm.mem_iff]⟩

theorem gains_decide (plan : Plan) (id : Nat) (decision : Decision) :
    Gains [id] plan (plan.decide id decision) := by
  refine ⟨Array.size_setIfInBounds, fun wanted => ?_⟩
  rw [get?_decide, List.mem_singleton]
  split
  next hhere => simp [← hhere.1, hhere.2]
  next hother =>
    refine ⟨.inl, fun hdecided => hdecided.resolve_right ?_⟩
    rintro ⟨rfl, hroom⟩
    exact hother ⟨rfl, hroom⟩

theorem gains_modify (plan : Plan) (id : Nat) (change : Decision → Decision) :
    Gains [] plan (plan.modify id change) := by
  refine ⟨size_modify plan id change, fun wanted => ?_⟩
  rw [get?_modify]
  split <;> simp

/-- The plan has decisions about the chosen ones of these nodes and those inside them, and about
nothing else. -/
def Covers (plan : Plan) (nodes : List Node) (Chosen : Node → Prop) : Prop :=
  ∀ id, plan.get? id ≠ none ↔ ∃ node ∈ Node.preorderAll nodes, Chosen node ∧ node.id = id

theorem Gains.covers {nodes : List Node} {Chosen : Node → Prop} {count : Nat} {plan : Plan}
    (hgains : Gains ids (Plan.empty count) plan)
    (hids : (Node.preorderAll nodes).map Node.id = List.range count)
    (hchosen : ∀ id, id ∈ ids ↔ ∃ node ∈ Node.preorderAll nodes, Chosen node ∧ node.id = id) :
    plan.Covers nodes Chosen := by
  intro id
  rw [hgains.decided, get?_empty, ← hchosen]
  refine ⟨fun hadded => (hadded.resolve_left (by simp)).1, fun hmem => .inr ⟨hmem, ?_⟩⟩
  obtain ⟨node, hnode, -, rfl⟩ := (hchosen id).mp hmem
  have hnumber : node.id ∈ (Node.preorderAll nodes).map Node.id := List.mem_map_of_mem hnode
  rw [hids, List.mem_range] at hnumber
  simpa [Plan.empty] using hnumber

end Plan

/-! ## Laying out nodes -/

/-- What has to become of the content behind a start tag: there is none behind a void element or one
that closes itself, and else it is copied if it is preserved and laid out if it is not. -/
structure Settings.Treats (settings : Settings) (tag : StartTag) (content : Content) : Prop where
  empty : content = .empty ↔ tag.standsAlone = true
  verbatim : content = .verbatim ↔ tag.standsAlone = false ∧ settings.preserves tag.name = true
  formatted : content = .formatted ↔ tag.standsAlone = false ∧ settings.preserves tag.name = false

namespace Settings

variable (settings : Settings)

theorem treats_contentOf (tag : StartTag) : settings.Treats tag (settings.contentOf tag) := by
  have hcontent : settings.contentOf tag =
      if tag.standsAlone = true then .empty
      else if settings.preserves tag.name = true then .verbatim else .formatted := rfl
  rw [hcontent]
  constructor
  all_goals cases tag.standsAlone <;> cases settings.preserves tag.name <;> simp

/-- Whether the inside of an element is laid out, if there is any. -/
def enters (elem : Element) : Bool :=
  !settings.preserves elem.name

theorem gains_layoutLeaf (leaf : Leaf) (progress : Progress) :
    Plan.Gains [leaf.id] progress.draft.plan (settings.layoutLeaf leaf progress).draft.plan := by
  unfold layoutLeaf
  split
  next =>
    unfold layoutText
    split <;> exact Plan.gains_decide _ _ _
  next => exact Plan.gains_decide _ _ _
  next => exact Plan.gains_decide _ _ _
  next => exact Plan.gains_decide _ _ _

theorem plan_layoutEnding (heading : Heading) (endTag : Option EndTag) (inner : Progress) :
    (settings.layoutEnding heading endTag inner).draft.plan = inner.draft.plan := by
  cases endTag <;> rfl

/-- An element is decided about behind its content. -/
theorem gains_finishElement {before : Plan} {ids : List Nat} {body : Body}
    (hgains : Plan.Gains ids before body.draft.plan) (id : Nat) (heading : Heading)
    (content : Content) :
    Plan.Gains (id :: ids) before (finishElement id heading content body).draft.plan :=
  (hgains.trans (Plan.gains_decide _ id _)).of_perm (List.perm_append_singleton id ids)

mutual

theorem gains_layoutNode (node : Node) (hsound : node.Sound) (progress : Progress) :
    Plan.Gains ((node.walk settings.enters).map Node.id) progress.draft.plan
      (settings.layoutNode node progress).draft.plan := by
  cases node with
  | leaf leaf =>
      rw [layoutNode]
      exact settings.gains_layoutLeaf leaf progress
  | element elem children =>
      obtain ⟨-, halone, hchildren⟩ := hsound
      have htreats := settings.treats_contentOf elem.tag
      have hheading : Plan.Gains [] progress.draft.plan
          (settings.layoutHeading elem.tag children progress).draft.plan := .refl _
      rw [layoutNode, Node.walk]
      cases hcontent : settings.contentOf elem.tag with
      | empty =>
          obtain ⟨rfl, -⟩ := halone (htreats.empty.mp hcontent)
          have hnone : (if settings.enters elem = true then Node.walkAll settings.enters []
              else []) = [] := by
            split <;> rfl
          rw [hnone]
          exact gains_finishElement hheading elem.id _ _
      | verbatim =>
          have hpassed : settings.enters elem = false := by
            simpa [enters, Element.name] using (htreats.verbatim.mp hcontent).2
          rw [if_neg (by simp [hpassed])]
          exact gains_finishElement hheading elem.id _ _
      | formatted =>
          have hentered : settings.enters elem = true := by
            simpa [enters, Element.name] using (htreats.formatted.mp hcontent).2
          rw [if_pos hentered]
          obtain ⟨indent, draft, -, -, hdraft, hplan⟩ := settings.layoutBody_eq elem.id
            elem.name (settings.layoutHeading elem.tag children progress) fun indent draft =>
              settings.layoutEnding (settings.layoutHeading elem.tag children progress) elem.endTag
                (settings.layoutNodes children ⟨draft, Flow.start indent
                  (.start (settings.layoutHeading elem.tag children progress).block), []⟩)
          have hinside := gains_layoutNodes children hchildren ⟨draft, Flow.start indent
            (.start (settings.layoutHeading elem.tag children progress).block), []⟩
          rw [hplan, ← settings.plan_layoutEnding
            (settings.layoutHeading elem.tag children progress) elem.endTag, ← hdraft] at hinside
          exact gains_finishElement hinside elem.id _ _

/-- Laying out nodes decides about them and about what is inside them, but for what is inside
preserved elements. -/
theorem gains_layoutNodes (nodes : List Node) (hsound : Node.SoundAll nodes) (progress : Progress) :
    Plan.Gains ((Node.walkAll settings.enters nodes).map Node.id) progress.draft.plan
      (settings.layoutNodes nodes progress).draft.plan := by
  cases nodes with
  | nil =>
      rw [layoutNodes]
      exact .refl _
  | cons node rest =>
      rw [layoutNodes, Node.walkAll, List.map_append]
      exact (gains_layoutNode node hsound.1 progress).trans (gains_layoutNodes rest hsound.2 _)

end

end Settings

/-! ## What is chosen -/

namespace Settings

variable {settings : Settings}

/-- No element around the node is preserved. -/
def Exposes (settings : Settings) (nodes : List Node) (node : Node) : Prop :=
  ∀ elem children, .element elem children ∈ Node.preorderAll nodes →
    node ∈ Node.preorderAll children → settings.preserves elem.name = false

/-- The nodes of a document that have to be decided about, all of them or those that concern a
range: the nodes of the run that it selects, and the text in front of a run that begins its line if
the line begins in that text. -/
def Chosen (settings : Settings) (document : Document) (range : Option Span) (node : Node) : Prop :=
  match range with
  | none => settings.Exposes document.children node
  | some given => ∃ selection,
      settings.select document (given.normalize document.source) = some selection ∧
        (node ∈ Node.preorderAll selection.nodes ∧ settings.Exposes document.children node ∨
          selection.before = some node ∧ selection.Leads document.source)

theorem mem_walkAll_enters_iff {nodes : List Node} (hnodup : (Node.preorderAll nodes).Nodup)
    {node : Node} : node ∈ Node.walkAll settings.enters nodes ↔
      node ∈ Node.preorderAll nodes ∧ settings.Exposes nodes node := by
  simp [Node.mem_walkAll_iff hnodup, Exposes, enters]

/-- What is come to in a run is come to from the top. -/
theorem Descends.walkAll_subset {range : Span} {selection : Selection} {container : Option Element}
    {nodes : List Node} (hdescends : settings.Descends range selection container nodes) :
    Node.walkAll settings.enters selection.nodes ⊆ Node.walkAll settings.enters nodes := by
  intro inner hmem
  induction hdescends with
  | here front back hmeets =>
      obtain ⟨node, hnode, hinner⟩ := Node.mem_walkAll.mp hmem
      exact Node.mem_walkAll.mpr ⟨node, by simp [hnode], hinner⟩
  | @inside container front elem children back hcontent hplain hinside ih =>
      have hthere : .element elem children ∈
          Node.walkAll settings.enters (front ++ .element elem children :: back) :=
        Node.mem_walkAll.mpr ⟨.element elem children, by simp, Node.mem_walk_self _ _⟩
      exact Node.inside_mem_walkAll hthere (by simp [enters, hplain]) ih

theorem Descends.preorderAll_subset {range : Span} {selection : Selection}
    {container : Option Element} {nodes : List Node}
    (hdescends : settings.Descends range selection container nodes) :
    Node.preorderAll selection.nodes ⊆ Node.preorderAll nodes := by
  intro inner hmem
  obtain ⟨node, hnode, hinner⟩ := Node.mem_preorderAll_iff.mp hmem
  exact Node.preorder_subset (hdescends.mem_preorderAll (List.mem_append_right _ hnode)) hinner

/-- In a run, the nodes that are come to are those with nothing preserved around them in all of the
document. -/
theorem Descends.mem_walkAll_iff {range : Span} {selection : Selection} {container : Option Element}
    {nodes : List Node} (hdescends : settings.Descends range selection container nodes)
    (hnodup : (Node.preorderAll nodes).Nodup) {node : Node} :
    node ∈ Node.walkAll settings.enters selection.nodes ↔
      node ∈ Node.preorderAll selection.nodes ∧ settings.Exposes nodes node := by
  constructor
  · intro hmem
    exact ⟨(Node.walkAll_sublist _ _).subset hmem,
      ((mem_walkAll_enters_iff hnodup).mp (hdescends.walkAll_subset hmem)).2⟩
  · rintro ⟨hmem, hexposed⟩
    refine Node.mem_walkAll_of_entered hmem fun elem children helem hwithin => ?_
    simpa [enters] using hexposed elem children (hdescends.preorderAll_subset helem) hwithin

/-! ## What a plan covers -/

theorem gains_layoutSelection {text : List Char} {document : Document} {range : Span}
    {selection : Selection} (hparse : parse text = .ok document)
    (hselect : settings.select document range = some selection) :
    Plan.Gains ((Node.walkAll settings.enters selection.nodes).map Node.id ++
        (leadOf document selection).toList.map Leaf.id) (Plan.empty document.count)
      (settings.layoutSelection document selection) := by
  have hsound := (Node.soundAll_append.mp (stands_of_select hparse hselect).sound).2
  have hlaid : Plan.Gains ((Node.walkAll settings.enters selection.nodes).map Node.id)
      (Plan.empty document.count) (settings.laidRun document selection).draft.plan :=
    settings.gains_layoutNodes selection.nodes hsound
      ⟨Draft.start (settings.runStage document selection).cursor document.count,
        (settings.runStage document selection).flow, []⟩
  have hbehind : Plan.Gains ((Node.walkAll settings.enters selection.nodes).map Node.id)
      (Plan.empty document.count) (settings.planBehind document selection) := by
    unfold planBehind
    split
    next => exact hlaid
    next => simpa using hlaid.trans (Plan.gains_modify _ _ _)
  rw [layoutSelection_eq]
  cases leadOf document selection with
  | none => simpa using hbehind
  | some leaf =>
      simpa using hbehind.trans ((Plan.gains_decide _ _ _).trans (Plan.gains_modify _ _ _))

variable {text : List Char} {document : Document}

theorem covers_layoutDocument (settings : Settings) (hparse : parse text = .ok document) :
    (settings.layoutDocument document).Covers document.children
      (settings.Chosen document none) := by
  have hnodup := Document.nodup_preorderAll_of_parse hparse
  have hlaid := settings.gains_layoutNodes document.children (Document.sound_of_parse hparse)
    ⟨Draft.start .origin document.count, Flow.start 0 (.start false), []⟩
  have hgains : Plan.Gains ((Node.walkAll settings.enters document.children).map Node.id)
    (Plan.empty document.count) (settings.layoutDocument document) := ⟨hlaid.size, hlaid.decided⟩
  refine hgains.covers (Document.map_id_of_parse hparse) fun id => ?_
  simp [mem_walkAll_enters_iff hnodup, Chosen, and_assoc]

theorem covers_layoutSelection {given : Span} {selection : Selection}
    (hparse : parse text = .ok document)
    (hselect : settings.select document (given.normalize document.source) = some selection) :
    (settings.layoutSelection document selection).Covers document.children
      (settings.Chosen document (some given)) := by
  have hnodup := Document.nodup_preorderAll_of_parse hparse
  have hdescends : settings.Descends (given.normalize document.source) selection none
      document.children :=
    descends_selectAmong [] (by simp) hselect
  obtain ⟨front, back, -, hfills, -⟩ := exists_render_selection hparse hselect
  rw [← Document.source_of_parse hparse] at hfills
  have hlead : ∀ node, selection.before = some node ∧ selection.Leads document.source ↔
      ∃ leaf, leadOf document selection = some leaf ∧ .leaf leaf = node := by
    intro node
    rw [hfills.leads_iff]
    constructor
    · rintro ⟨hbefore, leaf, hleaf⟩
      have hfound := (leadOf_eq_some_iff.mp hleaf).2.1
      exact ⟨leaf, hleaf, Option.some.inj (hfound.symm.trans hbefore)⟩
    · rintro ⟨leaf, hleaf, rfl⟩
      exact ⟨(leadOf_eq_some_iff.mp hleaf).2.1, leaf, hleaf⟩
  have hrun : ∀ node, node ∈ Node.walkAll settings.enters selection.nodes ↔
      node ∈ Node.preorderAll selection.nodes ∧ settings.Exposes document.children node :=
    fun node => hdescends.mem_walkAll_iff hnodup
  refine (gains_layoutSelection hparse hselect).covers
    (Document.map_id_of_parse hparse) fun id => ?_
  rw [List.mem_append, List.mem_map, List.mem_map]
  constructor
  · rintro (⟨node, hnode, rfl⟩ | ⟨leaf, hleaf, rfl⟩)
    · have hin := (hrun node).mp hnode
      exact ⟨node, hdescends.preorderAll_subset hin.1, ⟨selection, hselect, .inl hin⟩, rfl⟩
    · have hbefore := (hlead (.leaf leaf)).mpr ⟨leaf, Option.mem_toList.mp hleaf, rfl⟩
      exact ⟨.leaf leaf, hdescends.mem_preorderAll (by simp [hbefore.1]),
        ⟨selection, hselect, .inr hbefore⟩, rfl⟩
  · rintro ⟨node, -, ⟨found, hfound, hchosen⟩, rfl⟩
    obtain rfl := Option.some.inj (hfound.symm.trans hselect)
    rcases hchosen with hin | hbefore
    · exact .inl ⟨node, (hrun node).mpr hin, rfl⟩
    · obtain ⟨leaf, hleaf, rfl⟩ := (hlead node).mp hbefore
      exact .inr ⟨leaf, Option.mem_toList.mpr hleaf, rfl⟩

end Settings

/-! ## What is decided -/

theorem Layout.SuitsLeaf.fits {layout : Layout} {leaf : Leaf} (hsuits : layout.SuitsLeaf leaf) :
    layout.Fits (.leaf leaf) := by
  cases hsuits with
  | text hkind hlength hblank =>
      refine .text hkind (hlength.trans ?_)
      cases Run.ofText leaf.raw <;> simp [Run.gaps, Run.wordList]
  | atom hkind => exact .atom hkind

namespace Plan

variable {plan : Plan} {settings : Settings}

/-- What is decided about a node can be written, and does with the content of an element what has to
be done. -/
def Answers (plan : Plan) (settings : Settings) (node : Node) : Prop :=
  ∀ decision, plan.get? node.id = some decision → decision.layout.Fits node ∧
    ∀ elem children, node = .element elem children → ∃ attributes tagEnd content endTag,
      decision.layout = .element attributes tagEnd content endTag ∧ settings.Treats elem.tag content

mutual

theorem Suits.answers {node inner : Node} (hsuits : plan.Suits settings node)
    (hmem : inner ∈ node.preorder) : plan.Answers settings inner := by
  cases node with
  | leaf leaf =>
      obtain rfl := List.mem_singleton.mp hmem
      exact fun decision hdecision => ⟨(hsuits decision hdecision).layout.fits, nofun⟩
  | element elem children =>
      obtain ⟨hown, -, hchildren⟩ := hsuits
      rcases List.mem_cons.mp hmem with rfl | hinside
      · intro decision hdecision
        have hlayout := (hown decision hdecision).layout
        generalize decision.layout = layout at hlayout
        cases hlayout with
        | @element attributes tagEnd endTag hlength hgaps hend hclose =>
            refine ⟨.element hlength, fun other inside heq => ?_⟩
            obtain ⟨rfl, rfl⟩ := Node.element.inj heq
            exact ⟨attributes, tagEnd, _, endTag, rfl, settings.treats_contentOf elem.tag⟩
      · exact SuitsAll.answers hchildren hinside

theorem SuitsAll.answers {nodes : List Node} {inner : Node} (hsuits : plan.SuitsAll settings nodes)
    (hmem : inner ∈ Node.preorderAll nodes) : plan.Answers settings inner := by
  cases nodes with
  | nil => cases hmem
  | cons node rest =>
      rcases List.mem_append.mp hmem with hfirst | hrest
      · exact Suits.answers hsuits.1 hfirst
      · exact SuitsAll.answers hsuits.2 hrest

end

end Plan

namespace Settings

/-- Planning decides about the nodes that have to be decided about and about nothing else: without a
range, those with nothing preserved around them, and with a range, those of the selected run of
which the same is true, and the text in front of it where the run begins its line in that text. Each
decision fits its node, and has the content of an element left out, copied or laid out as its start
tag and the settings ask. -/
theorem plan_covers {settings : Settings} {text : List Char} {document : Document}
    (hcheck : settings.check = .ok ()) (hparse : parse text = .ok document) (range : Option Span) :
    ∃ plan, settings.plan document range = .ok plan ∧
      plan.Covers document.children (settings.Chosen document range) ∧
      ∀ node ∈ Node.preorderAll document.children, plan.Answers settings node := by
  obtain ⟨plan, hplan, hsuits, -⟩ := exists_plan hcheck hparse range
  refine ⟨plan, hplan, ?_, fun node hmem => hsuits.answers hmem⟩
  unfold Settings.plan at hplan
  rw [hcheck] at hplan
  cases range with
  | none =>
      obtain rfl := Except.ok.inj hplan
      exact settings.covers_layoutDocument hparse
  | some given =>
      cases hselect : settings.select document (given.normalize document.source) with
      | none =>
          simp only [bind, Except.bind, hselect] at hplan
          obtain rfl := Except.ok.inj hplan
          intro id
          simp [Plan.get?_empty, Chosen, hselect]
      | some selection =>
          simp only [bind, Except.bind, hselect] at hplan
          obtain rfl := Except.ok.inj hplan
          exact covers_layoutSelection hparse hselect

/-- The run is the division, which begins its line. The text in front of it gets a decision as well,
the text in the preformatted element does not. -/
theorem plan_covers_led_run :
    let text := "a\n <div>b<pre>c</pre></div>".toList
    ∃ document plan, parse text = .ok document ∧ Settings.plan {} document (some ⟨3, 5⟩) =
      .ok plan ∧ plan.Covers document.children (Settings.Chosen {} document (some ⟨3, 5⟩)) ∧
      (∀ node ∈ Node.preorderAll document.children, plan.Answers {} node) ∧
      (List.range document.count).map (fun id => (plan.get? id).isSome) =
        [true, true, true, true, false] := by
  intro text
  let kept : Element :=
    ⟨3, ⟨"pre".toList, [], [], .plain⟩, some ⟨"pre".toList, "</pre>".toList⟩, ⟨9, 14⟩, ⟨15, 21⟩⟩
  let division : Element :=
    ⟨1, ⟨"div".toList, [], [], .plain⟩, some ⟨"div".toList, "</div>".toList⟩, ⟨3, 8⟩, ⟨21, 27⟩⟩
  let document : Document := ⟨text, [.leaf ⟨.text, 0, "a\n ".toList, ⟨0, 3⟩⟩,
    .element division [.leaf ⟨.text, 2, "b".toList, ⟨8, 9⟩⟩,
      .element kept [.leaf ⟨.text, 4, "c".toList, ⟨14, 15⟩⟩]]], 5, []⟩
  have hparse : parse text = .ok document := by with_unfolding_all rfl
  obtain ⟨plan, hplan, hcovers, hanswers⟩ :=
    @plan_covers {} text document (by decide) hparse (some ⟨3, 5⟩)
  have hdecided : (Settings.plan {} document (some ⟨3, 5⟩)).toOption.map (fun plan =>
      (List.range document.count).map fun id => (plan.get? id).isSome) =
        some [true, true, true, true, false] := by
    decide +kernel
  rw [hplan] at hdecided
  exact ⟨document, plan, hparse, hplan, hcovers, hanswers, Option.some.inj hdecided⟩

end Settings

end Markup
