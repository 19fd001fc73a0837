import Markup.Proofs.Plan.Gaps
import Markup.Proofs.Plan.Table
import Markup.Proofs.Text.Words
import Markup.Proofs.Tree.Numbering
import Markup.Proofs.Tree.Soundness

/-!
# Decisions suit their nodes

Laying out nodes decides about those nodes and no others. Every decision can be written where it
stands, puts nothing but blanks, and copies an element as a whole exactly where its content is
preserved; inside such an element nothing is decided.
-/

namespace Markup

open Markup.Text

/-- The elements without content are those that end with their start tags. -/
theorem Settings.contentOf_eq_empty_iff {settings : Settings} {tag : StartTag} :
    settings.contentOf tag = .empty ↔ tag.standsAlone = true := by
  unfold contentOf StartTag.standsAlone
  split
  next halone => simp [halone]
  next halone =>
    simp only [Bool.not_eq_true] at halone
    rw [halone]
    split <;> simp

theorem Settings.contentOf_of_takesRawText {settings : Settings} {tag : StartTag}
    (hraw : tag.takesRawText = true) : settings.contentOf tag = .verbatim := by
  simp only [StartTag.takesRawText, Bool.and_eq_true, decide_eq_true_eq, Bool.not_eq_true'] at hraw
  obtain ⟨⟨hending, hvoid⟩, hraw⟩ := hraw
  simp [contentOf, hending, hvoid, preserves, hraw]

/-- A layout of a leaf with a gap between any two words. -/
inductive Layout.SuitsLeaf (leaf : Leaf) : Layout → Prop
  | text {gaps : List Gap} : leaf.kind = .text →
      gaps.length = (Run.ofText leaf.raw).gaps.length → (∀ gap ∈ gaps, gap.Blank) →
        SuitsLeaf leaf (.text gaps)
  | atom : leaf.kind ≠ .text → SuitsLeaf leaf .atom

/-- A layout of an element with a gap in front of each attribute. -/
inductive Layout.SuitsElement (settings : Settings) (elem : Element) : Layout → Prop
  | element {attributes : List AttributeLayout} {tagEnd endTag : Gap} :
      attributes.length = elem.tag.attributes.length → (∀ layout ∈ attributes, layout.gap.Blank) →
        tagEnd.Blank → endTag.Blank →
          SuitsElement settings elem
            (.element attributes tagEnd (settings.contentOf elem.tag) endTag)

/-- A decision between blank gaps. -/
structure Decision.Suits (decision : Decision) (Fits : Layout → Prop) : Prop where
  before : decision.before.Blank
  after : decision.after.Blank
  layout : Fits decision.layout

namespace Plan

mutual

/-- What the plan decides about a node and inside it suits. -/
def Suits (plan : Plan) (settings : Settings) : Node → Prop
  | .leaf leaf =>
      ∀ decision, plan.get? leaf.id = some decision → decision.Suits (Layout.SuitsLeaf leaf)
  | .element elem children =>
      (∀ decision, plan.get? elem.id = some decision →
        decision.Suits (Layout.SuitsElement settings elem)) ∧
        (settings.contentOf elem.tag = .verbatim →
          ∀ id ∈ Node.idsOfAll children, plan.get? id = none) ∧
          SuitsAll plan settings children

def SuitsAll (plan : Plan) (settings : Settings) : List Node → Prop
  | [] => True
  | node :: rest => Suits plan settings node ∧ SuitsAll plan settings rest

end

variable {plan other : Plan} {settings : Settings}

/-- What another plan decides about a node suits whatever the decision of this plan suits. -/
def Weakens (plan other : Plan) (id : Nat) : Prop :=
  ∀ found, other.get? id = some found → ∃ decision, plan.get? id = some decision ∧
    ∀ Fits, decision.Suits Fits → found.Suits Fits

theorem weakens_of_eq {id : Nat} (heq : other.get? id = plan.get? id) : plan.Weakens other id :=
  fun found hfound => ⟨found, heq ▸ hfound, fun _ hsuits => hsuits⟩

theorem Weakens.eq_none {id : Nat} (hweakens : plan.Weakens other id)
    (hnone : plan.get? id = none) : other.get? id = none := by
  cases hfound : other.get? id with
  | none => rfl
  | some found =>
      obtain ⟨decision, hdecision, -⟩ := hweakens found hfound
      simp [hnone] at hdecision

mutual

theorem Suits.mono {node : Node} (hsuits : plan.Suits settings node)
    (hweakens : ∀ id ∈ node.ids, plan.Weakens other id) : other.Suits settings node := by
  cases node with
  | leaf leaf =>
      intro found hfound
      obtain ⟨decision, hdecision, hfits⟩ := hweakens leaf.id (by simp) found hfound
      exact hfits _ (hsuits decision hdecision)
  | element elem children =>
      obtain ⟨hown, hsealed, hchildren⟩ := hsuits
      have hinside : ∀ id ∈ Node.idsOfAll children, plan.Weakens other id :=
        fun id hmem => hweakens id (by simp [hmem])
      refine ⟨fun found hfound => ?_, fun hverbatim id hmem => ?_, SuitsAll.mono hchildren hinside⟩
      · obtain ⟨decision, hdecision, hfits⟩ := hweakens elem.id (by simp) found hfound
        exact hfits _ (hown decision hdecision)
      · exact (hinside id hmem).eq_none (hsealed hverbatim id hmem)

/-- Whether a plan suits nodes depends on what it decides about them alone. -/
theorem SuitsAll.mono {nodes : List Node} (hsuits : plan.SuitsAll settings nodes)
    (hweakens : ∀ id ∈ Node.idsOfAll nodes, plan.Weakens other id) :
    other.SuitsAll settings nodes := by
  cases nodes with
  | nil => trivial
  | cons node rest =>
      exact ⟨Suits.mono hsuits.1 fun id hmem => hweakens id (by simp [hmem]),
        SuitsAll.mono hsuits.2 fun id hmem => hweakens id (by simp [hmem])⟩

end

mutual

theorem suits_of_undecided (settings : Settings) {node : Node}
    (hnone : ∀ id ∈ node.ids, plan.get? id = none) : plan.Suits settings node := by
  cases node with
  | leaf leaf =>
      intro decision hdecision
      simp [hnone leaf.id (by simp)] at hdecision
  | element elem children =>
      have hinside : ∀ id ∈ Node.idsOfAll children, plan.get? id = none :=
        fun id hmem => hnone id (by simp [hmem])
      refine ⟨fun decision hdecision => ?_, fun _ => hinside,
        suitsAll_of_undecided settings hinside⟩
      simp [hnone elem.id (by simp)] at hdecision

/-- A plan that decides nothing about nodes suits them. -/
theorem suitsAll_of_undecided (settings : Settings) {nodes : List Node}
    (hnone : ∀ id ∈ Node.idsOfAll nodes, plan.get? id = none) : plan.SuitsAll settings nodes := by
  cases nodes with
  | nil => trivial
  | cons node rest =>
      exact ⟨suits_of_undecided settings fun id hmem => hnone id (by simp [hmem]),
        suitsAll_of_undecided settings fun id hmem => hnone id (by simp [hmem])⟩

end

theorem suitsAll_append {first second : List Node} :
    plan.SuitsAll settings (first ++ second) ↔
      plan.SuitsAll settings first ∧ plan.SuitsAll settings second := by
  induction first with
  | nil => simp [SuitsAll]
  | cons node rest ih => simp [SuitsAll, ih, and_assoc]

end Plan

namespace Settings

open Plan

variable (settings : Settings)

/-! ## What laying out nodes does to a plan -/

/-- Nodes have been laid out between two stages of planning: blanks have been handed on, the nodes
and no others have been decided about, and what is decided suits them. -/
structure Laid (nodes : List Node) (before after : Progress) : Prop where
  blanks : allBlank after.blanks = true
  frame : ∀ id, id ∉ Node.idsOfAll nodes → after.draft.plan.get? id = before.draft.plan.get? id
  suits : after.draft.plan.SuitsAll settings nodes
  ending : after.draft.plan.ending = before.draft.plan.ending

/-- A stage of planning at which nothing is decided about these nodes yet. -/
structure Ready (nodes : List Node) (progress : Progress) : Prop where
  blanks : allBlank progress.blanks = true
  clear : ∀ id ∈ Node.idsOfAll nodes, progress.draft.plan.get? id = none

theorem laid_layoutAtom {leaf : Leaf} (hkind : leaf.kind ≠ .text) (kind : Following)
    {progress : Progress} (hready : Ready [.leaf leaf] progress) :
    settings.Laid [.leaf leaf] progress (settings.layoutAtom leaf kind progress) := by
  have hclear : progress.draft.plan.get? leaf.id = none := hready.clear leaf.id (by simp)
  have hgap := settings.blank_separate progress.draft.cursor progress.flow kind
    (firstLine leaf.raw).length hready.blanks
  refine ⟨rfl, fun id hmem => ?_, ⟨fun decision hdecision => ?_, trivial⟩, rfl⟩
  · exact get?_decide_of_ne (fun heq => hmem (by simp [heq])) _
  · obtain rfl := eq_of_get?_decide hclear hdecision
    exact ⟨hgap, Gap.blank_nothing, .atom hkind⟩

theorem laid_layoutText {leaf : Leaf} (hkind : leaf.kind = .text) {progress : Progress}
    (hready : Ready [.leaf leaf] progress) :
    settings.Laid [.leaf leaf] progress (settings.layoutText leaf progress) := by
  have hclear : progress.draft.plan.get? leaf.id = none := hready.clear leaf.id (by simp)
  have hproper := Run.proper_ofText leaf.raw
  have hlayout : ∀ gaps : List Gap, gaps.length = (Run.ofText leaf.raw).gaps.length →
      (∀ gap ∈ gaps, gap.Blank) → Layout.SuitsLeaf leaf (.text gaps) :=
    fun gaps hlength hblank => .text hkind hlength hblank
  unfold layoutText
  cases hrun : Run.ofText leaf.raw with
  | blank leading =>
      rw [hrun] at hproper hlayout
      have hleading : allBlank leading = true := hproper
      refine ⟨by simp [hready.blanks, hleading], fun id hmem => ?_,
        ⟨fun decision hdecision => ?_, trivial⟩, rfl⟩
      · exact get?_decide_of_ne (fun heq => hmem (by simp [heq])) _
      · obtain rfl := eq_of_get?_decide hclear hdecision
        exact ⟨Gap.blank_nothing, Gap.blank_nothing, hlayout [] rfl (by simp)⟩
  | words leading first rest trailing =>
      rw [hrun] at hproper hlayout
      obtain ⟨hleading, -, hrest, htrailing⟩ := hproper
      have hblanks : allBlank (progress.blanks ++ leading) = true := by
        simp [hready.blanks, hleading]
      have hgap := settings.blank_separate progress.draft.cursor progress.flow .inline
        first.width hblanks
      refine ⟨htrailing, fun id hmem => ?_, ⟨fun decision hdecision => ?_, trivial⟩, rfl⟩
      · exact get?_decide_of_ne (fun heq => hmem (by simp [heq])) _
      · obtain rfl := eq_of_get?_decide hclear hdecision
        have hwords := fun continuation cursor => settings.layoutWords_spec continuation cursor
          first.width (rest.map fun parted => (parted.1, parted.2.width)) (by
            intro parted hmem
            obtain ⟨source, hsource, rfl⟩ := List.mem_map.mp hmem
            exact (hrest source hsource).2.1)
        exact ⟨hgap, Gap.blank_nothing, hlayout _ (by rw [(hwords _ _).1]; simp [Run.gaps])
          (hwords _ _).2⟩

theorem laid_layoutLeaf (leaf : Leaf) {progress : Progress}
    (hready : Ready [.leaf leaf] progress) :
    settings.Laid [.leaf leaf] progress (settings.layoutLeaf leaf progress) := by
  unfold layoutLeaf
  split
  next hkind => exact settings.laid_layoutText hkind hready
  next hkind => exact settings.laid_layoutAtom (by simp [hkind]) _ hready
  next hkind => exact settings.laid_layoutAtom (by simp [hkind]) _ hready
  next hkind => exact settings.laid_layoutAtom (by simp [hkind]) _ hready

/-! ## Elements -/

/-- The start of an element that has been laid out, with nothing decided yet. -/
structure Heading.Suits (heading : Heading) (elem : Element) (progress : Progress) : Prop where
  before : heading.before.Blank
  attributes : heading.attributes.length = elem.tag.attributes.length
  gaps : ∀ layout ∈ heading.attributes, layout.gap.Blank
  tagEnd : heading.tagEnd.Blank
  plan : heading.draft.plan = progress.draft.plan

theorem suits_layoutHeading (elem : Element) (children : List Node) {progress : Progress}
    (hblanks : allBlank progress.blanks = true) :
    Heading.Suits (settings.layoutHeading elem.tag children progress) elem progress := by
  unfold layoutHeading
  dsimp only
  generalize (if (!settings.isInline elem.tag.name) = true then Following.block else .inline) = kind
  generalize (if (!settings.isInline elem.tag.name) = true then 0
    else settings.leadingWidth lookahead elem.tag children) = width
  have hgap := settings.blank_separate progress.draft.cursor progress.flow kind width hblanks
  generalize settings.separate progress.draft.cursor progress.flow progress.blanks kind width =
    separated at hgap ⊢
  generalize (if separated.2.1.blank = true then separated.2.1.column
    else separated.2.2.indent) = indent
  obtain ⟨hlength, hlayouts, htagEnd⟩ :=
    settings.layoutStartTag_spec elem.tag indent separated.2.1
  exact ⟨hgap, hlength, hlayouts, htagEnd, rfl⟩

/-- However often the content of an element is laid out, one layout of it stands, made from the plan
behind the start tag. -/
theorem layoutBody_eq (id : Nat) (name : List Char) (heading : Heading)
    (content : Nat → Draft → Body) :
    ∃ indent draft,
      (settings.layoutBody id name heading content).endTag = (content indent draft).endTag ∧
        (settings.layoutBody id name heading content).blanks = (content indent draft).blanks ∧
          (settings.layoutBody id name heading content).draft.plan =
            (content indent draft).draft.plan ∧ draft.plan = heading.draft.plan := by
  unfold layoutBody
  dsimp only
  split
  next =>
    split
    next => exact ⟨_, heading.draft, rfl, rfl, rfl, rfl⟩
    next => exact ⟨_, heading.draft, rfl, rfl, rfl, rfl⟩
    next =>
      split
      next => exact ⟨_, heading.draft, rfl, rfl, rfl, rfl⟩
      next => exact ⟨_, ⟨heading.draft.cursor, heading.draft.plan, _⟩, rfl, rfl, rfl, rfl⟩
  next => exact ⟨_, heading.draft, rfl, rfl, rfl, rfl⟩

theorem layoutEnding_spec (heading : Heading) (endTag : Option EndTag) {inner : Progress}
    (hblanks : allBlank inner.blanks = true) :
    (settings.layoutEnding heading endTag inner).endTag.Blank ∧
      allBlank (settings.layoutEnding heading endTag inner).blanks = true ∧
        (settings.layoutEnding heading endTag inner).draft.plan = inner.draft.plan := by
  cases endTag with
  | none => exact ⟨Gap.blank_nothing, hblanks, rfl⟩
  | some tag => exact ⟨settings.blank_closingGap _ _ _ _ hblanks, rfl, rfl⟩

/-- An element whose content has been laid out, and decided about or not as its kind demands. -/
theorem laid_finishElement {elem : Element} {children : List Node} {heading : Heading} {body : Body}
    {progress : Progress} {content : Content} (hcontent : settings.contentOf elem.tag = content)
    (hready : Ready [.element elem children] progress)
    (hnodup : (Node.idsOfAll [.element elem children]).Nodup)
    (hheading : Heading.Suits heading elem progress)
    (hblanks : allBlank body.blanks = true) (hendTag : body.endTag.Blank)
    (hframe : ∀ id, id ∉ Node.idsOfAll children →
      body.draft.plan.get? id = progress.draft.plan.get? id)
    (hsealed : content = .verbatim →
      ∀ id ∈ Node.idsOfAll children, body.draft.plan.get? id = none)
    (hsuits : body.draft.plan.SuitsAll settings children)
    (hending : body.draft.plan.ending = progress.draft.plan.ending) :
    settings.Laid [.element elem children] progress
      (finishElement elem.id heading content body) := by
  subst hcontent
  have hfresh : elem.id ∉ Node.idsOfAll children := by
    simp only [Node.idsOfAll_cons, Node.ids_element, Node.idsOfAll_nil, List.append_nil,
      List.nodup_cons] at hnodup
    exact hnodup.1
  have hclear : body.draft.plan.get? elem.id = none := by
    rw [hframe elem.id hfresh]
    exact hready.clear elem.id (by simp)
  have hinside : ∀ id ∈ Node.idsOfAll children, ∀ decision,
      (body.draft.plan.decide elem.id decision).get? id = body.draft.plan.get? id :=
    fun id hmem decision => get?_decide_of_ne (by rintro rfl; exact hfresh hmem) decision
  refine ⟨hblanks, fun id hmem => ?_, ⟨⟨fun decision hdecision => ?_, fun hverbatim id hmem => ?_,
    hsuits.mono fun id hmem => weakens_of_eq (hinside id hmem _)⟩, trivial⟩, hending⟩
  · simp only [Node.idsOfAll_cons, Node.ids_element, Node.idsOfAll_nil, List.append_nil,
      List.mem_cons, not_or] at hmem
    exact (get?_decide_of_ne (Ne.symm hmem.1) _).trans (hframe id hmem.2)
  · obtain rfl := eq_of_get?_decide hclear hdecision
    exact ⟨hheading.before, Gap.blank_nothing,
      .element hheading.attributes hheading.gaps hheading.tagEnd hendTag⟩
  · exact (hinside id hmem _).trans (hsealed hverbatim id hmem)

theorem laid_cons {node : Node} {rest : List Node} {before between after : Progress}
    (hnodup : (Node.idsOfAll (node :: rest)).Nodup) (hfirst : settings.Laid [node] before between)
    (hrest : settings.Laid rest between after) : settings.Laid (node :: rest) before after := by
  have hdisjoint := (List.nodup_append.mp hnodup).2.2
  have hsame : ∀ id ∈ node.ids, after.draft.plan.get? id = between.draft.plan.get? id :=
    fun id hmem => hrest.frame id fun hother => hdisjoint id hmem id hother rfl
  refine ⟨hrest.blanks, fun id hmem => ?_,
    ⟨hfirst.suits.1.mono fun id hmem => weakens_of_eq (hsame id hmem), hrest.suits⟩,
    hrest.ending.trans hfirst.ending⟩
  rw [Node.idsOfAll_cons, List.mem_append, not_or] at hmem
  exact (hrest.frame id hmem.2).trans (hfirst.frame id (by simpa using hmem.1))

theorem blank_preserved (elem : Element) (children : List Node) :
    allBlank (elem.preserved children).2 = true := by
  unfold Element.preserved
  split
  next => rfl
  next => exact splitTail_blank _

mutual

theorem laid_layoutNode (node : Node) {progress : Progress} (hready : Ready [node] progress)
    (hnodup : (Node.idsOfAll [node]).Nodup) :
    settings.Laid [node] progress (settings.layoutNode node progress) := by
  cases node with
  | leaf leaf =>
      rw [layoutNode]
      exact settings.laid_layoutLeaf leaf hready
  | element elem children =>
      have hheading := settings.suits_layoutHeading elem children hready.blanks
      have hclear : ∀ id ∈ Node.idsOfAll children, progress.draft.plan.get? id = none :=
        fun id hmem => hready.clear id (by simp [hmem])
      have hfresh : elem.id ∉ Node.idsOfAll children ∧ (Node.idsOfAll children).Nodup := by
        simpa using hnodup
      have hundecided := suitsAll_of_undecided settings hclear
      rw [layoutNode]
      cases hcontent : settings.contentOf elem.tag with
      | empty =>
          apply settings.laid_finishElement hcontent hready hnodup hheading rfl Gap.blank_nothing
          · exact fun _ _ => rfl
          · simp
          · exact hundecided
          · exact congrArg Plan.ending hheading.plan
      | verbatim =>
          apply settings.laid_finishElement hcontent hready hnodup hheading
            (blank_preserved elem children) Gap.blank_nothing
          · exact fun _ _ => rfl
          · exact fun _ => hclear
          · exact hundecided
          · exact congrArg Plan.ending hheading.plan
      | formatted =>
          obtain ⟨indent, draft, hendTag, hblanks, hdraft, hplan⟩ := settings.layoutBody_eq elem.id
            elem.name (settings.layoutHeading elem.tag children progress) fun indent draft =>
              settings.layoutEnding (settings.layoutHeading elem.tag children progress) elem.endTag
                (settings.layoutNodes children ⟨draft, Flow.start indent
                  (.start (settings.layoutHeading elem.tag children progress).block), []⟩)
          have hplan : draft.plan = progress.draft.plan := hplan.trans hheading.plan
          have hinner : Ready children ⟨draft, Flow.start indent
              (.start (settings.layoutHeading elem.tag children progress).block), []⟩ :=
            ⟨rfl, by rw [hplan]; exact hclear⟩
          have hlaid := laid_layoutNodes children hinner hfresh.2
          obtain ⟨hendingGap, hendingBlanks, hendingPlan⟩ := settings.layoutEnding_spec
            (settings.layoutHeading elem.tag children progress) elem.endTag hlaid.blanks
          apply settings.laid_finishElement hcontent hready hnodup hheading
          · rw [hblanks]; exact hendingBlanks
          · rw [hendTag]; exact hendingGap
          · intro id hmem
            rw [hdraft, hendingPlan, hlaid.frame id hmem, hplan]
          · simp
          · rw [hdraft, hendingPlan]
            exact hlaid.suits
          · rw [hdraft, hendingPlan, hlaid.ending, hplan]

/-- Laying out nodes decides about them alone, and what it decides suits them. -/
theorem laid_layoutNodes (nodes : List Node) {progress : Progress} (hready : Ready nodes progress)
    (hnodup : (Node.idsOfAll nodes).Nodup) :
    settings.Laid nodes progress (settings.layoutNodes nodes progress) := by
  cases nodes with
  | nil =>
      rw [layoutNodes]
      exact ⟨hready.blanks, fun _ _ => rfl, trivial, rfl⟩
  | cons node rest =>
      have hnodes : (node.ids ++ Node.idsOfAll rest).Nodup := hnodup
      have hparts := List.nodup_append.mp hnodes
      have hnode : Ready [node] progress := by
        refine ⟨hready.blanks, fun id hmem => hready.clear id ?_⟩
        simp only [Node.idsOfAll_cons, Node.idsOfAll_nil, List.append_nil] at hmem
        exact List.mem_append_left _ hmem
      have hfirst := laid_layoutNode node hnode (by simpa using hparts.1)
      have hbetween : Ready rest (settings.layoutNode node progress) := by
        refine ⟨hfirst.blanks, fun id hmem => ?_⟩
        rw [hfirst.frame id fun hnode => hparts.2.2 id (by simpa using hnode) id hmem rfl]
        exact hready.clear id (by simp [hmem])
      rw [layoutNodes]
      exact settings.laid_cons hnodup hfirst (laid_layoutNodes rest hbetween hparts.2.1)

end

end Settings

end Markup
