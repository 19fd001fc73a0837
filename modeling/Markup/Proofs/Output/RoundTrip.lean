import Markup.Output.Rendering
import Markup.Proofs.Plan.Table
import Markup.Proofs.Tree.Extent

/-!
# What is not planned is reproduced

A plan of any origin leaves alone what it does not decide: where no node of a subtree has a
decision, the subtree is written as the source that its root spans. With the empty plan that is the
whole source, malformed or not.
-/

namespace Markup

open Markup.Text

theorem joinPieces_fragmentPieces (pieces : List Fragment) :
    joinPieces (fragmentPieces pieces) = pieces.flatMap Fragment.raw := by
  induction pieces with
  | nil => rfl
  | cons piece rest ih =>
      simp only [fragmentPieces, List.flatMap_cons, joinPieces_append, joinPieces_emit] at ih ⊢
      rw [ih]

/-- A leaf that is copied is written as its source. -/
theorem Leaf.joinPieces_pieces (leaf : Leaf) : joinPieces leaf.pieces = leaf.raw := by
  unfold Leaf.pieces
  split
  next => rw [joinPieces_fragmentPieces, flatMap_raw_fragments]
  next => exact joinPieces_emit _ _

namespace Plan

/-- The plan decides neither the node nor anything inside it. -/
def LeavesAlone (plan : Plan) (node : Node) : Prop :=
  ∀ inner ∈ node.preorder, plan.get? inner.id = none

/-- The children of an element are written one by one: it is copied, or its content is laid out. -/
def GoesInto (plan : Plan) (id : Nat) : Prop :=
  plan.get? id = none ∨ ∃ decision attributes tagEnd endGap,
    plan.get? id = some decision ∧ decision.layout = .element attributes tagEnd .formatted endGap

/-- The nodes that are written one by one when these nodes are written. -/
inductive Visits (plan : Plan) (nodes : List Node) : Node → Prop
  | top {node : Node} : node ∈ nodes → Visits plan nodes node
  | inside {elem : Element} {children : List Node} {child : Node} :
      Visits plan nodes (.element elem children) → plan.GoesInto elem.id → child ∈ children →
        Visits plan nodes child

theorem LeavesAlone.root {plan : Plan} {node : Node} (halone : plan.LeavesAlone node) :
    plan.get? node.id = none :=
  halone node node.mem_preorder_self

mutual

/-- A subtree without decisions is written as its source. -/
theorem render_of_leavesAlone (plan : Plan) (node : Node) (halone : plan.LeavesAlone node) :
    ∃ pieces, plan.render node = .ok pieces ∧ joinPieces pieces = node.text := by
  cases node with
  | leaf piece =>
      have hnone : plan.get? piece.id = none := halone.root
      exact ⟨piece.pieces, by simp [render, hnone], by simp [Leaf.joinPieces_pieces]⟩
  | element elem children =>
      have hnone : plan.get? elem.id = none := halone.root
      obtain ⟨inside, hinside, htext⟩ := renderAll_of_leavesAlone plan children
        fun inner hinner => halone inner (List.mem_cons_of_mem _ hinner)
      refine ⟨emit .tag elem.tag.text ++ (inside ++ emit .tag elem.endText), ?_, ?_⟩
      · simp only [render, hnone, hinside]
        rfl
      · simp [joinPieces_append, joinPieces_emit, htext]

theorem renderAll_of_leavesAlone (plan : Plan) (nodes : List Node)
    (halone : ∀ inner ∈ Node.preorderAll nodes, plan.get? inner.id = none) :
    ∃ pieces, plan.renderAll nodes = .ok pieces ∧ joinPieces pieces = Node.textOfAll nodes := by
  cases nodes with
  | nil => exact ⟨[], by simp [renderAll], rfl⟩
  | cons node rest =>
      obtain ⟨first, hfirst, hnode⟩ := render_of_leavesAlone plan node
        fun inner hinner => halone inner (List.mem_append_left _ hinner)
      obtain ⟨others, hothers, hrest⟩ := renderAll_of_leavesAlone plan rest
        fun inner hinner => halone inner (List.mem_append_right _ hinner)
      refine ⟨first ++ others, ?_, ?_⟩
      · simp only [renderAll, hfirst, hothers]
        rfl
      · simp [joinPieces_append, hnode, hrest]

end

theorem renderAll_cons_eq_ok_iff {plan : Plan} {node : Node} {rest : List Node}
    {pieces : List OutputPiece} :
    plan.renderAll (node :: rest) = .ok pieces ↔ ∃ first others,
      plan.render node = .ok first ∧ plan.renderAll rest = .ok others ∧
        first ++ others = pieces := by
  rw [renderAll, bind_eq_ok_iff]
  constructor
  · rintro ⟨first, hfirst, hrest⟩
    obtain ⟨others, hothers, hpieces⟩ := bind_eq_ok_iff.mp hrest
    exact ⟨first, others, hfirst, hothers, Except.ok.inj hpieces⟩
  · rintro ⟨first, others, hfirst, hothers, rfl⟩
    exact ⟨first, hfirst, bind_eq_ok_iff.mpr ⟨others, hothers, rfl⟩⟩

theorem renderAll_cons_eq_ok {plan : Plan} {node : Node} {rest : List Node}
    {first others : List OutputPiece} (hfirst : plan.render node = .ok first)
    (hothers : plan.renderAll rest = .ok others) :
    plan.renderAll (node :: rest) = .ok (first ++ others) :=
  renderAll_cons_eq_ok_iff.mpr ⟨first, others, hfirst, hothers, rfl⟩

/-- Nodes in a row are written in a row. -/
theorem renderAll_of_mem {plan : Plan} {nodes : List Node} {node : Node}
    {pieces : List OutputPiece} (hmem : node ∈ nodes)
    (hrender : plan.renderAll nodes = .ok pieces) :
    ∃ before inner after, pieces = before ++ (inner ++ after) ∧ plan.render node = .ok inner := by
  induction nodes generalizing pieces with
  | nil => simp at hmem
  | cons head rest ih =>
      obtain ⟨first, others, hfirst, hothers, rfl⟩ := renderAll_cons_eq_ok_iff.mp hrender
      rcases List.mem_cons.mp hmem with rfl | hlater
      · exact ⟨[], first, others, rfl, hfirst⟩
      · obtain ⟨before, inner, after, rfl, hinner⟩ := ih hlater hothers
        exact ⟨first ++ before, inner, after, by simp, hinner⟩

/-- What an element contributes holds what its children contribute, if they are written one by
one. -/
theorem renderAll_of_goesInto {plan : Plan} {elem : Element} {children : List Node}
    {pieces : List OutputPiece} (hinto : plan.GoesInto elem.id)
    (hrender : plan.render (.element elem children) = .ok pieces) :
    ∃ before inside after, pieces = before ++ (inside ++ after) ∧
      plan.renderAll children = .ok inside := by
  rcases hinto with hnone | ⟨decision, attributes, tagEnd, endGap, hsome, hlayout⟩
  · simp only [render, hnone] at hrender
    obtain ⟨inside, hinside, hpieces⟩ := bind_eq_ok_iff.mp hrender
    cases hpieces
    exact ⟨_, inside, _, rfl, hinside⟩
  · simp only [render, hsome, hlayout] at hrender
    split at hrender
    next => cases hrender
    next =>
      obtain ⟨content, hcontent, hpieces⟩ := bind_eq_ok_iff.mp hrender
      obtain ⟨inside, hinside, hclosed⟩ := map_eq_ok_iff.mp hcontent
      cases hpieces
      refine ⟨decision.before.pieces ++ elem.tag.pieces attributes tagEnd, inside,
        endPieces elem.endTag endGap ++ decision.after.pieces, ?_, hinside⟩
      simp [← hclosed]

/-- A visited node contributes what it is written as, in one stretch of the output. -/
theorem Visits.contributes {plan : Plan} {nodes : List Node} {node : Node}
    {pieces : List OutputPiece} (hvisits : plan.Visits nodes node)
    (hrender : plan.renderAll nodes = .ok pieces) :
    ∃ before inner after, pieces = before ++ (inner ++ after) ∧ plan.render node = .ok inner := by
  induction hvisits with
  | top hmem => exact renderAll_of_mem hmem hrender
  | inside _ hinto hchild ih =>
      obtain ⟨outerBefore, outer, outerAfter, rfl, houter⟩ := ih
      obtain ⟨innerBefore, inside, innerAfter, rfl, hinside⟩ := renderAll_of_goesInto hinto houter
      obtain ⟨before, inner, after, rfl, hinner⟩ := renderAll_of_mem hchild hinside
      exact ⟨outerBefore ++ (innerBefore ++ before), inner, after ++ (innerAfter ++ outerAfter),
        by simp, hinner⟩

theorem Visits.mem_preorderAll {plan : Plan} {nodes : List Node} {node : Node}
    (hvisits : plan.Visits nodes node) : node ∈ Node.preorderAll nodes := by
  induction hvisits with
  | top hmem => exact Node.mem_preorderAll_iff.mpr ⟨_, hmem, Node.mem_preorder_self _⟩
  | inside _ _ hchild ih => exact Node.child_mem_preorderAll ih hchild

/-- Whatever a plan was made for, every visited node without a decision in its subtree contributes
the source that it spans. The plan that decides nothing gives the whole source back. -/
theorem renderDocument_undecided {text : List Char} {document : Document}
    (hparse : parse text = .ok document) :
    (∀ {plan : Plan} {pieces : List OutputPiece} {node : Node},
      plan.renderDocument document = .ok pieces → plan.Visits document.children node →
        plan.LeavesAlone node →
          ∃ before inner after, pieces = before ++ (inner ++ after) ∧
            plan.render node = .ok inner ∧ node.span.Cuts text (joinPieces inner)) ∧
      ∀ count, ∃ pieces, (Plan.empty count).renderDocument document = .ok pieces ∧
        joinPieces pieces = text := by
  constructor
  · intro plan pieces node hrender hvisits halone
    obtain ⟨written, hwritten, hpieces⟩ := bind_eq_ok_iff.mp hrender
    cases hpieces
    obtain ⟨before, inner, after, rfl, hinner⟩ := hvisits.contributes hwritten
    obtain ⟨source, hsource, htext⟩ := render_of_leavesAlone plan node halone
    obtain rfl : source = inner := by
      rw [hsource] at hinner
      exact Except.ok.inj hinner
    refine ⟨before, source, after ++ plan.ending.pieces, by simp, hsource, ?_⟩
    rw [htext]
    exact Document.cuts_of_parse hparse hvisits.mem_preorderAll
  · intro count
    obtain ⟨pieces, hpieces, htext⟩ := renderAll_of_leavesAlone (Plan.empty count)
      document.children fun inner _ => get?_empty count inner.id
    refine ⟨pieces ++ (Plan.empty count).ending.pieces, ?_, ?_⟩
    · simp only [renderDocument, hpieces]
      rfl
    · rw [joinPieces_append, htext, Document.textOfAll_of_parse hparse]
      exact List.append_nil text

/-- A paragraph with a planned start tag around an element that never ends and holds an end tag that
never ends either. The inner element, which is visited and left alone, is reproduced. -/
theorem renderDocument_undecided_unterminated :
    let text := "<p  >a <b>x</q y".toList
    let broken : Leaf := ⟨.text, 3, "x</q y".toList, ⟨10, 16⟩⟩
    let inner : Node :=
      .element ⟨2, ⟨['b'], [], [], .plain⟩, none, ⟨7, 10⟩, ⟨16, 16⟩⟩ [.leaf broken]
    let plan : Plan :=
      ⟨#[some ⟨.nothing, .nothing, 0, .element [] .nothing .formatted .nothing⟩], .space⟩
    ∃ document pieces, parse text = .ok document ∧ plan.renderDocument document = .ok pieces ∧
      joinPieces pieces = "<p>a <b>x</q y ".toList ∧ plan.Visits document.children inner ∧
        plan.LeavesAlone inner ∧ ∃ before written after, pieces = before ++ (written ++ after) ∧
          plan.render inner = .ok written ∧ inner.span.Cuts text (joinPieces written) := by
  intro text broken inner plan
  let outer : Element := ⟨0, ⟨['p'], [], [' ', ' '], .plain⟩, none, ⟨0, 5⟩, ⟨16, 16⟩⟩
  let children : List Node := [.leaf ⟨.text, 1, ['a', ' '], ⟨5, 7⟩⟩, inner]
  have hparse : parse text = .ok ⟨text, [.element outer children], 4, [⟨11, .endTag⟩]⟩ := by
    with_unfolding_all rfl
  obtain ⟨pieces, hrender, hwritten⟩ : ∃ pieces,
      plan.renderDocument ⟨text, [.element outer children], 4, [⟨11, .endTag⟩]⟩ = .ok pieces ∧
        joinPieces pieces = "<p>a <b>x</q y ".toList := ⟨_, by with_unfolding_all exact ⟨rfl, rfl⟩⟩
  have hinto : plan.GoesInto outer.id := .inr ⟨_, [], .nothing, .nothing, rfl, rfl⟩
  have hvisits : plan.Visits [.element outer children] inner :=
    .inside (.top (List.mem_singleton_self _)) hinto (by simp [children])
  have halone : plan.LeavesAlone inner := by
    intro node hnode
    simp only [inner, Node.preorder, Node.preorderAll, List.mem_cons, List.append_nil,
      List.not_mem_nil, or_false] at hnode
    rcases hnode with rfl | rfl <;> rfl
  exact ⟨_, pieces, hparse, hrender, hwritten, hvisits, halone,
    (renderDocument_undecided hparse).1 hrender hvisits halone⟩

end Plan

end Markup
