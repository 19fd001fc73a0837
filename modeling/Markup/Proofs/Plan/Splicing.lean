import Markup.Proofs.Output.RoundTrip
import Markup.Proofs.Plan.Agreement
import Markup.Proofs.Plan.Selection
import Markup.Proofs.Tree.Tiling

/-!
# Writing a run where it stands

A plan for a run of nodes leaves everything around the run as it is. The gaps around the run are put
into the decisions about its first and last node afterwards: what the run is written as stays, with
the text of the gap in front of it or behind it. Main statement: `Settings.Reaches.exists_splice`.
-/

namespace Markup

open Markup.Text

namespace Plan

/-! ## Plans that agree -/

mutual

theorem render_congr {plan other : Plan} (node : Node)
    (hsame : ∀ id ∈ node.ids, plan.get? id = other.get? id) :
    plan.render node = other.render node := by
  cases node with
  | leaf leaf =>
      rw [render, render, hsame leaf.id (by simp)]
  | element elem children =>
      have hinside := renderAll_congr children fun id hmem =>
        hsame id (by rw [Node.ids_element]; exact List.mem_cons_of_mem _ hmem)
      rw [render, render, hsame elem.id (by simp), hinside]

/-- What nodes are written as depends on what is decided about them alone. -/
theorem renderAll_congr {plan other : Plan} (nodes : List Node)
    (hsame : ∀ id ∈ Node.idsOfAll nodes, plan.get? id = other.get? id) :
    plan.renderAll nodes = other.renderAll nodes := by
  cases nodes with
  | nil => rw [renderAll, renderAll]
  | cons node rest =>
      rw [Node.idsOfAll_cons] at hsame
      rw [renderAll, renderAll, render_congr node fun id hmem => hsame id (by simp [hmem]),
        renderAll_congr rest fun id hmem => hsame id (by simp [hmem])]

end

theorem renderAll_append {plan : Plan} {first second : List Node} {pieces others : List OutputPiece}
    (hfirst : plan.renderAll first = .ok pieces) (hsecond : plan.renderAll second = .ok others) :
    plan.renderAll (first ++ second) = .ok (pieces ++ others) := by
  induction first generalizing pieces with
  | nil =>
      rw [renderAll] at hfirst
      cases hfirst
      exact hsecond
  | cons node rest ih =>
      obtain ⟨head, tail, hhead, htail, rfl⟩ := renderAll_cons_eq_ok_iff.mp hfirst
      rw [List.append_assoc]
      exact renderAll_cons_eq_ok_iff.mpr ⟨head, tail ++ others, hhead, ih htail, rfl⟩

theorem exists_renderAll_of_append {plan : Plan} {first second : List Node}
    {written : List OutputPiece} (hrender : plan.renderAll (first ++ second) = .ok written) :
    ∃ pieces others, plan.renderAll first = .ok pieces ∧ plan.renderAll second = .ok others ∧
      written = pieces ++ others := by
  induction first generalizing written with
  | nil => exact ⟨[], written, by rw [renderAll], hrender, rfl⟩
  | cons node rest ih =>
      obtain ⟨head, tail, hhead, htail, rfl⟩ := renderAll_cons_eq_ok_iff.mp hrender
      obtain ⟨pieces, others, hpieces, hothers, rfl⟩ := ih htail
      exact ⟨head ++ pieces, others,
        renderAll_cons_eq_ok_iff.mpr ⟨head, pieces, hhead, hpieces, rfl⟩, hothers,
        (List.append_assoc _ _ _).symm⟩

theorem get?_modify (plan : Plan) (id : Nat) (change : Decision → Decision) (other : Nat) :
    (plan.modify id change).get? other =
      if id = other then (plan.get? other).map change else plan.get? other := by
  unfold modify
  split
  next hfound =>
    split
    next heq => rw [← heq, hfound]; rfl
    next => rfl
  next decision hfound =>
      have hsize : id < plan.decisions.size := by
        by_contra hbeyond
        simp [get?, Array.getElem?_eq_none (Nat.not_lt.mp hbeyond)] at hfound
      rw [get?_decide]
      split
      next heq => rw [if_pos heq.1, ← heq.1, hfound]; rfl
      next hne =>
        rw [if_neg fun heq => hne ⟨heq, hsize⟩]

/-! ## Gaps that are put in afterwards -/

/-- What is written behind the start tag of an element. -/
def content (plan : Plan) (elem : Element) (children : List Node) (endGap : Gap) :
    Content → Except RenderError (List OutputPiece)
  | .empty => .ok []
  | .verbatim => .ok (emit .verbatim (elem.preserved children).1)
  | .formatted => (plan.renderAll children).map fun inner => inner ++ endPieces elem.endTag endGap

/-- What a node is written as between its gaps. -/
def inside (plan : Plan) (layout : Layout) : Node → Except RenderError (List OutputPiece)
  | .leaf leaf => leaf.renderWith layout
  | .element elem children =>
      match layout with
      | .element attributes tagEnd content endGap =>
          if attributes.length ≠ elem.tag.attributes.length then
            .error ⟨elem.span.start, .attributes⟩
          else
            (plan.content elem children endGap content).map fun written =>
              elem.tag.pieces attributes tagEnd ++ written
      | _ => .error ⟨elem.span.start, .kind⟩

variable {plan other : Plan} {decision : Decision} {gap : Gap}

theorem render_of_decision {node : Node} (hdecision : plan.get? node.id = some decision) :
    plan.render node = (plan.inside decision.layout node).map fun written =>
      decision.before.pieces ++ (written ++ decision.after.pieces) := by
  cases node with
  | leaf leaf =>
      simp only [Node.id] at hdecision
      simp only [render, hdecision, inside]
      cases leaf.renderWith decision.layout <;> rfl
  | element elem children =>
      simp only [Node.id] at hdecision
      simp only [render, hdecision, inside]
      cases decision.layout with
      | text gaps => rfl
      | atom => rfl
      | element attributes tagEnd content endGap =>
          dsimp only
          split
          next => rfl
          next =>
            cases content with
            | empty => simp [Plan.content, Except.map, bind, Except.bind, pure, Except.pure]
            | verbatim => simp [Plan.content, Except.map, bind, Except.bind, pure, Except.pure]
            | formatted =>
                rw [Plan.content]
                cases plan.renderAll children with
                | error failure => rfl
                | ok written => simp [Except.map, bind, Except.bind, pure, Except.pure]

/-- Two plans agree about a node, but for the gaps around it. -/
structure AgreeWithin (plan other : Plan) (node : Node) (decision changed : Decision) : Prop where
  first : plan.get? node.id = some decision
  second : other.get? node.id = some changed
  layout : changed.layout = decision.layout
  inside : ∀ id ∈ node.ids, id ≠ node.id → plan.get? id = other.get? id

theorem AgreeWithin.inside_eq {node : Node} {changed : Decision} (hnodup : node.ids.Nodup)
    (hagree : AgreeWithin plan other node decision changed) :
    plan.inside decision.layout node = other.inside changed.layout node := by
  rw [hagree.layout]
  cases node with
  | leaf leaf => rfl
  | element elem children =>
      rw [Node.ids_element, List.nodup_cons] at hnodup
      have hchildren : plan.renderAll children = other.renderAll children := by
        refine renderAll_congr children fun id hmem => hagree.inside id ?_ ?_
        · rw [Node.ids_element]
          exact List.mem_cons_of_mem _ hmem
        · rintro rfl
          exact hnodup.1 hmem
      have hcontent : ∀ endGap kind, plan.content elem children endGap kind =
          other.content elem children endGap kind := fun endGap kind => by
        cases kind <;> simp only [content, hchildren]
      simp only [Plan.inside, hcontent]

/-- A gap in front of a node goes in front of what the node is written as. -/
theorem render_before {node : Node} (hnodup : node.ids.Nodup)
    (hagree : AgreeWithin plan other node decision { decision with before := gap })
    (hnothing : decision.before = .nothing) {pieces : List OutputPiece}
    (hrender : plan.render node = .ok pieces) :
    other.render node = .ok (gap.pieces ++ pieces) := by
  rw [render_of_decision hagree.first, hagree.inside_eq hnodup] at hrender
  obtain ⟨written, hwritten, rfl⟩ := map_eq_ok_iff.mp hrender
  rw [render_of_decision hagree.second, hwritten, hnothing]
  rfl

/-- A gap behind a node goes behind what the node is written as. -/
theorem render_after {node : Node} (hnodup : node.ids.Nodup)
    (hagree : AgreeWithin plan other node decision { decision with after := gap })
    (hnothing : decision.after = .nothing) {pieces : List OutputPiece}
    (hrender : plan.render node = .ok pieces) :
    other.render node = .ok (pieces ++ gap.pieces) := by
  rw [render_of_decision hagree.first, hagree.inside_eq hnodup] at hrender
  obtain ⟨written, hwritten, rfl⟩ := map_eq_ok_iff.mp hrender
  rw [render_of_decision hagree.second, hwritten, hnothing]
  simp [Except.map, Gap.pieces]

theorem id_mem_ids (node : Node) : node.id ∈ node.ids := by
  cases node <;> simp [Node.id]

theorem renderAll_singleton_eq_ok_iff {node : Node} {pieces : List OutputPiece} :
    plan.renderAll [node] = .ok pieces ↔ plan.render node = .ok pieces := by
  rw [renderAll_cons_eq_ok_iff]
  constructor
  · rintro ⟨first, others, hfirst, hothers, rfl⟩
    rw [renderAll] at hothers
    cases hothers
    rwa [List.append_nil]
  · exact fun hrender => ⟨pieces, [], hrender, by rw [renderAll], List.append_nil _⟩

/-- A gap behind the last node of a run goes behind what the run is written as. -/
theorem renderAll_modify_last {front : List Node} {last : Node}
    (hnodup : (Node.idsOfAll (front ++ [last])).Nodup)
    (hdecision : plan.get? last.id = some decision) (hnothing : decision.after = .nothing)
    {pieces : List OutputPiece} (hrender : plan.renderAll (front ++ [last]) = .ok pieces) :
    (plan.modify last.id fun decision => { decision with after := gap }).renderAll
      (front ++ [last]) = .ok (pieces ++ gap.pieces) := by
  generalize hchanged :
    plan.modify last.id (fun decision => { decision with after := gap }) = changed
  have hget : ∀ id, changed.get? id = if last.id = id then
      (plan.get? id).map (fun decision => { decision with after := gap }) else plan.get? id :=
    fun id => hchanged ▸ plan.get?_modify last.id _ id
  rw [Settings.idsOfAll_append, Node.idsOfAll_cons, Node.idsOfAll_nil, List.append_nil,
    List.nodup_append] at hnodup
  obtain ⟨-, hlast, hapart⟩ := hnodup
  obtain ⟨before, ending, hbefore, hending, rfl⟩ := exists_renderAll_of_append hrender
  rw [renderAll_singleton_eq_ok_iff] at hending
  have hsame : plan.renderAll front = changed.renderAll front := by
    refine renderAll_congr front fun id hmem => ?_
    rw [hget, if_neg]
    rintro rfl
    exact hapart _ hmem _ (id_mem_ids last) rfl
  have hagree : AgreeWithin plan changed last decision { decision with after := gap } := by
    refine ⟨hdecision, by rw [hget, if_pos rfl, hdecision]; rfl, rfl, fun id _ hne => ?_⟩
    rw [hget, if_neg (Ne.symm hne)]
  have hlater := renderAll_singleton_eq_ok_iff.mpr (render_after hlast hagree hnothing hending)
  rw [renderAll_append (hsame ▸ hbefore) hlater, List.append_assoc]

/-- A gap in front of the first node of a run goes in front of what the run is written as. -/
theorem renderAll_modify_first {first : Node} {rest : List Node}
    (hnodup : (Node.idsOfAll (first :: rest)).Nodup)
    (hdecision : plan.get? first.id = some decision) (hnothing : decision.before = .nothing)
    {pieces : List OutputPiece} (hrender : plan.renderAll (first :: rest) = .ok pieces) :
    (plan.modify first.id fun decision => { decision with before := gap }).renderAll
      (first :: rest) = .ok (gap.pieces ++ pieces) := by
  generalize hchanged :
    plan.modify first.id (fun decision => { decision with before := gap }) = changed
  have hget : ∀ id, changed.get? id = if first.id = id then
      (plan.get? id).map (fun decision => { decision with before := gap }) else plan.get? id :=
    fun id => hchanged ▸ plan.get?_modify first.id _ id
  rw [Node.idsOfAll_cons, List.nodup_append] at hnodup
  obtain ⟨hfirst, -, hapart⟩ := hnodup
  obtain ⟨head, tail, hhead, htail, rfl⟩ := renderAll_cons_eq_ok_iff.mp hrender
  have hsame : plan.renderAll rest = changed.renderAll rest := by
    refine renderAll_congr rest fun id hmem => ?_
    rw [hget, if_neg]
    rintro rfl
    exact hapart _ (id_mem_ids first) _ hmem rfl
  have hagree : AgreeWithin plan changed first decision { decision with before := gap } := by
    refine ⟨hdecision, by rw [hget, if_pos rfl, hdecision]; rfl, rfl, fun id _ hne => ?_⟩
    rw [hget, if_neg (Ne.symm hne)]
  exact renderAll_cons_eq_ok_iff.mpr
    ⟨_, tail, render_before hfirst hagree hnothing hhead, hsame ▸ htail, List.append_assoc _ _ _⟩

end Plan

namespace Settings

variable (settings : Settings)

/-! ## What is decided about the ends of a run -/

theorem layoutNodes_append (first second : List Node) (progress : Progress) :
    settings.layoutNodes (first ++ second) progress =
      settings.layoutNodes second (settings.layoutNodes first progress) := by
  induction first generalizing progress with
  | nil => rw [layoutNodes, List.nil_append]
  | cons node rest ih => rw [List.cons_append, layoutNodes, layoutNodes, ih]

/-- What is decided about a node that has been laid out: nothing goes behind it, and if it is no
text it is separated from what is in front of it. -/
structure Decides (node : Node) (progress : Progress) (decision : Decision) : Prop where
  after : decision.after = .nothing
  before : node.isText = false → ∃ kind width, decision.before =
    (settings.separate progress.draft.cursor progress.flow progress.blanks kind width).1

theorem exists_decides_layoutLeaf (leaf : Leaf) {progress : Progress}
    (hroom : Room [leaf.id] progress.draft) :
    ∃ decision, (settings.layoutLeaf leaf progress).draft.plan.get? leaf.id = some decision ∧
      settings.Decides (.leaf leaf) progress decision := by
  have hatom : ∀ kind, ∃ decision,
      (settings.layoutAtom leaf kind progress).draft.plan.get? leaf.id = some decision ∧
        settings.Decides (.leaf leaf) progress decision := fun kind =>
    ⟨_, get?_decide_self (by exact hroom) _, rfl, fun _ => ⟨_, _, rfl⟩⟩
  unfold layoutLeaf
  split
  next hkind =>
    have htext : ¬Node.isText (.leaf leaf) = false := by simp [Node.isText, hkind]
    unfold layoutText
    split
    next => exact ⟨_, get?_decide_self (by exact hroom) _, rfl, fun hnot => absurd hnot htext⟩
    next => exact ⟨_, get?_decide_self (by exact hroom) _, rfl, fun hnot => absurd hnot htext⟩
  next => exact hatom _
  next => exact hatom _
  next => exact hatom _

theorem exists_decides_layoutNode (node : Node) {progress : Progress}
    (hroom : Room [node.id] progress.draft) :
    ∃ decision, (settings.layoutNode node progress).draft.plan.get? node.id = some decision ∧
      settings.Decides node progress decision := by
  cases node with
  | leaf leaf =>
      rw [layoutNode]
      exact settings.exists_decides_layoutLeaf leaf hroom
  | element elem children =>
      have hkept := (settings.keeps_layoutNode (.element elem children) progress).decided
      have hbefore : ∃ kind width, (settings.layoutHeading elem.tag children progress).before =
          (settings.separate progress.draft.cursor progress.flow progress.blanks kind width).1 :=
        ⟨_, _, rfl⟩
      rw [layoutNode] at hkept ⊢
      generalize settings.layoutHeading elem.tag children progress = heading at hbefore hkept ⊢
      have hfinish : ∀ content body,
          (finishElement elem.id heading content body).draft.plan.decisions.size =
            progress.draft.plan.decisions.size → ∃ decision,
              (finishElement elem.id heading content body).draft.plan.get? elem.id = some decision ∧
                settings.Decides (.element elem children) progress decision :=
        fun content body hsize =>
          ⟨_, get?_finishElement_self hroom heading content hsize, rfl, fun _ => hbefore⟩
      cases hcontent : settings.contentOf elem.tag with
      | empty =>
          simp only [hcontent] at hkept
          exact hfinish _ _ hkept
      | verbatim =>
          simp only [hcontent] at hkept
          exact hfinish _ _ hkept
      | formatted =>
          simp only [hcontent] at hkept
          exact hfinish _ _ hkept

theorem room_id {node : Node} {draft : Draft} (hroom : Room node.ids draft) :
    Room [node.id] draft := by
  intro id hmem
  obtain rfl := List.mem_singleton.mp hmem
  exact hroom _ (Plan.id_mem_ids node)

/-- Behind an anchor, nothing goes in front of the first node of a run but the blanks that it begins
with. -/
theorem exists_first_decision {first : Node} {rest : List Node} {progress : Progress}
    (hnodup : (Node.idsOfAll (first :: rest)).Nodup) (hroom : Room first.ids progress.draft)
    (hfresh : progress.draft.cursor.fresh = false)
    (hanchored : progress.draft.cursor.anchored = true) (hblanks : progress.blanks = [])
    (hmarkup : first.isText = false) :
    ∃ decision, (settings.layoutNodes (first :: rest) progress).draft.plan.get? first.id =
      some decision ∧ decision.before = .nothing := by
  obtain ⟨decision, hdecision, hdecides⟩ := settings.exists_decides_layoutNode first (room_id hroom)
  rw [Node.idsOfAll_cons, List.nodup_append] at hnodup
  have hkeeps := settings.keeps_layoutNodes rest (settings.layoutNode first progress)
  have hlater : first.id ∉ Node.idsOfAll rest := fun hmem =>
    hnodup.2.2 _ (Plan.id_mem_ids first) _ hmem rfl
  refine ⟨decision, ?_, ?_⟩
  · rw [layoutNodes, hkeeps.plan _ hlater, hdecision]
  · obtain ⟨kind, width, hbefore⟩ := hdecides.before hmarkup
    rw [hbefore, separate, hfresh, hanchored, hblanks]
    rfl

/-- Nothing goes behind the last node of a run. -/
theorem exists_last_decision {front : List Node} {last : Node} {progress : Progress}
    (hroom : Room (Node.idsOfAll (front ++ [last])) progress.draft) :
    ∃ decision, (settings.layoutNodes (front ++ [last]) progress).draft.plan.get? last.id =
      some decision ∧ decision.after = .nothing := by
  rw [idsOfAll_append, Node.idsOfAll_cons, Node.idsOfAll_nil, List.append_nil] at hroom
  have hlast : Room last.ids progress.draft :=
    fun id hmem => hroom id (List.mem_append_right _ hmem)
  have hmoved := hlast.of_keeps (settings.keeps_layoutNodes front progress)
  obtain ⟨decision, hdecision, hdecides⟩ :=
    settings.exists_decides_layoutNode last (room_id hmoved)
  refine ⟨decision, ?_, hdecides.after⟩
  rw [layoutNodes_append, layoutNodes, layoutNodes, hdecision]

end Settings

/-! ## A run among other nodes -/

section Reaches

variable {settings : Settings} {run nodes : List Node}

/-- Where a run lies among other nodes, the text in front of it and behind it is written as it is by
any plan that decides about nothing but the run. -/
structure Splices (run nodes : List Node) (front back : List Char) : Prop where
  text : Node.textOfAll nodes = front ++ (Node.textOfAll run ++ back)
  lie : ∀ {offset}, Node.LieFrom nodes offset → Node.LieFrom run (offset + byteSize front)
  written : ∀ {plan : Plan} {pieces : List OutputPiece},
    (∀ id ∈ Node.idsOfAll nodes, id ∉ Node.idsOfAll run → plan.get? id = none) →
      plan.renderAll run = .ok pieces → ∃ written, plan.renderAll nodes = .ok written ∧
        joinPieces written = front ++ (joinPieces pieces ++ back)

theorem exists_copied {plan : Plan} {nodes : List Node}
    (hnone : ∀ id ∈ Node.idsOfAll nodes, plan.get? id = none) :
    ∃ pieces, plan.renderAll nodes = .ok pieces ∧ joinPieces pieces = Node.textOfAll nodes := by
  refine plan.renderAll_of_leavesAlone nodes fun inner hmem => hnone _ ?_
  rw [Node.idsOfAll, ← Node.map_id_preorderAll]
  exact List.mem_map_of_mem hmem

theorem splices_among (before run after : List Node)
    (hnodup : (Node.idsOfAll (before ++ (run ++ after))).Nodup) :
    Splices run (before ++ (run ++ after)) (Node.textOfAll before) (Node.textOfAll after) := by
  rw [Settings.idsOfAll_append, Settings.idsOfAll_append, List.nodup_append] at hnodup
  obtain ⟨-, hrest, hbefore⟩ := hnodup
  have hafter := (List.nodup_append.mp hrest).2.2
  refine ⟨by simp only [Node.textOfAll_append], fun hlie => ?_, fun {plan pieces} hnone hrun => ?_⟩
  · exact (Node.lieFrom_append.mp (Node.lieFrom_append.mp hlie).2).1
  · rw [Settings.idsOfAll_append, Settings.idsOfAll_append] at hnone
    obtain ⟨front, hfront, hfrontText⟩ := @exists_copied plan before fun id hmem =>
      hnone id (by simp [hmem]) fun hin => hbefore id hmem id (by simp [hin]) rfl
    obtain ⟨back, hback, hbackText⟩ := @exists_copied plan after fun id hmem =>
      hnone id (by simp [hmem]) fun hin => hafter id hin id hmem rfl
    refine ⟨_, Plan.renderAll_append hfront (Plan.renderAll_append hrun hback), ?_⟩
    simp only [joinPieces_append, hfrontText, hbackText]

theorem Splices.inside {children : List Node} {front back : List Char}
    (hsplices : Splices run children front back)
    (hreaches : Node.idsOfAll run ⊆ Node.idsOfAll children) (elem : Element)
    (before after : List Node)
    (hnodup : (Node.idsOfAll (before ++ .element elem children :: after)).Nodup) :
    Splices run (before ++ .element elem children :: after)
      (Node.textOfAll before ++ (elem.tag.text ++ front))
      (back ++ (elem.endText ++ Node.textOfAll after)) := by
  have hamong := splices_among before [.element elem children] after hnodup
  rw [Settings.idsOfAll_append, Node.idsOfAll_cons, Node.ids_element, List.nodup_append] at hnodup
  have hown := (List.nodup_cons.mp (List.nodup_append.mp hnodup.2.1).1).1
  refine ⟨hamong.text.trans (by simp [hsplices.text]), fun hlie => ?_,
    fun {plan pieces} hnone hrun => ?_⟩
  · have helement := (hamong.lie hlie).1
    have hchildren := hsplices.lie helement.2.1
    rw [helement.1] at hchildren
    simpa [Nat.add_assoc] using hchildren
  · have hinside : ∀ id ∈ elem.id :: Node.idsOfAll children, id ∉ Node.idsOfAll run →
        plan.get? id = none := by
      intro id hmem
      refine hnone id ?_
      rw [Settings.idsOfAll_append, Node.idsOfAll_cons, Node.ids_element]
      exact List.mem_append_right _ (List.mem_append_left _ hmem)
    obtain ⟨written, hwritten, htext⟩ := hsplices.written
      (fun id hmem => hinside id (List.mem_cons_of_mem _ hmem)) hrun
    have helement : plan.render (.element elem children) =
        .ok (emit .tag elem.tag.text ++ (written ++ emit .tag elem.endText)) := by
      rw [Plan.render, hinside elem.id List.mem_cons_self fun hmem => hown (hreaches hmem)]
      simp only [hwritten]
      rfl
    obtain ⟨all, hall, hallText⟩ := hamong.written (fun id hmem hnot => hnone id hmem fun hin =>
      hnot (by simp [hreaches hin])) (Plan.renderAll_singleton_eq_ok_iff.mpr helement)
    refine ⟨all, hall, ?_⟩
    simp [hallText, joinPieces_append, joinPieces_emit, htext]

/-- A run that lies among nodes or inside one of them is written in place. -/
theorem Settings.Reaches.exists_splice (hreaches : settings.Reaches run nodes)
    (hnodup : (Node.idsOfAll nodes).Nodup) : ∃ front back, Splices run nodes front back := by
  induction hreaches with
  | among before after => exact ⟨_, _, splices_among before run after hnodup⟩
  | @inside before elem children after _ hinside ih =>
      have hchildren : (Node.idsOfAll children).Nodup := by
        rw [idsOfAll_append, Node.idsOfAll_cons, Node.ids_element, List.nodup_append] at hnodup
        exact (List.nodup_cons.mp (List.nodup_append.mp hnodup.2.1).1).2
      obtain ⟨front, back, hsplices⟩ := ih hchildren
      exact ⟨_, _, hsplices.inside hinside.infix.subset elem before after hnodup⟩

/-- What holds of nodes at every depth outside raw text holds of a run among them. -/
theorem Settings.Reaches.legible (hreaches : settings.Reaches run nodes)
    (hlegible : Node.LegibleAll nodes) : Node.LegibleAll run := by
  induction hreaches with
  | among before after =>
      exact (Node.legibleAll_append.mp (Node.legibleAll_append.mp hlegible).2).1
  | @inside before elem children after hcontent hinside ih =>
      obtain ⟨-, hchildren⟩ := (Node.legibleAll_append.mp hlegible).2.1
      have hplain : ¬elem.tag.takesRawText = true := fun hraw =>
        hcontent (contentOf_of_takesRawText hraw)
      rw [if_neg hplain] at hchildren
      exact ih hchildren.2

theorem Settings.Reaches.sound (hreaches : settings.Reaches run nodes)
    (hsound : Node.SoundAll nodes) : Node.SoundAll run := by
  induction hreaches with
  | among before after => exact (Node.soundAll_append.mp (Node.soundAll_append.mp hsound).2).1
  | inside before after _ _ ih => exact ih (Node.soundAll_append.mp hsound).2.1.2.2

theorem Settings.Reaches.parted (hreaches : settings.Reaches run nodes)
    (hparted : Node.Parted nodes) (htidy : Node.TidyAll nodes) : Node.Parted run := by
  induction hreaches with
  | among before after =>
      exact (List.isChain_append.mp (List.isChain_append.mp hparted).2.1).1
  | @inside before elem children after _ _ ih =>
      have helement := Node.tidyAll_iff.mp htidy (.element elem children) (by simp)
      exact ih helement.1 helement.2

end Reaches

end Markup
