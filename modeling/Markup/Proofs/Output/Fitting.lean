import Markup.Proofs.Offsets.Rendering
import Markup.Proofs.Tree.Walk

/-!
# Where writing fails

A plan that was made for another document may decide about a node what cannot be written there. Of
the nodes that are written one by one, in document order, it is the first such node that writing
fails at, whatever has been written by then and whatever the plan says of nodes that are not written
one by one. Main statement: `Plan.renderDocument_total`.
-/

namespace Markup

open Markup.Text

/-! ## Layouts and nodes -/

namespace Layout

/-- The layout is of the kind that the node asks for. -/
def IsFor : Layout → Node → Prop
  | text _, .leaf leaf => leaf.kind = .text
  | atom, .leaf leaf => leaf.kind ≠ .text
  | element _ _ _ _, .element _ _ => True
  | _, _ => False

/-- The layout can be written for the node: a text gets a gap between any two words, and an element
a layout for each attribute. -/
inductive Fits : Layout → Node → Prop
  | text {leaf : Leaf} {gaps : List Gap} : leaf.kind = .text →
      gaps.length = (Run.ofText leaf.raw).wordList.length - 1 → Fits (.text gaps) (.leaf leaf)
  | element {elem : Element} {children : List Node} {attributes : List AttributeLayout}
      {tagEnd endTag : Gap} {content : Content} : attributes.length = elem.tag.attributes.length →
        Fits (.element attributes tagEnd content endTag) (.element elem children)
  | atom {leaf : Leaf} : leaf.kind ≠ .text → Fits .atom (.leaf leaf)

/-- How the layout fails to fit the node: the number of gaps is wrong, or that of attributes, or the
kind. -/
inductive Misfits : Layout → Node → Misfit → Prop
  | words {leaf : Leaf} {gaps : List Gap} : leaf.kind = .text →
      gaps.length ≠ (Run.ofText leaf.raw).wordList.length - 1 →
        Misfits (.text gaps) (.leaf leaf) .words
  | attributes {elem : Element} {children : List Node} {attributes : List AttributeLayout}
      {tagEnd endTag : Gap} {content : Content} : attributes.length ≠ elem.tag.attributes.length →
        Misfits (.element attributes tagEnd content endTag) (.element elem children) .attributes
  | kind {layout : Layout} {node : Node} : ¬layout.IsFor node → Misfits layout node .kind

theorem Fits.isFor {layout : Layout} {node : Node} (hfits : layout.Fits node) :
    layout.IsFor node := by
  cases hfits with
  | text hkind => exact hkind
  | element => trivial
  | atom hkind => exact hkind

theorem Fits.not_misfits {layout : Layout} {node : Node} (hfits : layout.Fits node)
    (misfit : Misfit) :
    ¬layout.Misfits node misfit := by
  intro hmisfits
  cases hmisfits with
  | words _ hlength =>
      cases hfits with
      | text _ hgaps => exact hlength hgaps
  | attributes hlength =>
      cases hfits with
      | element hattributes => exact hlength hattributes
  | kind hkind => exact hkind hfits.isFor

/-- A layout fails to fit in one way at most. -/
theorem Misfits.unique {layout : Layout} {node : Node} {first second : Misfit}
    (hfirst : layout.Misfits node first) (hsecond : layout.Misfits node second) :
    first = second := by
  cases hfirst with
  | words hkind =>
      cases hsecond with
      | words => rfl
      | kind hnot => exact absurd hkind hnot
  | attributes =>
      cases hsecond with
      | attributes => rfl
      | kind hnot => exact absurd trivial hnot
  | kind hnot =>
      cases hsecond with
      | words hkind => exact absurd hkind hnot
      | attributes => exact absurd trivial hnot
      | kind => rfl

end Layout

/-- A leaf is written with a layout that fits it, and refused with any other. -/
theorem Leaf.renderWith_fits (leaf : Leaf) (layout : Layout) :
    (layout.Fits (.leaf leaf) ∧ ∃ pieces, leaf.renderWith layout = .ok pieces) ∨
      ∃ misfit, layout.Misfits (.leaf leaf) misfit ∧
        leaf.renderWith layout = .error ⟨leaf.span.start, misfit⟩ := by
  by_cases htext : leaf.kind = .text
  · cases layout with
    | text gaps =>
        by_cases hlength : gaps.length = (Run.ofText leaf.raw).wordList.length - 1
        · obtain ⟨pieces, -, hpieces⟩ := exists_wordPieces hlength
          exact .inl ⟨.text htext hlength, pieces, by simp [renderWith, htext, hpieces]⟩
        · have hnone := wordPieces?_eq_none hlength
          exact .inr ⟨.words, .words htext hlength, by simp [renderWith, htext, hnone]⟩
    | element attributes tagEnd content endTag =>
        exact .inr ⟨.kind, .kind (fun hfor => hfor), by simp [renderWith, htext]⟩
    | atom => exact .inr ⟨.kind, .kind (fun hnot => hnot htext), by simp [renderWith, htext]⟩
  · cases layout with
    | text gaps =>
        refine .inr ⟨.kind, .kind htext, ?_⟩
        cases hkind : leaf.kind <;> simp_all [renderWith]
    | element attributes tagEnd content endTag =>
        refine .inr ⟨.kind, .kind (fun hfor => hfor), ?_⟩
        cases hkind : leaf.kind <;> simp [renderWith, hkind]
    | atom =>
        refine .inl ⟨.atom htext, leaf.pieces, ?_⟩
        cases hkind : leaf.kind <;> simp_all [renderWith]

namespace Plan

/-- The plan leaves the node as it is, or has a layout for it that fits. -/
def Fits (plan : Plan) (node : Node) : Prop :=
  ∀ decision, plan.get? node.id = some decision → decision.layout.Fits node

/-- The plan has a layout for the node that fails to fit in this way. -/
def Misfits (plan : Plan) (node : Node) (misfit : Misfit) : Prop :=
  ∃ decision, plan.get? node.id = some decision ∧ decision.layout.Misfits node misfit

variable {plan : Plan}

theorem Fits.of_eq_none {node : Node} (hnone : plan.get? node.id = none) : plan.Fits node := by
  intro decision hdecision
  simp [hnone] at hdecision

theorem Fits.of_eq_some {node : Node} {decision : Decision}
    (hsome : plan.get? node.id = some decision) (hfits : decision.layout.Fits node) :
    plan.Fits node := by
  intro found hfound
  obtain rfl := Option.some.inj (hsome.symm.trans hfound)
  exact hfits

theorem Misfits.not_fits {node : Node} {misfit : Misfit} (hmisfits : plan.Misfits node misfit) :
    ¬plan.Fits node := by
  obtain ⟨decision, hdecision, hlayout⟩ := hmisfits
  exact fun hfits => (hfits decision hdecision).not_misfits misfit hlayout

theorem Misfits.unique {node : Node} {first second : Misfit} (hfirst : plan.Misfits node first)
    (hsecond : plan.Misfits node second) : first = second := by
  obtain ⟨decision, hdecision, hone⟩ := hfirst
  obtain ⟨found, hfound, hother⟩ := hsecond
  obtain rfl := Option.some.inj (hdecision.symm.trans hfound)
  exact hone.unique hother

/-! ## The visited nodes in a row -/

/-- Whether the children of an element are written one by one. -/
def goesInto (plan : Plan) (elem : Element) : Bool :=
  match (plan.get? elem.id).map Decision.layout with
  | none => true
  | some (.element _ _ .formatted _) => true
  | some _ => false

theorem goesInto_iff {elem : Element} : plan.goesInto elem = true ↔ plan.GoesInto elem.id := by
  unfold goesInto GoesInto
  cases plan.get? elem.id with
  | none => simp
  | some decision =>
      obtain ⟨before, after, indent, layout⟩ := decision
      cases layout with
      | text gaps => simp
      | atom => simp
      | element attributes tagEnd content endTag => cases content <;> simp

mutual

theorem visits_of_mem_walk {nodes : List Node} {node inner : Node}
    (hvisits : plan.Visits nodes node) (hmem : inner ∈ node.walk plan.goesInto) :
    plan.Visits nodes inner := by
  cases node with
  | leaf leaf =>
      obtain rfl := List.mem_singleton.mp hmem
      exact hvisits
  | element elem children =>
      rw [Node.walk] at hmem
      rcases List.mem_cons.mp hmem with rfl | hinside
      · exact hvisits
      · split at hinside
        next hinto =>
          exact visits_of_mem_walkAll (fun child hchild => .inside hvisits (goesInto_iff.mp hinto)
            hchild) hinside
        next => cases hinside

theorem visits_of_mem_walkAll {nodes row : List Node} {inner : Node}
    (hvisits : ∀ node ∈ row, plan.Visits nodes node)
    (hmem : inner ∈ Node.walkAll plan.goesInto row) :
    plan.Visits nodes inner := by
  cases row with
  | nil => cases hmem
  | cons node rest =>
      rcases List.mem_append.mp hmem with hfirst | hrest
      · exact visits_of_mem_walk (hvisits node List.mem_cons_self) hfirst
      · exact visits_of_mem_walkAll
          (fun other hother => hvisits other (List.mem_cons_of_mem _ hother)) hrest

end

/-- The nodes that are visited are those that a walk comes to. -/
theorem mem_walkAll_iff_visits {nodes : List Node} {node : Node} :
    node ∈ Node.walkAll plan.goesInto nodes ↔ plan.Visits nodes node := by
  have hfrom : ∀ {row : List Node} {other : Node}, other ∈ row →
      other ∈ Node.walkAll plan.goesInto row :=
    fun hmem => Node.mem_walkAll.mpr ⟨_, hmem, Node.mem_walk_self _ _⟩
  constructor
  · exact visits_of_mem_walkAll fun other hmem => .top hmem
  · intro hvisits
    induction hvisits with
    | top hmem => exact hfrom hmem
    | inside _ hinto hchild ih =>
        exact Node.inside_mem_walkAll ih (goesInto_iff.mpr hinto) (hfrom hchild)

/-! ## Writing a row -/

/-- The outcome of writing the nodes of a row, one by one: a result if all fit, and otherwise the
error of the first one that does not. -/
inductive Judges (plan : Plan) {α : Type} : List Node → Except RenderError α → Prop
  | ok {row : List Node} {value : α} : (∀ node ∈ row, plan.Fits node) → Judges plan row (.ok value)
  | error {front back : List Node} {node : Node} {misfit : Misfit} :
      (∀ other ∈ front, plan.Fits other) → plan.Misfits node misfit →
        Judges plan (front ++ node :: back) (.error ⟨node.span.start, misfit⟩)

namespace Judges

variable {α β γ : Type} {row more : List Node} {result : Except RenderError α}

theorem map (hjudges : plan.Judges row result) (change : α → β) :
    plan.Judges row (result.map change) := by
  cases hjudges with
  | ok hfit => exact .ok hfit
  | error hfront hmisfits => exact .error hfront hmisfits

theorem cons {node : Node} (hfits : plan.Fits node) (hjudges : plan.Judges row result) :
    plan.Judges (node :: row) result := by
  cases hjudges with
  | ok hfit => exact .ok (List.forall_mem_cons.mpr ⟨hfits, hfit⟩)
  | error hfront hmisfits => exact .error (List.forall_mem_cons.mpr ⟨hfits, hfront⟩) hmisfits

theorem refused {node : Node} {misfit : Misfit} (hmisfits : plan.Misfits node misfit)
    (row : List Node) :
    plan.Judges (node :: row) (.error ⟨node.span.start, misfit⟩ : Except RenderError α) :=
  @Judges.error plan α [] row node misfit (by simp) hmisfits

/-- What stands behind the first error makes no difference. -/
theorem append {other : Except RenderError β} (hfirst : plan.Judges row result)
    (hsecond : plan.Judges more other) (join : α → β → γ) :
    plan.Judges (row ++ more) (result.bind fun a => other.map (join a)) := by
  cases hfirst with
  | ok hfit =>
      cases hsecond with
      | ok hmore => exact .ok (List.forall_mem_append.mpr ⟨hfit, hmore⟩)
      | @error front back node misfit hfront hmisfits =>
          have hbefore : ∀ other ∈ row ++ front, plan.Fits other :=
            List.forall_mem_append.mpr ⟨hfit, hfront⟩
          have hjudges : plan.Judges (row ++ front ++ node :: back)
              (.error ⟨node.span.start, misfit⟩ : Except RenderError γ) := .error hbefore hmisfits
          rwa [List.append_assoc] at hjudges
  | @error front back node misfit hfront hmisfits =>
      have hjudges : plan.Judges (front ++ node :: (back ++ more))
          (.error ⟨node.span.start, misfit⟩ : Except RenderError γ) := .error hfront hmisfits
      rw [List.append_assoc, List.cons_append]
      exact hjudges

end Judges

mutual

theorem judges_render (plan : Plan) (node : Node) :
    plan.Judges (node.walk plan.goesInto) (plan.render node) := by
  cases node with
  | leaf leaf =>
      rw [Node.walk, render]
      cases hfound : plan.get? leaf.id with
      | none => exact .cons (.of_eq_none hfound) (.ok (by simp))
      | some decision =>
          rcases leaf.renderWith_fits decision.layout with
            ⟨hfits, pieces, hpieces⟩ | ⟨misfit, hmisfits, herror⟩
          · simp only [hpieces]
            exact .cons (.of_eq_some hfound hfits) (.ok (by simp))
          · simp only [herror]
            have hrefused : plan.Misfits (.leaf leaf) misfit := ⟨decision, hfound, hmisfits⟩
            exact .refused hrefused []
  | element elem children =>
      have hchildren := judges_renderAll plan children
      rw [Node.walk, render]
      cases hfound : plan.get? elem.id with
      | none =>
          have hinto : plan.goesInto elem = true := by simp [goesInto, hfound]
          rw [if_pos hinto]
          exact .cons (.of_eq_none hfound) (hchildren.map _)
      | some decision =>
          dsimp only
          cases hlayout : decision.layout with
          | text gaps =>
              have hrefused : plan.Misfits (.element elem children) .kind :=
                ⟨decision, hfound, .kind (by simp [hlayout, Layout.IsFor])⟩
              exact .refused hrefused _
          | atom =>
              have hrefused : plan.Misfits (.element elem children) .kind :=
                ⟨decision, hfound, .kind (by simp [hlayout, Layout.IsFor])⟩
              exact .refused hrefused _
          | element attributes tagEnd content endTag =>
              dsimp only
              by_cases hlength : attributes.length = elem.tag.attributes.length
              · have hfits : plan.Fits (.element elem children) := by
                  refine .of_eq_some hfound ?_
                  rw [hlayout]
                  exact .element hlength
                rw [if_neg (not_not.mpr hlength)]
                refine .cons hfits ?_
                cases content with
                | empty => exact .ok (by simp [goesInto, hfound, hlayout])
                | verbatim => exact .ok (by simp [goesInto, hfound, hlayout])
                | formatted =>
                    have hinto : plan.goesInto elem = true := by simp [goesInto, hfound, hlayout]
                    rw [if_pos hinto]
                    exact (hchildren.map _).map _
              · rw [if_pos hlength]
                have hrefused : plan.Misfits (.element elem children) .attributes :=
                  ⟨decision, hfound, hlayout ▸ .attributes hlength⟩
                exact .refused hrefused _

/-- Writing nodes that follow each other goes through the visited ones in order. -/
theorem judges_renderAll (plan : Plan) (nodes : List Node) :
    plan.Judges (Node.walkAll plan.goesInto nodes) (plan.renderAll nodes) := by
  cases nodes with
  | nil => exact .ok (by simp [Node.walkAll])
  | cons node rest =>
      exact (judges_render plan node).append (judges_renderAll plan rest) (· ++ ·)

end

/-! ## The first misfit of a document -/

/-- In document order, the node is the first visited one that the plan's layout for it does not
fit. -/
def FirstMisfit (plan : Plan) (nodes : List Node) (node : Node) (misfit : Misfit) : Prop :=
  ∃ front back, Node.preorderAll nodes = front ++ node :: back ∧ plan.Visits nodes node ∧
    plan.Misfits node misfit ∧ ∀ other ∈ front, plan.Visits nodes other → plan.Fits other

theorem FirstMisfit.visits {nodes : List Node} {node : Node} {misfit : Misfit}
    (hfirst : plan.FirstMisfit nodes node misfit) :
    plan.Visits nodes node ∧ plan.Misfits node misfit := by
  obtain ⟨-, -, -, hvisits, hmisfits, -⟩ := hfirst
  exact ⟨hvisits, hmisfits⟩

/-- Two places in a row are the same, or one is in front of the other. -/
theorem eq_or_mem_of_append_cons_eq {front back front' back' : List Node} {one other : Node}
    (heq : front ++ one :: back = front' ++ other :: back') :
    one = other ∨ one ∈ front' ∨ other ∈ front := by
  rcases List.append_eq_append_iff.mp heq with ⟨between, hfront, hback⟩ | ⟨between, hfront, hback⟩
  · cases between with
    | nil => exact .inl (List.cons.inj hback).1
    | cons head rest =>
        obtain ⟨rfl, -⟩ := List.cons.inj hback
        exact .inr (.inl (by simp [hfront]))
  · cases between with
    | nil => exact .inl (List.cons.inj hback).1.symm
    | cons head rest =>
        obtain ⟨rfl, -⟩ := List.cons.inj hback
        exact .inr (.inr (by simp [hfront]))

/-- A document has one first misfit at most. -/
theorem FirstMisfit.unique {nodes : List Node} {one other : Node} {oneMisfit otherMisfit : Misfit}
    (hone : plan.FirstMisfit nodes one oneMisfit)
    (hother : plan.FirstMisfit nodes other otherMisfit) :
    one = other ∧ oneMisfit = otherMisfit := by
  obtain ⟨front, back, hnodes, hvisits, hmisfits, hbefore⟩ := hone
  obtain ⟨front', back', hnodes', hvisits', hmisfits', hbefore'⟩ := hother
  -- the one that is further behind would have the other among the nodes in front of it
  have hsame : one = other := by
    rcases eq_or_mem_of_append_cons_eq (hnodes.symm.trans hnodes') with heq | hmem | hmem
    · exact heq
    · exact absurd (hbefore' one hmem hvisits) hmisfits.not_fits
    · exact absurd (hbefore other hmem hvisits') hmisfits'.not_fits
  subst hsame
  exact ⟨rfl, hmisfits.unique hmisfits'⟩

/-- The first misfit in the row of the visited nodes is the first one of the document. -/
theorem firstMisfit_of_walkAll {nodes front back : List Node} {node : Node} {misfit : Misfit}
    (hnodup : (Node.preorderAll nodes).Nodup)
    (hwalk : Node.walkAll plan.goesInto nodes = front ++ node :: back)
    (hfront : ∀ other ∈ front, plan.Fits other) (hmisfits : plan.Misfits node misfit) :
    plan.FirstMisfit nodes node misfit := by
  have hsublist := Node.walkAll_sublist plan.goesInto nodes
  rw [hwalk] at hsublist
  obtain ⟨early, late, hnodes, -, hlate⟩ := List.append_sublist_iff.mp hsublist
  obtain ⟨skipped, rest, rfl, hmem, hback⟩ := List.cons_sublist_iff.mp hlate
  obtain ⟨left, right, rfl⟩ := List.append_of_mem hmem
  have hsplit : Node.preorderAll nodes = early ++ left ++ node :: (right ++ rest) := by
    rw [hnodes]
    simp
  have hvisits : plan.Visits nodes node := mem_walkAll_iff_visits.mp (by simp [hwalk])
  refine ⟨early ++ left, right ++ rest, hsplit, hvisits, hmisfits, fun other hother hvisited => ?_⟩
  rw [hsplit] at hnodup
  have hapart := List.disjoint_of_nodup_append hnodup hother
  have hrow := mem_walkAll_iff_visits.mpr hvisited
  rw [hwalk] at hrow
  rcases List.mem_append.mp hrow with hin | hin
  · exact hfront other hin
  · rcases List.mem_cons.mp hin with rfl | hin
    · exact absurd List.mem_cons_self hapart
    · exact absurd (List.mem_cons_of_mem _ (List.mem_append_right _ (hback.subset hin))) hapart

/-- Any document can be written with any plan, but for misfits: there is output exactly if the plan
has no layout for a visited node that does not fit it, and otherwise the error says where the first
visited node of such a kind begins, and how its layout fails to fit. All that is copied on the way
lies within the source. -/
theorem renderDocument_total {text : List Char} {document : Document}
    (hparse : parse text = .ok document) (plan : Plan) :
    plan.renderDocument? document = some (plan.renderDocument document) ∧
    ((∃ pieces, plan.renderDocument document = .ok pieces) ↔
      ∀ node, plan.Visits document.children node → plan.Fits node) ∧
    ∀ failure, plan.renderDocument document = .error failure ↔
      ∃ node, plan.FirstMisfit document.children node failure.misfit ∧
        failure.offset = node.span.start := by
  have hnodup := Document.nodup_preorderAll_of_parse hparse
  have hjudges : plan.Judges (Node.walkAll plan.goesInto document.children)
      (plan.renderDocument document) :=
    (plan.judges_renderAll document.children).map (· ++ plan.ending.pieces)
  refine ⟨plan.renderDocument?_eq hparse, ?_⟩
  generalize hwalk : Node.walkAll plan.goesInto document.children = row at hjudges
  generalize plan.renderDocument document = result at hjudges
  cases hjudges with
  | @ok row value hfit =>
      have hall : ∀ node, plan.Visits document.children node → plan.Fits node := fun node hvisits =>
        hfit node (hwalk ▸ mem_walkAll_iff_visits.mpr hvisits)
      refine ⟨⟨fun _ => hall, fun _ => ⟨value, rfl⟩⟩, fun failure =>
        ⟨nofun, fun ⟨node, hfirst, _⟩ => ?_⟩⟩
      obtain ⟨hvisits, hmisfits⟩ := hfirst.visits
      exact absurd (hall node hvisits) hmisfits.not_fits
  | @error front back node misfit hfront hmisfits =>
      have hfirst := firstMisfit_of_walkAll hnodup hwalk hfront hmisfits
      refine ⟨⟨nofun, fun hall => absurd (hall node hfirst.visits.1) hmisfits.not_fits⟩,
        fun failure => ?_⟩
      constructor
      · rintro ⟨⟩
        exact ⟨node, hfirst, rfl⟩
      · rintro ⟨other, hother, hoffset⟩
        obtain ⟨rfl, hmisfit⟩ := hfirst.unique hother
        obtain ⟨offset, found⟩ := failure
        obtain rfl : misfit = found := hmisfit
        obtain rfl : offset = node.span.start := hoffset
        rfl

/-- Both texts have a gap too few. The first stands in an element that is copied as a whole and does
not count, the second in one without a decision, behind an element that was written already. -/
theorem renderDocument_total_second_text :
    let text := "<b>x y</b><i>z w</i>".toList
    let skipped : Leaf := ⟨.text, 1, "x y".toList, ⟨3, 6⟩⟩
    let plan : Plan :=
      ⟨#[some ⟨.nothing, .nothing, 0, .element [] .nothing .verbatim .nothing⟩,
        some ⟨.nothing, .nothing, 0, .text []⟩, none, some ⟨.space, .nothing, 0, .text []⟩],
          .nothing⟩
    ∃ document node, parse text = .ok document ∧ plan.FirstMisfit document.children node .words ∧
      node.span.start = 13 ∧ .leaf skipped ∈ Node.preorderAll document.children ∧
        plan.Misfits (.leaf skipped) .words := by
  intro text skipped plan
  let bold : Element := ⟨0, ⟨['b'], [], [], .plain⟩, some ⟨['b'], "</b>".toList⟩, ⟨0, 3⟩, ⟨6, 10⟩⟩
  let italic : Element :=
    ⟨2, ⟨['i'], [], [], .plain⟩, some ⟨['i'], "</i>".toList⟩, ⟨10, 13⟩, ⟨16, 20⟩⟩
  let children : List Node :=
    [.element bold [.leaf skipped], .element italic [.leaf ⟨.text, 3, "z w".toList, ⟨13, 16⟩⟩]]
  have hparse : parse text = .ok ⟨text, children, 4, []⟩ := by with_unfolding_all rfl
  have hrender : plan.renderDocument ⟨text, children, 4, []⟩ = .error ⟨13, .words⟩ := by
    with_unfolding_all rfl
  obtain ⟨node, hfirst, hoffset⟩ := ((renderDocument_total hparse plan).2.2 ⟨13, .words⟩).mp hrender
  exact ⟨_, node, hparse, hfirst, hoffset.symm, by simp [children, Node.preorderAll, Node.preorder],
    _, rfl, .words rfl (by decide +kernel)⟩

end Plan

end Markup
