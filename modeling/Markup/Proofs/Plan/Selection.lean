import Markup.Plan.Selection
import Markup.Proofs.Plan.Suiting

/-!
# What a range selects

A range selects a run of siblings that lies in no preserved element, by a descent through elements
whose content holds it. Of the nodes outside the run, only the text in front of it may be decided
about, and what is decided there suits it. So whatever the range, the plan of a document suits all
of its nodes.
-/

namespace Markup

open Markup.Text

/-- The run lies among the nodes or inside one of them, but inside no preserved element. -/
inductive Settings.Reaches (settings : Settings) (run : List Node) : List Node → Prop
  | among (before after : List Node) : Reaches settings run (before ++ (run ++ after))
  | inside (before : List Node) {elem : Element} {children : List Node} (after : List Node) :
      settings.contentOf elem.tag ≠ .verbatim → Reaches settings run children →
        Reaches settings run (before ++ .element elem children :: after)

namespace Settings

variable {settings : Settings} {run nodes : List Node}

theorem idsOfAll_append (first second : List Node) :
    Node.idsOfAll (first ++ second) = Node.idsOfAll first ++ Node.idsOfAll second :=
  idListing.nodes_append first second

/-- The numbers of the run stand in one stretch among those of all nodes. -/
theorem Reaches.infix (hreaches : settings.Reaches run nodes) :
    Node.idsOfAll run <:+: Node.idsOfAll nodes := by
  induction hreaches with
  | among before after =>
      rw [idsOfAll_append, idsOfAll_append]
      exact List.infix_append' _ _ _
  | @inside before elem children after _ _ ih =>
      rw [idsOfAll_append, Node.idsOfAll_cons, Node.ids_element]
      have hchildren : Node.idsOfAll children <:+: elem.id :: Node.idsOfAll children :=
        (List.suffix_cons _ _).isInfix
      exact (ih.trans hchildren).trans (List.infix_append' _ _ _)

/-- A plan that suits a run and decides about nothing else suits all nodes. -/
theorem suitsAll_of_reaches {plan : Plan} (hreaches : settings.Reaches run nodes)
    (hnodup : (Node.idsOfAll nodes).Nodup) (hsuits : plan.SuitsAll settings run)
    (honly : ∀ id, id ∉ Node.idsOfAll run → plan.get? id = none) :
    plan.SuitsAll settings nodes := by
  induction hreaches with
  | among before after =>
      rw [idsOfAll_append, idsOfAll_append, List.nodup_append] at hnodup
      obtain ⟨-, hrest, hbefore⟩ := hnodup
      have hafter := (List.nodup_append.mp hrest).2.2
      rw [Plan.suitsAll_append, Plan.suitsAll_append]
      refine ⟨Plan.suitsAll_of_undecided settings fun id hmem => honly id fun hrun => ?_, hsuits,
        Plan.suitsAll_of_undecided settings fun id hmem => honly id fun hrun => ?_⟩
      · exact hbefore id hmem id (List.mem_append_left _ hrun) rfl
      · exact hafter id hrun id hmem rfl
  | @inside before elem children after hcontent hinside ih =>
      have hrun := hinside.infix.subset
      rw [idsOfAll_append, Node.idsOfAll_cons, Node.ids_element, List.nodup_append] at hnodup
      obtain ⟨-, hrest, hbefore⟩ := hnodup
      obtain ⟨helement, -, hafter⟩ := List.nodup_append.mp hrest
      obtain ⟨hown, hchildren⟩ := List.nodup_cons.mp helement
      have hundecided : plan.get? elem.id = none := honly _ fun hmem => hown (hrun hmem)
      rw [Plan.suitsAll_append]
      refine ⟨Plan.suitsAll_of_undecided settings fun id hmem => honly id fun hother => ?_,
        ⟨by simp [hundecided], fun hverbatim => absurd hverbatim hcontent, ih hchildren⟩,
        Plan.suitsAll_of_undecided settings fun id hmem => honly id fun hother => ?_⟩
      · exact hbefore id hmem id (by simp [hrun hother]) rfl
      · exact hafter id (List.mem_cons_of_mem _ (hrun hother)) id hmem rfl

/-! ## The run of a range -/

theorem upToLast_spec (range : Span) (nodes : List Node) :
    ∃ back, nodes = upToLast range nodes ++ back ∧
      (∀ node ∈ back, node.span.overlaps range = false) ∧
      ∀ last ∈ (upToLast range nodes).getLast?, last.span.overlaps range = true := by
  induction nodes with
  | nil => exact ⟨[], rfl, by simp, by simp [upToLast]⟩
  | cons node rest ih =>
      obtain ⟨back, hrest, hback, hlast⟩ := ih
      rw [upToLast]
      split
      next hnone =>
        rw [hnone, List.nil_append] at hrest
        split
        next htouched => exact ⟨back, by rw [hrest]; rfl, hback, by simpa using htouched⟩
        next hmissed =>
          refine ⟨node :: back, by rw [hrest]; rfl, List.forall_mem_cons.mpr ⟨?_, hback⟩, by simp⟩
          exact Bool.eq_false_iff.mpr hmissed
      next hfound =>
        refine ⟨back, by rw [List.cons_append, ← hrest], hback, ?_⟩
        intro last hmem
        rw [List.getLast?_cons_of_ne_nil hfound] at hmem
        exact hlast last hmem

theorem upToLast_prefix (range : Span) (nodes : List Node) : upToLast range nodes <+: nodes := by
  obtain ⟨back, hnodes, -⟩ := upToLast_spec range nodes
  exact ⟨back, hnodes.symm⟩

theorem contentOf_ne_verbatim {tag : StartTag} (hnot : settings.preserves tag.name = false) :
    settings.contentOf tag ≠ .verbatim := by
  unfold contentOf
  split
  next => simp
  next => simp [hnot]

end Settings

/-- A run of siblings from the first to the last that a range touches, the siblings in front of it
and behind it given. An element that is the only one has content that does not hold the range. -/
structure Selection.Meets (selection : Selection) (range : Span) (front back : List Node) :
    Prop where
  before : selection.before = front.getLast?
  front : ∀ node ∈ front, node.span.overlaps range = false
  back : ∀ node ∈ back, node.span.overlaps range = false
  first : selection.first.span.overlaps range = true
  last : ∀ last ∈ selection.rest.getLast?, last.span.overlaps range = true
  alone : selection.rest = [] → ∀ elem children, selection.first = .element elem children →
    elem.content.contains range = false

/-- How a range leads to a run: through elements whose content holds it, none of them preserved, to
the siblings that it touches. -/
inductive Settings.Descends (settings : Settings) (range : Span) (selection : Selection) :
    Option Element → List Node → Prop
  | here (front back : List Node) : selection.Meets range front back →
      Descends settings range selection selection.container (front ++ (selection.nodes ++ back))
  | inside (container : Option Element) (front : List Node) {elem : Element} {children : List Node}
      (back : List Node) : elem.content.contains range = true → settings.preserves elem.name =
        false → Descends settings range selection (some elem) children →
          Descends settings range selection container (front ++ .element elem children :: back)

namespace Settings

variable {settings : Settings} {range : Span} {selection : Selection} {run nodes : List Node}

mutual

theorem descends_selectWithin {container : Option Element} {front back : List Node} {node : Node}
    (hfront : ∀ other ∈ front, other.span.overlaps range = false)
    (hback : ∀ other ∈ back, other.span.overlaps range = false)
    (htouched : node.span.overlaps range = true)
    (hselect : settings.selectWithin range container front.getLast? node = some selection) :
    settings.Descends range selection container (front ++ node :: back) := by
  cases node with
  | leaf leaf =>
      obtain rfl := Option.some.inj hselect
      exact .here front back ⟨rfl, hfront, hback, htouched, by simp, nofun⟩
  | element elem children =>
      rw [selectWithin] at hselect
      split at hselect
      next hholds =>
        split at hselect
        next => cases hselect
        next hplain =>
          refine .inside container front back hholds (Bool.eq_false_iff.mpr hplain) ?_
          exact descends_selectAmong [] (by simp) hselect
      next hmisses =>
        obtain rfl := Option.some.inj hselect
        refine .here front back ⟨rfl, hfront, hback, htouched, by simp, ?_⟩
        rintro - inner inside heq
        obtain ⟨rfl, rfl⟩ := Node.element.inj heq
        exact Bool.eq_false_iff.mpr hmisses

/-- What is selected is come to by a descent. -/
theorem descends_selectAmong {container : Option Element} (front : List Node) {nodes : List Node}
    (hfront : ∀ node ∈ front, node.span.overlaps range = false)
    (hselect : settings.selectAmong range container front.getLast? nodes = some selection) :
    settings.Descends range selection container (front ++ nodes) := by
  cases nodes with
  | nil => cases hselect
  | cons node rest =>
      rw [selectAmong] at hselect
      split at hselect
      next htouched =>
        obtain ⟨back, hrest, hback, hlast⟩ := upToLast_spec range rest
        cases hfound : upToLast range rest with
        | nil =>
            rw [hfound] at hselect hrest
            exact descends_selectWithin hfront (hrest ▸ hback) htouched hselect
        | cons next others =>
            rw [hfound] at hselect hrest hlast
            obtain rfl := Option.some.inj hselect
            rw [hrest]
            exact .here front back ⟨rfl, hfront, hback, htouched, hlast, nofun⟩
      next hmissed =>
        have hmore : ∀ other ∈ front ++ [node], other.span.overlaps range = false := by
          intro other hmem
          rcases List.mem_append.mp hmem with hin | hin
          · exact hfront other hin
          · rw [List.mem_singleton.mp hin]
            exact Bool.eq_false_iff.mpr hmissed
        rw [← List.getLast?_concat (l := front)] at hselect
        simpa using descends_selectAmong (front ++ [node]) hmore hselect

end

theorem Descends.reaches {container : Option Element}
    (hdescends : settings.Descends range selection container nodes) :
    settings.Reaches (selection.before.toList ++ selection.nodes) nodes := by
  induction hdescends with
  | here front back hmeets =>
      rw [hmeets.before]
      rcases List.eq_nil_or_concat front with rfl | ⟨front, node, rfl⟩
      · exact .among [] back
      · have hrun : settings.Reaches (node :: selection.nodes)
            (front ++ (node :: selection.nodes ++ back)) := .among front back
        simpa using hrun
  | inside container front back _ hplain _ ih =>
      exact .inside front back (contentOf_ne_verbatim hplain) ih

/-- The run that is selected, with the node in front of it, reaches into the nodes. -/
theorem reaches_selectAmong {container : Option Element}
    (hselect : settings.selectAmong range container none nodes = some selection) :
    settings.Reaches (selection.before.toList ++ selection.nodes) nodes :=
  (descends_selectAmong [] (by simp) hselect).reaches

/-! ## Planning a run -/

theorem weakens_modify (plan : Plan) (id : Nat) {change : Decision → Decision}
    (hchange : ∀ (decision : Decision) (Fits : Layout → Prop), decision.Suits Fits →
      (change decision).Suits Fits) (wanted : Nat) :
    plan.Weakens (plan.modify id change) wanted := by
  unfold Plan.modify
  split
  next => exact Plan.weakens_of_eq rfl
  next decision hdecision =>
    intro found hfound
    rw [Plan.get?_decide] at hfound
    split at hfound
    next heq =>
      obtain rfl := Option.some.inj hfound
      exact ⟨decision, heq.1 ▸ hdecision, hchange decision⟩
    next => exact ⟨found, hfound, fun _ hsuits => hsuits⟩

theorem suits_keepLines {leaf : Leaf} (hkind : leaf.kind = .text) :
    (keepLines leaf).Suits (Layout.SuitsLeaf leaf) := by
  have hproper := Run.proper_ofText leaf.raw
  have hlayout : ∀ gaps : List Gap, gaps.length = (Run.ofText leaf.raw).gaps.length →
      (∀ gap ∈ gaps, gap.Blank) → Layout.SuitsLeaf leaf (.text gaps) :=
    fun gaps hlength hblank => .text hkind hlength hblank
  unfold keepLines
  cases hrun : Run.ofText leaf.raw with
  | blank leading =>
      rw [hrun] at hproper hlayout
      exact ⟨Gap.blank_keep (allBlank_beforeLastLine hproper), Gap.blank_nothing,
        hlayout [] rfl (by simp)⟩
  | words leading first rest trailing =>
      rw [hrun] at hproper hlayout
      obtain ⟨hleading, -, hrest, htrailing⟩ := hproper
      refine ⟨Gap.blank_keep hleading, Gap.blank_keep (allBlank_beforeLastLine htrailing),
        hlayout _ (by simp [Run.gaps]) fun gap hmem => ?_⟩
      obtain ⟨parted, hparted, rfl⟩ := List.mem_map.mp hmem
      exact Gap.blank_kept (hrest parted hparted).2.1

theorem eq_of_leadText? {blank : Bool} {before : Option Node} {leaf : Leaf}
    (hlead : leadText? blank before = some leaf) :
    before = some (.leaf leaf) ∧ leaf.kind = .text := by
  unfold leadText? at hlead
  split at hlead
  next other =>
    split at hlead
    next hkind =>
      obtain rfl := Option.some.inj hlead
      simp only [Bool.and_eq_true, decide_eq_true_eq] at hkind
      exact ⟨rfl, hkind.1.1⟩
    next => simp at hlead
  next => simp at hlead

/-- A plan that suits a run, decides about nothing else and puts nothing at the end. -/
structure Plans (settings : Settings) (run : List Node) (plan : Plan) : Prop where
  suits : plan.SuitsAll settings run
  only : ∀ id, id ∉ Node.idsOfAll run → plan.get? id = none
  ending : plan.ending = .nothing

theorem Plans.modify {plan : Plan} (hplans : Plans settings run plan) (id : Nat)
    {change : Decision → Decision}
    (hchange : ∀ (decision : Decision) (Fits : Layout → Prop), decision.Suits Fits →
      (change decision).Suits Fits) : Plans settings run (plan.modify id change) := by
  have hweakens := weakens_modify plan id hchange
  exact ⟨hplans.suits.mono fun other _ => hweakens other,
    fun other hmem => (hweakens other).eq_none (hplans.only other hmem),
    (Plan.ending_modify plan id change).trans hplans.ending⟩

theorem Plans.behind {plan : Plan} (hplans : Plans settings run plan) (before : Option Node)
    (hnodup : (Node.idsOfAll (before.toList ++ run)).Nodup) :
    Plans settings (before.toList ++ run) plan := by
  rw [idsOfAll_append] at hnodup
  have hdisjoint := (List.nodup_append.mp hnodup).2.2
  refine ⟨Plan.suitsAll_append.mpr ⟨Plan.suitsAll_of_undecided settings fun id hmem => ?_,
    hplans.suits⟩, fun id hmem => ?_, hplans.ending⟩
  · exact hplans.only id fun hother => hdisjoint id hmem id hother rfl
  · rw [idsOfAll_append, List.mem_append, not_or] at hmem
    exact hplans.only id hmem.2

/-- A text in front of a run can be decided about as well. -/
theorem Plans.decide {plan : Plan} (hplans : Plans settings run plan) {leaf : Leaf}
    (hnodup : (Node.idsOfAll (.leaf leaf :: run)).Nodup) {decision : Decision}
    (hsuits : decision.Suits (Layout.SuitsLeaf leaf)) :
    Plans settings (.leaf leaf :: run) (plan.decide leaf.id decision) := by
  have hown : leaf.id ∉ Node.idsOfAll run := by
    simp only [Node.idsOfAll_cons, Node.ids_leaf, List.singleton_append, List.nodup_cons] at hnodup
    exact hnodup.1
  refine ⟨⟨fun found hfound => ?_, hplans.suits.mono fun id hmem => Plan.weakens_of_eq ?_⟩,
    fun id hmem => ?_, hplans.ending⟩
  · obtain rfl := Plan.eq_of_get?_decide (hplans.only leaf.id hown) hfound
    exact hsuits
  · exact Plan.get?_decide_of_ne (by rintro rfl; exact hown hmem) _
  · simp only [Node.idsOfAll_cons, Node.ids_leaf, List.singleton_append, List.mem_cons,
      not_or] at hmem
    exact (Plan.get?_decide_of_ne (Ne.symm hmem.1) _).trans (hplans.only id hmem.2)

/-- The plan of a run concerns the run and the text in front of it. -/
theorem plans_layoutSelection (settings : Settings) (document : Document) (selection : Selection)
    (hnodup : (Node.idsOfAll (selection.before.toList ++ selection.nodes)).Nodup) :
    Plans settings (selection.before.toList ++ selection.nodes)
      (settings.layoutSelection document selection) := by
  have hrun : (Node.idsOfAll selection.nodes).Nodup := by
    rw [idsOfAll_append] at hnodup
    exact (List.nodup_append.mp hnodup).2.1
  have hlaid : ∀ cursor flow, settings.Laid selection.nodes
      ⟨Draft.start cursor document.count, flow, []⟩
      (settings.layoutNodes selection.nodes ⟨Draft.start cursor document.count, flow, []⟩) :=
    fun cursor flow => settings.laid_layoutNodes selection.nodes
      ⟨rfl, fun id _ => Plan.get?_empty _ id⟩ hrun
  unfold layoutSelection
  dsimp only
  generalize hlead : leadText? _ selection.before = lead
  generalize hfinal : settings.layoutNodes selection.nodes _ = final
  have hfinalLaid := hfinal ▸ hlaid _ _
  have hplans : Plans settings selection.nodes final.draft.plan :=
    ⟨hfinalLaid.suits, fun id hmem => (hfinalLaid.frame id hmem).trans (Plan.get?_empty _ id),
      hfinalLaid.ending⟩
  have hlaidBehind : ∀ {behind}, Plans settings selection.nodes behind → ∀ {leaf indent},
      lead = some leaf → Plans settings (selection.before.toList ++ selection.nodes)
        ((behind.decide leaf.id (keepLines leaf)).modify selection.first.id fun decision =>
          { decision with before := .lineBreak 1 indent }) := by
    intro behind hbehind leaf indent hsome
    obtain ⟨hbefore, hkind⟩ := eq_of_leadText? (hlead.trans hsome)
    rw [hbefore] at hnodup ⊢
    exact (hbehind.decide hnodup (suits_keepLines hkind)).modify _ fun decision Fits hsuits =>
      ⟨Gap.blank_lineBreak _ _, hsuits.after, hsuits.layout⟩
  have hblanks := hfinalLaid.blanks
  cases hleft : final.blanks with
  | nil =>
      split
      next => exact hplans.behind selection.before hnodup
      next leaf => exact hlaidBehind hplans rfl
  | cons c rest =>
      rw [hleft] at hblanks
      have hkept : Plans settings selection.nodes (final.draft.plan.modify selection.last.id
          fun decision => { decision with after := .kept (c :: rest) }) :=
        hplans.modify _ fun decision Fits hsuits =>
          ⟨hsuits.before, Gap.blank_kept hblanks, hsuits.layout⟩
      split
      next => exact hkept.behind selection.before hnodup
      next leaf => exact hlaidBehind hkept rfl

/-- Without a range, all of a document is laid out. -/
theorem plan_none (hcheck : settings.check = .ok ()) (document : Document) :
    settings.plan document none = .ok (settings.layoutDocument document) := by
  simp only [Settings.plan, hcheck]
  rfl

/-- Planning a document with settings that are accepted succeeds, and whatever part of it is laid
out, the plan suits all of its nodes. -/
theorem exists_plan {text : List Char} {document : Document} (hcheck : settings.check = .ok ())
    (hparse : parse text = .ok document) (range : Option Span) :
    ∃ plan, settings.plan document range = .ok plan ∧ plan.SuitsAll settings document.children ∧
      plan.ending.Blank := by
  have hnodup := Document.nodup_ids_of_parse hparse
  unfold Settings.plan
  rw [hcheck]
  cases range with
  | none =>
      have hready : Ready document.children
          ⟨Draft.start .origin document.count, Flow.start 0 (.start false), []⟩ :=
        ⟨rfl, fun id _ => Plan.get?_empty _ id⟩
      have hlaid := settings.laid_layoutNodes document.children hready hnodup
      exact ⟨settings.layoutDocument document, rfl,
        hlaid.suits.mono fun id _ => Plan.weakens_of_eq rfl, settings.blank_finalGap hlaid.blanks⟩
  | some range =>
      cases hselect : settings.select document (range.normalize document.source) with
      | none =>
          refine ⟨Plan.empty document.count, ?_, Plan.suitsAll_of_undecided settings
            fun id _ => Plan.get?_empty _ id, Gap.blank_nothing⟩
          simp only [bind, Except.bind, hselect]
          rfl
      | some selection =>
          have hreaches := reaches_selectAmong hselect
          have hplans := plans_layoutSelection settings document selection
            (hnodup.sublist hreaches.infix.sublist)
          refine ⟨settings.layoutSelection document selection, ?_,
            suitsAll_of_reaches hreaches hnodup hplans.suits hplans.only, ?_⟩
          · simp only [bind, Except.bind, hselect]
            rfl
          · rw [hplans.ending]
            exact Gap.blank_nothing

end Settings

end Markup
