import Markup.Plan.Selection
import Markup.Proofs.Plan.Agreement
import Markup.Proofs.Plan.Overwriting

/-!
# Trials

Where heights are limited, the content of an element is laid out on trial to find out how tall it
gets, and once more if that is too tall. Planning in place goes back to the position in front of the
content for this, and to nothing else: what the trial has decided stays in the plan until it is
decided anew, and what is known of heights stays known. It comes to the same as taking the decisions
back. No element is tried twice, and where all the heights are known from the start, planning comes
to the same without any trial. Main statement: `Settings.plan_replayed`.
-/

namespace Markup

open Markup.Text

/-- An element that has been laid out on trial, with whether it is short enough to have its children
indented. -/
structure Trial where
  id : Nat
  fits : Bool
  deriving DecidableEq, Repr

/-! ## Planning in place -/

namespace Settings

variable (settings : Settings)

/-- Chooses the indent of the children of an element where the draft is changed in place, and lists
the trials. Behind a trial that is too tall, the position alone is that in front of it again. -/
def layoutBodyInPlace (id : Nat) (name : List Char) (heading : Heading)
    (content : Nat → Draft → Body × List Trial) : Body × List Trial :=
  let flush := heading.indent
  let stepped := heading.indent + settings.indentSize
  if (heading.ownLine || heading.block) && !settings.doesNotIndentChildrenOf name then
    match settings.isShort? heading.draft id with
    | some true => content stepped heading.draft
    | some false => content flush heading.draft
    | none =>
        let (trial, inside) := content stepped heading.draft
        let fits := Nat.blt (trial.draft.cursor.lines - heading.lines) settings.heightLimit
        let measured := trial.draft.measure id fits
        if fits then ({ trial with draft := measured }, inside ++ [⟨id, fits⟩])
        else
          let (body, further) := content flush (measured.moveTo heading.draft.cursor)
          (body, inside ++ ⟨id, fits⟩ :: further)
  else content flush heading.draft

mutual

/-- Lays out a node in place. Only content that is laid out may be tried. -/
def layoutNodeInPlace (settings : Settings) : Node → Progress → Progress × List Trial
  | .leaf leaf, progress => (settings.layoutLeaf leaf progress, [])
  | .element elem children, progress =>
      let heading := settings.layoutHeading elem.tag children progress
      match settings.contentOf elem.tag with
      | .formatted =>
          let (body, trials) :=
            settings.layoutBodyInPlace elem.id elem.name heading fun indent draft =>
            let (inner, trials) := settings.layoutNodesInPlace children
              ⟨draft, Flow.start indent (.start heading.block), []⟩
            (settings.layoutEnding heading elem.endTag inner, trials)
          (finishElement elem.id heading .formatted body, trials)
      | _ => (settings.layoutNode (.element elem children) progress, [])

/-- Lays out nodes that follow each other, in place. -/
def layoutNodesInPlace (settings : Settings) : List Node → Progress → Progress × List Trial
  | [], progress => (progress, [])
  | node :: rest, progress =>
      let (between, first) := settings.layoutNodeInPlace node progress
      let (after, others) := settings.layoutNodesInPlace rest between
      (after, first ++ others)

end

end Settings

/-- A document that has been planned: its plan, the position behind it, what is known of heights,
and the elements that have been tried. -/
structure Planning where
  plan : Plan
  cursor : Cursor
  heights : Array (Option Bool)
  trials : List Trial
  deriving DecidableEq, Repr

namespace Settings

variable (settings : Settings)

/-- What the planning of a document comes to once its nodes are laid out. -/
def finishInPlace (laid : Progress × List Trial) : Planning :=
  { plan := { laid.1.draft.plan with ending := settings.finalGap laid.1.blanks }
    cursor := laid.1.draft.cursor
    heights := laid.1.draft.short
    trials := laid.2 }

/-- Plans a document in place, with nothing decided yet and these heights known. -/
def planInPlace (document : Document) (heights : Array (Option Bool)) : Planning :=
  settings.finishInPlace (settings.layoutNodesInPlace document.children
    ⟨⟨.origin, Plan.empty document.count, heights⟩, Flow.start 0 (.start false), []⟩)

end Settings

/-! ## What is known of heights -/

/-- All that is known of heights is known later on as well. -/
def Grows (heights later : Array (Option Bool)) : Prop :=
  ∀ (id : Nat) (fits : Bool), heights[id]? = some (some fits) → later[id]? = some (some fits)

theorem Grows.refl (heights : Array (Option Bool)) : Grows heights heights :=
  fun _ _ hknown => hknown

theorem Grows.trans {first second third : Array (Option Bool)} (hfirst : Grows first second)
    (hsecond : Grows second third) : Grows first third :=
  fun id fits hknown => hsecond id fits (hfirst id fits hknown)

/-- Trials are noted one after the other, each of an element of which nothing is known up to
then. -/
def Noted : Array (Option Bool) → List Trial → Array (Option Bool) → Prop
  | before, [], after => after = before
  | before, trial :: rest, after => before[trial.id]? = some none ∧
      Noted (before.setIfInBounds trial.id (some trial.fits)) rest after

theorem grows_setIfInBounds {heights : Array (Option Bool)} {id : Nat}
    (hunknown : heights[id]? = some none) (fits : Bool) :
    Grows heights (heights.setIfInBounds id (some fits)) := by
  intro other found hknown
  rw [Array.getElem?_setIfInBounds_ne]
  · exact hknown
  · rintro rfl
    simp [hunknown] at hknown

namespace Noted

variable {before between after : Array (Option Bool)} {trials others : List Trial}

theorem append (hfirst : Noted before trials between) (hsecond : Noted between others after) :
    Noted before (trials ++ others) after := by
  induction trials generalizing before with
  | nil =>
      obtain rfl := hfirst
      exact hsecond
  | cons trial rest ih => exact ⟨hfirst.1, ih hfirst.2⟩

theorem grows (hnoted : Noted before trials after) : Grows before after := by
  induction trials generalizing before with
  | nil =>
      obtain rfl := hnoted
      exact .refl _
  | cons trial rest ih => exact (grows_setIfInBounds hnoted.1 trial.fits).trans (ih hnoted.2)

/-- An element whose height is known is not tried. -/
theorem not_mem (hnoted : Noted before trials after) {id : Nat} {fits : Bool}
    (hknown : before[id]? = some (some fits)) : id ∉ trials.map Trial.id := by
  induction trials generalizing before with
  | nil => exact List.not_mem_nil
  | cons trial rest ih =>
      rw [List.map_cons, List.mem_cons, not_or]
      refine ⟨?_, ih hnoted.2 (grows_setIfInBounds hnoted.1 trial.fits id fits hknown)⟩
      rintro rfl
      simp [hnoted.1] at hknown

/-- No element is tried twice. -/
theorem nodup (hnoted : Noted before trials after) : (trials.map Trial.id).Nodup := by
  induction trials generalizing before with
  | nil => exact List.nodup_nil
  | cons trial rest ih =>
      obtain ⟨hroom, -⟩ := Array.getElem?_eq_some_iff.mp hnoted.1
      have hknown := Array.getElem?_setIfInBounds_self_of_lt (a := some trial.fits) hroom
      exact List.nodup_cons.mpr ⟨hnoted.2.not_mem hknown, ih hnoted.2⟩

end Noted

/-! ## Decisions of a trial -/

namespace Settings

variable (settings : Settings)

/-- Whatever a trial decides is decided anew, so that it makes no difference to leave it in the
plan. -/
theorem fst_layoutBodyInPlace (id : Nat) (name : List Char) (heading : Heading) {ids : List Nat}
    {content : Nat → Draft → Body} {inPlace : Nat → Draft → Body × List Trial}
    (hcontent : Body.Heedless ids content)
    (hsame : ∀ indent draft, (inPlace indent draft).1 = content indent draft) :
    (settings.layoutBodyInPlace id name heading inPlace).1 =
      settings.layoutBody id name heading content := by
  unfold layoutBodyInPlace layoutBody
  dsimp only
  split
  next =>
    cases settings.isShort? heading.draft id with
    | some short => cases short <;> exact hsame _ _
    | none =>
        simp only [hsame]
        generalize Nat.blt _ _ = fits
        cases fits with
        | true => rfl
        | false =>
            simp only [Bool.false_eq_true, if_false]
            let trial := content (heading.indent + settings.indentSize) heading.draft
            exact hcontent.again heading.draft
              { heading.draft with short := (trial.draft.measure id false).short } rfl _ _
  next => exact hsame _ _

mutual

theorem fst_layoutNodeInPlace (node : Node) (progress : Progress) :
    (settings.layoutNodeInPlace node progress).1 = settings.layoutNode node progress := by
  cases node with
  | leaf leaf => simp only [layoutNodeInPlace, layoutNode]
  | element elem children =>
      obtain ⟨ids, hchildren⟩ := settings.heedless_layoutNodes children
      rw [layoutNodeInPlace, layoutNode]
      cases settings.contentOf elem.tag with
      | empty => rfl
      | verbatim => rfl
      | formatted =>
        let heading := settings.layoutHeading elem.tag children progress
        exact congrArg (finishElement elem.id heading .formatted)
          (settings.fst_layoutBodyInPlace elem.id elem.name heading
            (settings.heedless_content hchildren heading elem.endTag)
              fun indent draft => congrArg (settings.layoutEnding heading elem.endTag)
                (fst_layoutNodesInPlace children _))

/-- Planning in place comes to the same as taking back what a trial has decided. -/
theorem fst_layoutNodesInPlace (nodes : List Node) (progress : Progress) :
    (settings.layoutNodesInPlace nodes progress).1 = settings.layoutNodes nodes progress := by
  cases nodes with
  | nil => simp only [layoutNodesInPlace, layoutNodes]
  | cons node rest =>
      rw [layoutNodesInPlace, layoutNodes, ← fst_layoutNodeInPlace node progress]
      exact fst_layoutNodesInPlace rest _

end

/-- The content of an element, laid out in place at an indent. -/
def contentInPlace (heading : Heading) (endTag : Option EndTag) (children : List Node)
    (indent : Nat) (draft : Draft) : Body × List Trial :=
  let inside := settings.layoutNodesInPlace children
    ⟨draft, Flow.start indent (.start heading.block), []⟩
  (settings.layoutEnding heading endTag inside.1, inside.2)

variable (heading : Heading) (endTag : Option EndTag) (children : List Node)

theorem fst_contentInPlace (indent : Nat) (draft : Draft) :
    (settings.contentInPlace heading endTag children indent draft).1 =
      settings.layoutEnding heading endTag (settings.layoutNodes children
        ⟨draft, Flow.start indent (.start heading.block), []⟩) :=
  congrArg (settings.layoutEnding heading endTag) (settings.fst_layoutNodesInPlace children _)

theorem keeps_contentInPlace (indent : Nat) (draft : Draft) :
    Draft.Keeps (Node.idsOfAll children) draft
      (settings.contentInPlace heading endTag children indent draft).1.draft := by
  rw [fst_contentInPlace]
  exact settings.keeps_layoutEnding heading endTag (settings.keeps_layoutNodes children
    ⟨draft, Flow.start indent (.start heading.block), []⟩)

theorem heedless_contentInPlace : ∃ ids, Body.Heedless ids fun indent draft =>
    (settings.contentInPlace heading endTag children indent draft).1 := by
  obtain ⟨ids, hchildren⟩ := settings.heedless_layoutNodes children
  simp only [fst_contentInPlace]
  exact ⟨ids, settings.heedless_content hchildren heading endTag⟩

end Settings

/-! ## Planning without trials -/

/-- The same draft with other heights known. -/
def Draft.knowing (draft : Draft) (heights : Array (Option Bool)) : Draft :=
  { draft with short := heights }

@[simp]
theorem Draft.knowing_short (draft : Draft) : draft.knowing draft.short = draft := rfl

/-- The same progress with other heights known. -/
def Progress.knowing (progress : Progress) (heights : Array (Option Bool)) : Progress :=
  { progress with draft := progress.draft.knowing heights }

/-- The same start of an element, with other heights known. -/
def Heading.knowing (heading : Heading) (heights : Array (Option Bool)) : Heading :=
  { heading with draft := heading.draft.knowing heights }

/-- The same content of an element, with other heights known. -/
def Body.knowing (body : Body) (heights : Array (Option Bool)) : Body :=
  { body with draft := body.draft.knowing heights }

/-- What a layout comes to, and the trials that it makes, depend on the heights that are known at
the start. Where these ones are known, its trials are noted one after the other; and where all that
is known in the end is known at the start already, it comes to the same without any. -/
structure Settles {α : Type} (draftOf : α → Draft) (knowing : α → Array (Option Bool) → α)
    (known : Array (Option Bool)) (layout : Array (Option Bool) → α × List Trial) : Prop where
  noted : Noted known (layout known).2 (draftOf (layout known).1).short
  replayed : ∀ heights, Grows (draftOf (layout known).1).short heights →
    layout heights = (knowing (layout known).1 heights, [])

/-- What settling is for nodes. -/
abbrev Progress.Settles (known : Array (Option Bool))
    (layout : Array (Option Bool) → Progress × List Trial) : Prop :=
  Markup.Settles Progress.draft Progress.knowing known layout

/-- What settling is for the content of an element. -/
abbrev Body.Settles (known : Array (Option Bool))
    (layout : Array (Option Bool) → Body × List Trial) : Prop :=
  Markup.Settles Body.draft Body.knowing known layout

/-- Nodes behind nodes. -/
theorem Settles.followed {known : Array (Option Bool)}
    {first : Array (Option Bool) → Progress × List Trial} {next : Progress → Progress × List Trial}
    (hfirst : Progress.Settles known first)
    (hnext : Progress.Settles (first known).1.draft.short fun heights =>
      next ((first known).1.knowing heights)) :
    Progress.Settles known fun heights =>
      ((next (first heights).1).1, (first heights).2 ++ (next (first heights).1).2) := by
  refine ⟨hfirst.noted.append hnext.noted, fun heights hgrows => ?_⟩
  simp only [hfirst.replayed heights (hnext.noted.grows.trans hgrows), List.nil_append]
  exact hnext.replayed heights hgrows

namespace Settings

variable {settings : Settings}

open Draft (Keeps)

/-- Whether an element is short is not forgotten as more heights are known. -/
theorem isShort?_knowing {draft : Draft} {heights : Array (Option Bool)}
    (hgrows : Grows draft.short heights) {id : Nat} {short : Bool}
    (hknown : settings.isShort? draft id = some short) :
    settings.isShort? (draft.knowing heights) id = some short := by
  unfold isShort? at hknown ⊢
  split at hknown
  next hlimit => rwa [if_pos hlimit]
  next hlimit =>
    rw [if_neg hlimit]
    unfold Draft.short? at hknown ⊢
    rw [Option.join_eq_some_iff] at hknown ⊢
    exact hgrows id short hknown

theorem isShort?_of_getElem? (hlimit : settings.heightLimit ≠ 0) {draft : Draft} {id : Nat}
    {short : Bool} (hknown : draft.short[id]? = some (some short)) :
    settings.isShort? draft id = some short := by
  rw [isShort?, if_neg hlimit, Draft.short?, hknown]
  rfl

/-- Of an element that is not among these nodes, nothing has been found out. -/
theorem getElem?_short_of_keeps (hlimit : settings.heightLimit ≠ 0) {ids : List Nat}
    {before after : Draft} (hkeeps : Keeps ids before after) {id : Nat} (hfresh : id ∉ ids)
    (hroom : id < before.short.size) (hunknown : settings.isShort? before id = none) :
    after.short[id]? = some none := by
  rw [isShort?, if_neg hlimit, ← hkeeps.short id hfresh, Draft.short?] at hunknown
  rw [← hkeeps.measured] at hroom
  rw [Array.getElem?_eq_getElem hroom] at hunknown ⊢
  exact congrArg some hunknown

section Body

variable {id : Nat} {name : List Char} {content : Nat → Draft → Body × List Trial}

theorem layoutBodyInPlace_of_known (heading : Heading)
    (hsteps : ((heading.ownLine || heading.block) && !settings.doesNotIndentChildrenOf name) = true)
    {short : Bool} (hknown : settings.isShort? heading.draft id = some short) :
    settings.layoutBodyInPlace id name heading content =
      content (if short then heading.indent + settings.indentSize else heading.indent)
        heading.draft := by
  unfold layoutBodyInPlace
  rw [if_pos hsteps, hknown]
  cases short <;> rfl

variable {heading : Heading}

theorem layoutBodyInPlace_of_unknown
    (hsteps : ((heading.ownLine || heading.block) && !settings.doesNotIndentChildrenOf name) = true)
    (hunknown : settings.isShort? heading.draft id = none) {trial : Body} {inside : List Trial}
    (htrial : content (heading.indent + settings.indentSize) heading.draft = (trial, inside)) :
    settings.layoutBodyInPlace id name heading content =
      match Nat.blt (trial.draft.cursor.lines - heading.lines) settings.heightLimit with
      | true => ({ trial with draft := trial.draft.measure id true }, inside ++ [⟨id, true⟩])
      | false =>
          let again :=
            content heading.indent ((trial.draft.measure id false).moveTo heading.draft.cursor)
          (again.1, inside ++ ⟨id, false⟩ :: again.2) := by
  unfold layoutBodyInPlace
  rw [if_pos hsteps, hunknown]
  simp only [htrial]
  generalize Nat.blt _ _ = fits
  cases fits <;> rfl

/-- Where the height of an element is known behind its content, it is enough to know it in front of
it. -/
theorem settles_of_found
    (hsteps : ((heading.ownLine || heading.block) && !settings.doesNotIndentChildrenOf name) = true)
    (short : Bool) {body : Body} {trials : List Trial}
    (hlaid : settings.layoutBodyInPlace id name heading content = (body, trials))
    (hnoted : Noted heading.draft.short trials body.draft.short)
    (hfound : ∀ heights, Grows body.draft.short heights →
      settings.isShort? (heading.draft.knowing heights) id = some short)
    (hreplayed : ∀ heights, Grows body.draft.short heights →
      content (if short then heading.indent + settings.indentSize else heading.indent)
        (heading.draft.knowing heights) = (body.knowing heights, [])) :
    Body.Settles heading.draft.short fun heights =>
      settings.layoutBodyInPlace id name (heading.knowing heights) content := by
  have hsame : settings.layoutBodyInPlace id name (heading.knowing heading.draft.short) content =
      (body, trials) := hlaid
  refine ⟨?_, fun heights hgrows => ?_⟩
  · simp only [hsame]
    exact hnoted
  · simp only [hsame] at hgrows ⊢
    have hknown := hfound heights hgrows
    calc settings.layoutBodyInPlace id name (heading.knowing heights) content
        = content (if short then heading.indent + settings.indentSize else heading.indent)
            (heading.draft.knowing heights) :=
          layoutBodyInPlace_of_known (heading.knowing heights) hsteps hknown
      _ = (body.knowing heights, []) := hreplayed heights hgrows

theorem settles_of_known
    (hsteps : ((heading.ownLine || heading.block) && !settings.doesNotIndentChildrenOf name) = true)
    {short : Bool} (hknown : settings.isShort? heading.draft id = some short)
    (hcontent : ∀ indent, Body.Settles heading.draft.short fun heights =>
      content indent (heading.draft.knowing heights)) :
    Body.Settles heading.draft.short fun heights =>
      settings.layoutBodyInPlace id name (heading.knowing heights) content := by
  obtain ⟨hnoted, hreplayed⟩ :=
    hcontent (if short then heading.indent + settings.indentSize else heading.indent)
  exact settles_of_found hsteps short (layoutBodyInPlace_of_known heading hsteps hknown) hnoted
    (fun heights hgrows => isShort?_knowing (hnoted.grows.trans hgrows) hknown) hreplayed

variable {ids keys : List Nat}

/-- Content that is too tall is laid out once more, from the plan that the trial has left. With the
height of the element known it is laid out from the plan in front of it, which comes to the same. -/
theorem settles_of_unknown
    (hsteps : ((heading.ownLine || heading.block) && !settings.doesNotIndentChildrenOf name) = true)
    (hunknown : settings.isShort? heading.draft id = none)
    (hkeeps : ∀ indent draft, Keeps ids draft (content indent draft).1.draft)
    (hheedless : Body.Heedless keys fun indent draft => (content indent draft).1)
    (hfresh : id ∉ ids) (hroom : id < heading.draft.short.size)
    (hcontent : ∀ indent (draft : Draft), draft.short.size = heading.draft.short.size →
      Body.Settles draft.short fun heights => content indent (draft.knowing heights)) :
    Body.Settles heading.draft.short fun heights =>
      settings.layoutBodyInPlace id name (heading.knowing heights) content := by
  have hlimit : settings.heightLimit ≠ 0 := by
    intro hzero
    simp [isShort?, hzero] at hunknown
  have hkept := hkeeps (heading.indent + settings.indentSize) heading.draft
  obtain ⟨hinside, hstepped⟩ := hcontent (heading.indent + settings.indentSize) heading.draft rfl
  obtain ⟨trial, inside, htrial⟩ : ∃ trial inside,
      content (heading.indent + settings.indentSize) heading.draft = (trial, inside) := ⟨_, _, rfl⟩
  have hlaid := layoutBodyInPlace_of_unknown hsteps hunknown htrial
  simp only [Draft.knowing_short, htrial] at hinside hstepped hkept
  have hopen := getElem?_short_of_keeps hlimit hkept hfresh hroom hunknown
  obtain ⟨hwithin, -⟩ := Array.getElem?_eq_some_iff.mp hopen
  have hmeasured : ∀ fits, Noted heading.draft.short (inside ++ [⟨id, fits⟩])
      (trial.draft.measure id fits).short := fun fits => hinside.append ⟨hopen, rfl⟩
  have hfound : ∀ fits heights, Grows (trial.draft.measure id fits).short heights →
      settings.isShort? (heading.draft.knowing heights) id = some fits := fun fits heights hgrows =>
    isShort?_of_getElem? hlimit (hgrows id fits (Array.getElem?_setIfInBounds_self_of_lt hwithin))
  cases hfits : Nat.blt (trial.draft.cursor.lines - heading.lines) settings.heightLimit with
  | true =>
      rw [hfits] at hlaid
      refine settles_of_found hsteps true hlaid (hmeasured true)
        (hfound true) fun heights hgrows => ?_
      exact hstepped heights ((grows_setIfInBounds hopen true).trans hgrows)
  | false =>
      rw [hfits] at hlaid
      let measured := trial.draft.measure id false
      have hsize : measured.short.size = heading.draft.short.size :=
        Array.size_setIfInBounds.trans hkept.measured
      obtain ⟨hfurther, -⟩ := hcontent heading.indent (measured.moveTo heading.draft.cursor) hsize
      obtain ⟨-, hreplayed⟩ := hcontent heading.indent (heading.draft.knowing measured.short) hsize
      have hstale : (content heading.indent (measured.moveTo heading.draft.cursor)).1 =
          (content heading.indent (heading.draft.knowing measured.short)).1 := by
        have hagain := hheedless.again heading.draft (heading.draft.knowing measured.short) rfl
          (heading.indent + settings.indentSize) heading.indent
        simp only [htrial] at hagain
        exact hagain
      have hnoted := (hmeasured false).append hfurther
      rw [List.append_assoc] at hnoted
      refine settles_of_found hsteps false hlaid hnoted (fun heights hgrows => ?_)
        fun heights hgrows => ?_
      · exact hfound false heights (hfurther.grows.trans hgrows)
      · rw [hstale] at hgrows ⊢
        exact hreplayed heights hgrows

/-- Whether or not the height of an element matters and is known, its content settles if it does so
at every indent and from every draft. -/
theorem settles_layoutBodyInPlace
    (hkeeps : ∀ indent draft, Keeps ids draft (content indent draft).1.draft)
    (hheedless : Body.Heedless keys fun indent draft => (content indent draft).1)
    (hfresh : id ∉ ids) (hroom : id < heading.draft.short.size)
    (hcontent : ∀ indent (draft : Draft), draft.short.size = heading.draft.short.size →
      Body.Settles draft.short fun heights => content indent (draft.knowing heights)) :
    Body.Settles heading.draft.short fun heights =>
      settings.layoutBodyInPlace id name (heading.knowing heights) content := by
  by_cases hsteps :
      ((heading.ownLine || heading.block) && !settings.doesNotIndentChildrenOf name) = true
  · cases hknown : settings.isShort? heading.draft id with
    | some short =>
        exact settles_of_known hsteps hknown fun indent => hcontent indent heading.draft rfl
    | none => exact settles_of_unknown hsteps hknown hkeeps hheedless hfresh hroom hcontent
  · have hlaid : ∀ heights, settings.layoutBodyInPlace id name (heading.knowing heights) content =
        content heading.indent (heading.draft.knowing heights) := fun heights => if_neg hsteps
    simp only [hlaid]
    exact hcontent heading.indent heading.draft rfl

end Body

theorem layoutLeaf_knowing (leaf : Leaf) (progress : Progress) (heights : Array (Option Bool)) :
    settings.layoutLeaf leaf (progress.knowing heights) =
      (settings.layoutLeaf leaf progress).knowing heights := by
  unfold layoutLeaf
  cases leaf.kind with
  | text =>
      unfold layoutText
      cases Run.ofText leaf.raw <;> rfl
  | comment => rfl
  | verbatim => rfl
  | doctype => rfl

theorem settles_layoutEnding {known : Array (Option Bool)}
    {layout : Array (Option Bool) → Progress × List Trial} (hlayout : Progress.Settles known layout)
    (heading : Heading) (endTag : Option EndTag) : Body.Settles known fun heights =>
      (settings.layoutEnding heading endTag (layout heights).1, (layout heights).2) := by
  obtain ⟨hnoted, hreplayed⟩ := hlayout
  cases endTag with
  | none => exact ⟨hnoted, fun heights hgrows => by rw [hreplayed heights hgrows]; rfl⟩
  | some tag => exact ⟨hnoted, fun heights hgrows => by rw [hreplayed heights hgrows]; rfl⟩

theorem settles_finishElement {known : Array (Option Bool)}
    {layout : Array (Option Bool) → Body × List Trial}
    (hlayout : Body.Settles known layout) (id : Nat) (heading : Heading) (content : Content) :
    Progress.Settles known fun heights =>
      (finishElement id heading content (layout heights).1, (layout heights).2) := by
  obtain ⟨hnoted, hreplayed⟩ := hlayout
  exact ⟨hnoted, fun heights hgrows => by rw [hreplayed heights hgrows]; rfl⟩

mutual

theorem settles_layoutNodeInPlace (node : Node) (progress : Progress) (hnodup : node.ids.Nodup)
    (hroom : ∀ id ∈ node.ids, id < progress.draft.short.size) :
    Progress.Settles progress.draft.short fun heights =>
      settings.layoutNodeInPlace node (progress.knowing heights) := by
  cases node with
  | leaf leaf =>
      simp only [layoutNodeInPlace, layoutLeaf_knowing]
      exact ⟨rfl, fun heights _ => rfl⟩
  | element elem children =>
      rw [Node.ids_element] at hnodup hroom
      obtain ⟨hfresh, hnodup⟩ := List.nodup_cons.mp hnodup
      cases hcontent : settings.contentOf elem.tag with
      | empty =>
          simp only [layoutNodeInPlace, layoutNode, hcontent]
          exact ⟨rfl, fun heights _ => rfl⟩
      | verbatim =>
          simp only [layoutNodeInPlace, layoutNode, hcontent]
          exact ⟨rfl, fun heights _ => rfl⟩
      | formatted =>
          let heading := settings.layoutHeading elem.tag children progress
          obtain ⟨keys, hheedless⟩ := settings.heedless_contentInPlace heading elem.endTag children
          have hbody : Body.Settles heading.draft.short fun heights =>
              settings.layoutBodyInPlace elem.id elem.name (heading.knowing heights)
                (settings.contentInPlace heading elem.endTag children) := by
            refine settles_layoutBodyInPlace
              (settings.keeps_contentInPlace heading elem.endTag children) hheedless hfresh
                (hroom elem.id List.mem_cons_self) fun indent draft hsize => ?_
            refine settles_layoutEnding (settles_layoutNodesInPlace children
              ⟨draft, Flow.start indent (.start heading.block), []⟩ hnodup fun id hmem => ?_)
                heading elem.endTag
            exact hsize ▸ hroom id (List.mem_cons_of_mem _ hmem)
          simp only [layoutNodeInPlace, hcontent]
          exact settles_finishElement hbody elem.id heading .formatted

/-- Nodes that have numbers of their own, with room for all of them in what is known of heights,
settle. -/
theorem settles_layoutNodesInPlace (nodes : List Node) (progress : Progress)
    (hnodup : (Node.idsOfAll nodes).Nodup)
    (hroom : ∀ id ∈ Node.idsOfAll nodes, id < progress.draft.short.size) :
    Progress.Settles progress.draft.short fun heights =>
      settings.layoutNodesInPlace nodes (progress.knowing heights) := by
  cases nodes with
  | nil =>
      simp only [layoutNodesInPlace]
      exact ⟨rfl, fun heights _ => rfl⟩
  | cons node rest =>
      rw [Node.idsOfAll_cons] at hnodup hroom
      obtain ⟨hfirst, hrest, -⟩ := List.nodup_append.mp hnodup
      have hsize := (settings.keeps_layoutNode node progress).measured
      rw [← fst_layoutNodeInPlace] at hsize
      have hnode := settles_layoutNodeInPlace node progress hfirst fun id hmem =>
        hroom id (List.mem_append_left _ hmem)
      have hothers := settles_layoutNodesInPlace rest (settings.layoutNodeInPlace node progress).1
        hrest fun id hmem => hsize ▸ hroom id (List.mem_append_right _ hmem)
      simp only [layoutNodesInPlace]
      exact hnode.followed hothers

end

/-- Planning a document in place comes to the plan, the position and the heights that planning comes
to otherwise. The elements that are tried are noted one after the other, each for the first time,
and nothing else becomes known of heights. With all that is known in the end known from the start,
planning comes to the same plan, position and heights, and makes no trial. -/
theorem plan_replayed {settings : Settings} {text : List Char} {document : Document}
    (hcheck : settings.check = .ok ()) (hparse : parse text = .ok document) :
    let unknown := Array.replicate document.count none
    let first := settings.planInPlace document unknown
    let again := settings.planInPlace document first.heights
    (settings.plan document none = .ok first.plan ∧
      (settings.laidOut document).draft.cursor = first.cursor ∧
        (settings.laidOut document).draft.short = first.heights) ∧
      (Noted unknown first.trials first.heights ∧ (first.trials.map Trial.id).Nodup) ∧
        again = { first with trials := [] } := by
  intro unknown first again
  let start : Progress :=
    ⟨⟨.origin, Plan.empty document.count, unknown⟩, Flow.start 0 (.start false), []⟩
  have hroom : ∀ id ∈ Node.idsOfAll document.children, id < start.draft.short.size := by
    intro id hmem
    rw [Document.ids_of_parse hparse, List.mem_range] at hmem
    simpa [start, unknown] using hmem
  obtain ⟨hnoted, hreplayed⟩ := settles_layoutNodesInPlace document.children start
    (Document.nodup_ids_of_parse hparse) hroom
  have hfirst : settings.finishInPlace (settings.laidOut document, first.trials) = first :=
    congrArg (fun final => settings.finishInPlace (final, first.trials))
      (settings.fst_layoutNodesInPlace document.children start).symm
  refine ⟨⟨?_, ?_, ?_⟩, ⟨hnoted, hnoted.nodup⟩, ?_⟩
  · rw [Settings.plan, hcheck, ← hfirst]
    rfl
  · exact congrArg Planning.cursor hfirst
  · exact congrArg Planning.heights hfirst
  · exact congrArg settings.finishInPlace (hreplayed first.heights (.refl _))

/-- The division is too tall with its content indented, so that the paragraph is tried in a layout
that is given up; the bold element begins a line only in the layout that stands, and is tried
there. -/
theorem plan_replayed_too_tall :
    let settings : Settings := { rightMargin := 10, heightLimit := 3 }
    let text := "<div>aaaaaaa b <b>c</b><p>d</p></div>".toList
    settings.check = .ok () ∧ ∃ document, parse text = .ok document ∧
      let unknown := Array.replicate document.count none
      let first := settings.planInPlace document unknown
      let again := settings.planInPlace document first.heights
      first.trials = [⟨4, true⟩, ⟨0, false⟩, ⟨2, true⟩] ∧
        (settings.plan document none = .ok first.plan ∧
          (settings.laidOut document).draft.cursor = first.cursor ∧
            (settings.laidOut document).draft.short = first.heights) ∧
          (Noted unknown first.trials first.heights ∧ (first.trials.map Trial.id).Nodup) ∧
            again = { first with trials := [] } := by
  intro settings text
  have hcheck : settings.check = .ok () := by decide
  have htrials : (parse text).toOption.map (fun document =>
      (settings.planInPlace document (Array.replicate document.count none)).trials) =
        some [⟨4, true⟩, ⟨0, false⟩, ⟨2, true⟩] := by
    decide +kernel
  refine ⟨hcheck, ?_⟩
  cases hparse : parse text with
  | error failure => simp [hparse, Except.toOption] at htrials
  | ok document =>
      rw [hparse] at htrials
      exact ⟨document, rfl, Option.some.inj htrials, plan_replayed hcheck hparse⟩

end Settings

end Markup
