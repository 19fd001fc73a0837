import Markup.Proofs.Plan.Landing
import Markup.Proofs.Plan.Selection
import Markup.Proofs.Plan.Stability

/-!
# Going down into a document that comes out as it is

Where a document is arranged as it is, so is every run of siblings in it, from a stage that stands
where the run stands in the source. Main statement: `Settings.Picks.exists_place`.
-/

namespace Markup

open Markup.Text

/-! ## Nodes that come out as they are -/

/-- Behind these blanks, the nodes are arranged as they are. -/
def Settings.Steady (settings : Settings) (nodes : List Node) (pending : List Char)
    (stage : Stage) :
    Prop :=
  (settings.arrangeAll (Node.outlineAll (fun _ => true) nodes pending).1 stage).1 =
    (Node.outlineAll (fun _ => true) nodes pending).1

/-- A stage behind a text: either nothing has been written, or the text does not end with blanks. -/
structure Stage.At (stage : Stage) (written : List Char) : Prop where
  column : stage.cursor.column = columnAfter 0 written
  anchored : stage.cursor.anchored = false
  begun : written = [] ∧ stage.cursor.fresh = true ∧ stage.cursor.blank = true ∨
    written ≠ [] ∧ Trimmed written ∧ stage.cursor.Begun

namespace Settings

variable {settings : Settings} {stage : Stage} {written : List Char}

theorem length_arrangeAll (items : List Item) (stage : Stage) :
    (settings.arrangeAll items stage).1.length = items.length := by
  induction items generalizing stage with
  | nil => rfl
  | cons item rest ih => simp [arrangeAll, ih]

theorem Steady.split {first second : List Node} {pending : List Char}
    (hsteady : settings.Steady (first ++ second) pending stage) :
    settings.Steady first pending stage ∧
      settings.Steady second (Node.outlineAll (fun _ => true) first pending).2
        (settings.arrangeAll (Node.outlineAll (fun _ => true) first pending).1 stage).2 := by
  unfold Steady at hsteady ⊢
  rw [Node.outlineAll_append, arrangeAll_append] at hsteady
  exact List.append_inj hsteady (length_arrangeAll _ _)

/-- Behind items that are arranged as they are, the stage is behind their text. -/
theorem arrangeAll_at (hat : stage.At written) {items : List Item}
    (hproper : Item.ProperAll StartTag.Fits items)
    (hsame : (settings.arrangeAll items stage).1 = items) :
    (settings.arrangeAll items stage).2.At (written ++ Item.textOfAll items) := by
  have hpasses := settings.passes_arrangeAll items hproper stage
  rw [hsame] at hpasses
  cases items with
  | nil => simpa [arrangeAll, Item.textOfAll] using hat
  | cons item rest =>
      have hne : Item.textOfAll (item :: rest) ≠ [] := by
        simp [Item.textOfAll, (Item.trimmed_text item hproper.1).1]
      refine ⟨?_, hpasses.cursor.anchored hat.anchored,
        .inr ⟨by simp [hne], ?_, hpasses.begun (.inr hne)⟩⟩
      · rw [hpasses.cursor.column, hat.column, columnAfter_append]
      · exact (Item.trimmed_textOfAll _ hproper).append_left hne _

end Settings

/-! ## Gaps that come out as they are -/

theorem Text.lastLine_replicate (count indent : Nat) :
    lastLine (List.replicate (count + 1) '\n' ++ List.replicate indent ' ') =
      List.replicate indent ' ' := by
  rw [List.replicate_succ', List.append_assoc, List.singleton_append]
  exact (lastLine_append_cons (by simp) _).1

/-- The last line of a text that does not end with a blank is not blank. -/
theorem Text.Trimmed.not_blank_lastLine {text : List Char} (htrimmed : Trimmed text)
    (hne : text ≠ []) (more : List Char) (hmore : '\n' ∉ more) :
    allBlank (lastLine (text ++ more)) = false := by
  obtain ⟨c, hlast, hsolid⟩ := htrimmed.exists_getLast? hne
  obtain ⟨front, rfl⟩ := List.getLast?_eq_some_iff.mp hlast
  have hfeed : '\n' ≠ c := by
    rintro rfl
    simp [isBlank] at hsolid
  rw [List.append_assoc, lastLine_append_of_not_mem (by simp [hfeed, hmore])]
  simp [hsolid]

/-- A gap is found that comes out as these blanks, and leads behind them. -/
structure Stage.Skips (stage : Stage) (written blanks : List Char) (found : Gap × Cursor × Flow) :
    Prop where
  column : found.2.1.column = columnAfter 0 (written ++ blanks)
  blank : found.2.1.blank = allBlank (lastLine (written ++ blanks))
  anchored : found.2.1.anchored = false
  indent : found.2.2.indent = stage.flow.indent
  feed : '\n' ∈ blanks → lastLine blanks = List.replicate stage.flow.indent ' '
  start : written = [] → blanks = []

namespace Settings

variable {settings : Settings} {stage : Stage} {written : List Char}

theorem gapBetween_cases (settings : Settings) (cursor : Cursor) (flow : Flow) (blanks : List Char)
    (next : Following) (width : Nat) :
    let gap := (settings.gapBetween cursor flow blanks next width).1
    gap = .nothing ∨ gap = .space ∨ ∃ count, gap = .lineBreak (count + 1) flow.indent := by
  have hbreak : ∃ count, settings.breakGap (newlines blanks) flow.indent =
      .lineBreak (count + 1) flow.indent := by
    refine ⟨max 1 (min (newlines blanks) settings.feedLimit) - 1, ?_⟩
    rw [Nat.sub_add_cancel (Nat.le_max_left _ _), breakGap]
  dsimp only
  rw [gapBetween_eq]
  split
  next => exact .inr (.inr hbreak)
  next =>
    split
    next => exact .inr (.inr hbreak)
    next =>
      split
      next => exact .inr (.inr ⟨0, rfl⟩)
      next => split <;> simp

/-- The gap in front of an item, where blanks are not simply kept. -/
theorem skips_separate (hkeep : settings.keepWhitespaces = false) (hat : stage.At written)
    (blanks : List Char) (next : Following) (width : Nat) :
    stage.Skips written (settings.separate stage.cursor stage.flow blanks next width).1.text
      (settings.separate stage.cursor stage.flow blanks next width) := by
  have hpasses := settings.passes_separate stage.cursor stage.flow blanks next width
  have hindent := settings.indent_separate stage.cursor stage.flow blanks next width
  have hcolumn := hpasses.column
  rw [hat.column, ← columnAfter_append] at hcolumn
  rcases hat.begun with ⟨rfl, hfresh, hblank⟩ | ⟨hne, htrimmed, hfresh, hblank⟩
  · have hfound : settings.separate stage.cursor stage.flow blanks next width =
        (.nothing, stage.cursor, stage.flow) := by
      rw [separate, if_pos hfresh]
    refine ⟨hcolumn, ?_, hpasses.anchored hat.anchored, hindent, ?_, fun _ => ?_⟩
    · rw [hfound]
      exact hblank
    · rw [hfound]
      simp [Gap.text]
    · rw [hfound]
      rfl
  · have hgap : (settings.separate stage.cursor stage.flow blanks next width).1 =
          (settings.gapBetween stage.cursor stage.flow blanks next width).1 ∧
        (settings.separate stage.cursor stage.flow blanks next width).2.1 =
          stage.cursor.skip (settings.gapBetween stage.cursor stage.flow blanks next width).1 := by
      rw [separate, if_neg (by simp [hfresh]), if_neg (by simp [hkeep, hat.anchored])]
      exact ⟨rfl, rfl⟩
    refine ⟨hcolumn, ?_, hpasses.anchored hat.anchored, hindent, ?_, fun hnil => absurd hnil hne⟩
    · rw [hgap.1, hgap.2]
      rcases settings.gapBetween_cases stage.cursor stage.flow blanks next width with
        heq | heq | ⟨count, heq⟩
      · rw [heq]
        exact hblank.trans (htrimmed.not_blank_lastLine hne _ (by simp [Gap.text])).symm
      · rw [heq]
        exact hblank.trans (htrimmed.not_blank_lastLine hne _ (by simp [Gap.text])).symm
      · rw [heq, Gap.text, (lastLine_append (by simp) written).1, lastLine_replicate]
        exact (allBlank_replicate rfl _).symm
    · rw [hgap.1]
      rcases settings.gapBetween_cases stage.cursor stage.flow blanks next width with
        heq | heq | ⟨count, heq⟩
      · rw [heq]
        simp [Gap.text]
      · rw [heq]
        simp [Gap.text]
      · rw [heq]
        exact fun _ => lastLine_replicate count _

end Settings

/-- A blank line in front of an item is made of spaces. -/
theorem Stage.Skips.exists_spaces {stage : Stage} {written blanks : List Char}
    {found : Gap × Cursor × Flow} (hskips : stage.Skips written blanks found)
    (hat : stage.At written) (hblank : allBlank (lastLine (written ++ blanks)) = true) :
    ∃ count, lastLine (written ++ blanks) = List.replicate count ' ' := by
  by_cases hmem : '\n' ∈ blanks
  · exact ⟨_, (lastLine_append hmem written).1.trans (hskips.feed hmem)⟩
  · rcases hat.begun with ⟨rfl, -⟩ | ⟨hne, htrimmed, -⟩
    · exact ⟨0, by rw [hskips.start rfl]; rfl⟩
    · rw [htrimmed.not_blank_lastLine hne _ hmem] at hblank
      cases hblank

/-! ## Inside an element -/

namespace Settings

section Inside

variable {settings : Settings} {stage : Stage} {written pending : List Char} {elem : Element}
  {children : List Node}

/-- The start of an element behind blanks. -/
def frontOf (settings : Settings) (elem : Element) (children : List Node) (pending : List Char)
    (stage : Stage) : Front :=
  settings.front pending elem.tag
    (settings.leadingItems lookahead elem.tag (Node.outlineAll (fun _ => true) children []).1) stage

/-- The stage behind the start tag of an element. -/
def stageIn (settings : Settings) (elem : Element) (front : Front) : Stage :=
  ⟨front.stage.cursor, Flow.start (settings.childIndent front true elem.name) (.start front.block)⟩

/-- An element that comes out as it is has a start tag that does, and children that do. -/
theorem Steady.inside (hsteady : settings.Steady [.element elem children] pending stage)
    (hcontent : settings.contentOf elem.tag = .formatted) :
    (settings.frontOf elem children pending stage).before.text = pending ∧
      (settings.frontOf elem children pending stage).tag = elem.tag ∧
      settings.Steady children []
        (settings.stageIn elem (settings.frontOf elem children pending stage)) := by
  have hplain : ¬elem.tag.takesRawText = true := fun hraw => by
    rw [contentOf_of_takesRawText hraw] at hcontent
    cases hcontent
  have houtline : ∃ close, (Node.outlineAll (fun _ => true) [.element elem children] pending).1 =
      [.element true pending elem.tag (Node.outlineAll (fun _ => true) children []).1 close] := by
    rw [Node.outlineAll, Node.outline, if_neg hplain]
    unfold Element.outline
    split <;> exact ⟨_, rfl⟩
  obtain ⟨close, hitems⟩ := houtline
  unfold Steady at hsteady
  rw [hitems, arrangeAll_singleton, arrange, hcontent] at hsteady
  have hsame := List.singleton_inj.mp hsteady
  injection hsame with _ hbefore htag hchildren _
  exact ⟨hbefore, htag, hchildren⟩

theorem stageIn_at (hat : stage.At written) (hfits : elem.tag.Fits)
    (hbefore : (settings.frontOf elem children pending stage).before.text = pending)
    (htag : (settings.frontOf elem children pending stage).tag = elem.tag) :
    (settings.stageIn elem (settings.frontOf elem children pending stage)).At
      (written ++ (pending ++ elem.tag.text)) := by
  have hpasses := settings.passes_front pending hfits.newline_not_mem
    (settings.leadingItems lookahead elem.tag (Node.outlineAll (fun _ => true) children []).1) stage
  have hne : elem.tag.text ≠ [] := by simp [StartTag.text]
  change stage.cursor.Passes ((settings.frontOf elem children pending stage).before.text ++
    (settings.frontOf elem children pending stage).tag.text) _ at hpasses
  rw [hbefore, htag] at hpasses
  refine ⟨?_, hpasses.anchored hat.anchored, .inr ⟨by simp [hne], ?_, settings.begun_front _ _ _ _⟩⟩
  · rw [columnAfter_append, ← hat.column]
    exact hpasses.column
  · rw [← List.append_assoc]
    exact (Item.trimmed_tag elem.tag).append_left hne _

theorem lineIndent_eq {line rest : List Char} {count : Nat}
    (hline : lastLine line = List.replicate count ' ') :
    lineIndent (line ++ '<' :: rest) (byteSize line) = count := by
  have htake := takeBytes_byteSize_append line ('<' :: rest)
  have hspaces : ∀ c ∈ List.replicate count ' ', (c == ' ' || c == '\t') = true := by
    intro c hmem
    simp [List.eq_of_mem_replicate hmem]
  unfold lineIndent
  dsimp only
  rw [htake.1, htake.2, hline, List.takeWhile_append_of_pos hspaces]
  simp

/-- The children of an element that begins its line are indented as its place in the source
tells. -/
theorem indent_stageIn (hkeep : settings.keepWhitespaces = false)
    (hlimit : settings.heightLimit = 0) (hat : stage.At written)
    (hbefore : (settings.frontOf elem children pending stage).before.text = pending)
    {rest : List Char} (hstart : elem.span.start = byteSize (written ++ pending))
    (hbegins : allBlank (lastLine (written ++ pending)) = true) :
    (settings.stageIn elem (settings.frontOf elem children pending stage)).flow.indent =
      settings.nestedIndent ((written ++ pending) ++ (elem.tag.text ++ rest)) (some elem) := by
  have hskips := settings.skips_separate hkeep hat pending
    (if !settings.isInline elem.tag.name then .block else .inline)
    (if !settings.isInline elem.tag.name then 0 else settings.leadingItems lookahead elem.tag
      (Node.outlineAll (fun _ => true) children []).1)
  change stage.Skips written (settings.frontOf elem children pending stage).before.text _ at hskips
  rw [hbefore] at hskips
  obtain ⟨count, hspaces⟩ := hskips.exists_spaces hat hbegins
  have hown : (settings.frontOf elem children pending stage).ownLine = true :=
    hskips.blank.trans hbegins
  have hindent : (settings.frontOf elem children pending stage).indent = count := by
    have hcolumn := hskips.column
    rw [columnAfter_zero, hspaces, List.length_replicate] at hcolumn
    exact (if_pos hown).trans hcolumn
  have hbase : lineIndent ((written ++ pending) ++ (elem.tag.text ++ rest)) elem.span.start =
      count := by
    rw [hstart]
    exact lineIndent_eq hspaces
  have hsteps : ∀ height, settings.stepsChildren elem height =
      !settings.doesNotIndentChildrenOf elem.name := fun height => by simp [stepsChildren, hlimit]
  simp only [stageIn, Flow.start, childIndent, nestedIndent, hown, hindent, hbase, hsteps, hlimit,
    Bool.true_or, Bool.true_and, BEq.rfl, Bool.and_true]

end Inside

end Settings

/-! ## The run that a range selects -/

/-- A selection lies among these nodes, which have this container, or inside one of them, but inside
no preserved element. -/
inductive Settings.Picks (settings : Settings) (selection : Selection) :
    Option Element → List Node → Prop
  | among (before after : List Node) : selection.before = before.getLast? →
      Picks settings selection selection.container (before ++ (selection.nodes ++ after))
  | inside (container : Option Element) (before : List Node) {elem : Element} {children : List Node}
      (after : List Node) : settings.contentOf elem.tag ≠ .verbatim →
        Picks settings selection (some elem) children →
          Picks settings selection container (before ++ .element elem children :: after)

namespace Settings

variable {settings : Settings}

theorem Descends.picks {range : Span} {selection : Selection} {container : Option Element}
    {nodes : List Node} (hdescends : settings.Descends range selection container nodes) :
    settings.Picks selection container nodes := by
  induction hdescends with
  | here front back hmeets => exact .among front back hmeets.before
  | inside container front back _ hplain _ ih =>
      exact .inside container front back (contentOf_ne_verbatim hplain) ih

/-- The run that is selected lies among the nodes or inside one of them. -/
theorem picks_selectAmong {range : Span} {container : Option Element} {nodes : List Node}
    {selection : Selection}
    (hselect : settings.selectAmong range container none nodes = some selection) :
    settings.Picks selection container nodes :=
  (descends_selectAmong [] (by simp) hselect).picks

theorem Picks.ne_nil {selection : Selection} {container : Option Element} {nodes : List Node}
    (hpicks : settings.Picks selection container nodes) : nodes ≠ [] := by
  cases hpicks with
  | among before after => simp [Selection.nodes]
  | inside => simp

end Settings

/-- The container of the run, if it has one, begins its line. -/
def Selection.Begins (selection : Selection) (source : List Char) : Prop :=
  ∀ elem ∈ selection.container, allBlank (lastLine (takeBytes elem.span.start source)) = true

instance (selection : Selection) (source : List Char) : Decidable (selection.Begins source) :=
  inferInstanceAs (Decidable (∀ elem ∈ selection.container, _))

/-- Where a run stands that comes out as it is: behind these blanks, which stand behind what has
been written. -/
structure Settings.Place (settings : Settings) (selection : Selection) (source : List Char)
    (written pending : List Char) (stage : Stage) : Prop where
  whole : ∃ back, source = (written ++ pending) ++ (Node.textOfAll selection.nodes ++ back)
  start : selection.first.span.start = byteSize (written ++ pending)
  stands : stage.At written
  blank : allBlank pending = true
  steady : settings.Steady selection.nodes pending stage
  top : written = [] → selection.container = none
  indent : selection.Begins source →
    stage.flow.indent = settings.nestedIndent source selection.container
  text : selection.first.isText = true → pending = []

namespace Settings

variable {settings : Settings} {stage : Stage} {written : List Char}

/-- Behind nodes that come out as they are, those that follow them do so as well. -/
theorem Steady.behind {before others : List Node}
    (hsteady : settings.Steady (before ++ others) [] stage) (hlegible : Node.LegibleAll before)
    (hsound : Node.SoundAll before) (hat : stage.At written) :
    ∃ further behind, further ++ (Node.outlineAll (fun _ => true) before []).2 =
        written ++ Node.textOfAll before ∧ Stage.At behind further ∧
      settings.Steady others (Node.outlineAll (fun _ => true) before []).2 behind ∧
        behind.flow.indent = stage.flow.indent ∧ (further = [] → written = []) ∧
          allBlank (Node.outlineAll (fun _ => true) before []).2 = true := by
  obtain ⟨hproper, hblank⟩ :=
    Node.proper_outlineAll (fun _ => true) before hlegible hsound allBlank_nil
  have htext := Node.textOfAll_outlineAll (fun _ => true) before []
  rw [List.nil_append] at htext
  obtain ⟨hbefore, hothers⟩ := hsteady.split
  refine ⟨_, _, ?_, arrangeAll_at hat hproper hbefore, hothers,
    (settings.passes_arrangeAll _ hproper stage).indent,
    fun hnil => (List.append_eq_nil_iff.mp hnil).1, hblank⟩
  rw [List.append_assoc, htext]

/-- Where nodes come out as they are, a run among them or inside one of them does so as well. -/
theorem Picks.exists_place (hkeep : settings.keepWhitespaces = false)
    (hlimit : settings.heightLimit = 0) {selection : Selection} {container : Option Element}
    {nodes : List Node} (hpicks : settings.Picks selection container nodes)
    (hlegible : Node.LegibleAll nodes) (hsound : Node.SoundAll nodes) (hparted : Node.Parted nodes)
    (htidy : Node.TidyAll nodes) {source back : List Char}
    (hsource : source = written ++ (Node.textOfAll nodes ++ back))
    (hlie : Node.LieFrom nodes (byteSize written)) (hat : stage.At written)
    (hsteady : settings.Steady nodes [] stage) (htop : written = [] → container = none)
    (hindent : (∀ elem ∈ container, allBlank (lastLine (takeBytes elem.span.start source)) = true) →
      stage.flow.indent = settings.nestedIndent source container) :
    ∃ written pending stage, settings.Place selection source written pending stage := by
  induction hpicks generalizing written stage back with
  | among before after hbefore =>
      obtain ⟨hbeforeLegible, -⟩ := Node.legibleAll_append.mp hlegible
      obtain ⟨hbeforeSound, -⟩ := Node.soundAll_append.mp hsound
      obtain ⟨further, behind, htext, hthere, hothers, hflow, hstart, hblank⟩ :=
        hsteady.behind hbeforeLegible hbeforeSound hat
      have hrun := (Node.lieFrom_append.mp hlie).2
      rw [← byteSize_append, ← htext] at hrun
      refine ⟨_, _, behind, ⟨Node.textOfAll after ++ back, ?_⟩, ?_, hthere, hblank, hothers.split.1,
        fun hnil => htop (hstart hnil), fun hbegins => hflow.trans (hindent hbegins),
        Node.outlineAll_eq_of_isText _ hbeforeSound hparted⟩
      · rw [htext, hsource]
        simp only [Node.textOfAll_append, List.append_assoc]
      · rw [Node.span_of_lies hrun.1]
  | @inside container before elem children after hcontent hinside ih =>
      obtain ⟨hbeforeLegible, ⟨-, hinner⟩, -⟩ := Node.legibleAll_append.mp hlegible
      obtain ⟨hbeforeSound, ⟨hfits, halone, hchildren⟩, -⟩ := Node.soundAll_append.mp hsound
      have helement := Node.tidyAll_iff.mp htidy (.element elem children) (by simp)
      have hformatted : settings.contentOf elem.tag = .formatted := by
        cases hfound : settings.contentOf elem.tag with
        | verbatim => exact absurd hfound hcontent
        | empty => exact absurd (halone (contentOf_eq_empty_iff.mp hfound)).1 hinside.ne_nil
        | formatted => rfl
      have hplain : ¬elem.tag.takesRawText = true := fun hraw =>
        hcontent (contentOf_of_takesRawText hraw)
      rw [if_neg hplain] at hinner
      obtain ⟨further, behind, htext, hthere, hothers, -, -, -⟩ :=
        hsteady.behind hbeforeLegible hbeforeSound hat
      generalize (Node.outlineAll (fun _ => true) before []).2 = pending at htext hothers
      obtain ⟨hbefore, htag, hsteadyChildren⟩ :=
        (@Steady.split settings behind [.element elem children] after _ hothers).1.inside hformatted
      obtain ⟨⟨hopened, hlieChildren, hclosed⟩, -⟩ := (Node.lieFrom_append.mp hlie).2
      rw [← byteSize_append, ← htext] at hopened
      have hstart : elem.span.start = byteSize (further ++ pending) := by
        rw [Element.span, hopened]
      have hwhole : source = (further ++ pending) ++ (elem.tag.text ++
          (Node.textOfAll children ++ (elem.endText ++ (Node.textOfAll after ++ back)))) := by
        rw [htext, hsource]
        simp [Node.textOfAll_append]
      have hinnerWhole : source = (further ++ (pending ++ elem.tag.text)) ++
          (Node.textOfAll children ++ (elem.endText ++ (Node.textOfAll after ++ back))) := by
        rw [hwhole]
        simp
      refine ih hinner.2 hchildren helement.1 helement.2 hinnerWhole ?_
        (stageIn_at hthere hfits hbefore htag) hsteadyChildren
          (by simp [StartTag.text]) fun hbegins => ?_
      · rw [hopened] at hlieChildren
        simpa [Nat.add_assoc] using hlieChildren
      · have hline := hbegins elem rfl
        rw [hstart, hwhole, (takeBytes_byteSize_append _ _).1] at hline
        rw [hwhole]
        exact indent_stageIn hkeep hlimit hthere hbefore hstart hline

end Settings

end Markup
