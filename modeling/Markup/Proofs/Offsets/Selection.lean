import Markup.Proofs.Offsets.Layout
import Markup.Proofs.Offsets.Range
import Markup.Proofs.Output.Frame
import Markup.Proofs.Plan.Descent

/-!
# Laying out a run by byte offsets

The line that a run stands on, the line that its container begins on, and the part of a text up to
the last line feed in it are all cut out of the source between offsets that are computed from spans,
from sizes of pieces and from where a line feed was found. Main statement: `Settings.plan?_eq`, by
which none of these cuts goes wrong and no offset falls below zero, so that there is a plan for
every range.
-/

namespace Markup

open Markup.Text

namespace Settings

/-! ## Lines -/

/-- The offset at which the line begins that an offset lies on. -/
def lineStart? (source : List Char) (offset : Nat) : Option Nat := do
  let front ← sliceTo? source offset
  return match findLineFeed? front with
    | none => 0
    | some i => i + 1

/-- Number of blank columns at the start of the line that an offset lies on. -/
def lineIndent? (source : List Char) (offset : Nat) : Option Nat := do
  let start ← lineStart? source offset
  let line ← sliceFrom? source start
  return (line.takeWhile fun c => c == ' ' || c == '\t').length

/-- The line of an offset begins at the end of a character, behind the last line feed if there is
one. -/
theorem exists_lineStart? {source front rest : List Char} (hsource : source = front ++ rest) :
    ∃ before, front = before ++ lastLine front ∧
      lineStart? source (byteSize front) = some (byteSize before) ∧
        ('\n' ∈ front → before = beforeLastLine front ++ ['\n']) := by
  have hfront : sliceTo? source (byteSize front) = some front := by
    rw [hsource]
    exact sliceTo?_append front rest
  unfold lineStart? findLineFeed?
  simp only [hfront, Option.bind_eq_bind, Option.bind_some, Option.pure_def]
  by_cases hmem : '\n' ∈ front
  · refine ⟨beforeLastLine front ++ ['\n'], ?_, ?_, fun _ => rfl⟩
    · simpa using (beforeLastLine_append_lastLine hmem).symm
    · rw [if_pos (by simpa using hmem), byteSize_append]
      rfl
  · have hline : lastLine ([] ++ front) = front := lastLine_append_of_not_mem hmem []
    refine ⟨[], hline.symm, ?_, fun hin => absurd hin hmem⟩
    rw [if_neg (by simpa using hmem), byteSize_nil]

theorem lineIndent?_eq {source front rest : List Char} (hsource : source = front ++ rest) :
    lineIndent? source (byteSize front) = some (lineIndent source (byteSize front)) := by
  obtain ⟨before, hfront, hstart, -⟩ := exists_lineStart? hsource
  have hline : sliceFrom? source (byteSize before) = some (lastLine front ++ rest) := by
    apply sliceFrom?_of_eq
    rw [← List.append_assoc, ← hfront, hsource]
  have hparts := takeBytes_byteSize_append front rest
  unfold lineIndent? lineIndent
  rw [hsource] at hstart hline ⊢
  simp only [hstart, hline, hparts, Option.bind_eq_bind, Option.bind_some, Option.pure_def]

/-! ## The indent of a run -/

/-- Whether the children of an element are indented, judging its height from the source. -/
def stepsChildren? (settings : Settings) (source : List Char) (elem : Element) : Option Bool :=
  if settings.doesNotIndentChildrenOf elem.name then some false
  else if settings.heightLimit = 0 then some true
  else do
    let inside ← slice? source elem.span.start elem.span.stop
    return decide (newlines inside < settings.heightLimit)

/-- The indent of the children of a container that is left where it stands. -/
def nestedIndent? (settings : Settings) (source : List Char) (container : Option Element) :
    Option Nat :=
  match container with
  | none => some 0
  | some elem => do
      let base ← lineIndent? source elem.span.start
      let steps ← settings.stepsChildren? source elem
      return if steps then base + settings.indentSize else base

/-- The text that holds the line feed in front of a run, which begins at an offset on the line that
begins at another one. -/
def leadAt (blank : Bool) (before : Option Node) (start line : Nat) : Option Leaf :=
  match before with
  | some (.leaf leaf) =>
      if leaf.kind = .text && blank && leaf.span.stop == start &&
        decide (leaf.span.start < line) then
        some leaf
      else none
  | _ => none

/-- The indent of the lines of a run, given its own line up to where it begins. -/
def runIndent? (settings : Settings) (source : List Char) (selection : Selection) (leads : Bool)
    (line : List Char) : Option Nat := do
  let nested ← settings.nestedIndent? source selection.container
  if allBlank line then return if leads then nested else line.length
  else if selection.container.isSome then return nested
  else lineIndent? source selection.first.span.start

variable {settings : Settings}

theorem nestedIndent?_eq {source : List Char} {container : Option Element}
    (hcontainer : ∀ elem ∈ container, ∃ front inside after,
      source = front ++ inside ++ after ∧
        elem.span = ⟨byteSize front, byteSize (front ++ inside)⟩) :
    settings.nestedIndent? source container = some (settings.nestedIndent source container) := by
  cases container with
  | none => rfl
  | some elem =>
      obtain ⟨front, inside, after, hsource, hspan⟩ := hcontainer elem rfl
      have hbase := lineIndent?_eq (hsource.trans (List.append_assoc front inside after))
      have hinside := slice?_of_eq hsource
      have hsize : byteSize (front ++ inside) - byteSize front = byteSize inside := by
        rw [byteSize_append, Nat.add_sub_cancel_left]
      have hcut : takeBytes (byteSize inside) (dropBytes (byteSize front) source) = inside := by
        rw [hsource, List.append_assoc, (takeBytes_byteSize_append front _).2]
        exact (takeBytes_byteSize_append inside after).1
      unfold nestedIndent? nestedIndent stepsChildren? stepsChildren Span.size
      simp only [hspan, hbase, hinside, hsize, hcut, Option.bind_eq_bind, Option.bind_some,
        Option.pure_def]
      cases settings.doesNotIndentChildrenOf elem.name <;>
        by_cases hlimit : settings.heightLimit = 0 <;> simp [hlimit]

/-- The container of a run is one of the elements that hold it. -/
theorem Picks.container_mem {selection : Selection} {container : Option Element} {nodes : List Node}
    (hpicks : settings.Picks selection container nodes) :
    selection.container = container ∨ ∃ elem children, selection.container = some elem ∧
      .element elem children ∈ Node.preorderAll nodes := by
  induction hpicks with
  | among before after => exact .inl rfl
  | @inside container before elem children after hcontent hinside ih =>
      refine .inr ?_
      have hhere : .element elem children ∈ Node.preorderAll
          (before ++ .element elem children :: after) :=
        Node.mem_preorderAll_iff.mpr ⟨_, by simp, Node.mem_preorder_self _⟩
      rcases ih with hcontainer | ⟨inner, others, hcontainer, hmem⟩
      · exact ⟨elem, children, hcontainer, hhere⟩
      · obtain ⟨child, hchild, hmem⟩ := Node.mem_preorderAll_iff.mp hmem
        refine ⟨inner, others, hcontainer, Node.mem_preorderAll_iff.mpr ⟨.element elem children,
          by simp, ?_⟩⟩
        rw [Node.preorder]
        exact List.mem_cons_of_mem _ (Node.mem_preorderAll_iff.mpr ⟨child, hchild, hmem⟩)

/-- The container of a run stands in the source where its span says. -/
theorem exists_container {text : List Char} {document : Document} {range : Span}
    {selection : Selection} (hparse : parse text = .ok document)
    (hselect : settings.select document range = some selection) :
    ∀ elem ∈ selection.container, ∃ front inside after,
      text = front ++ inside ++ after ∧
        elem.span = ⟨byteSize front, byteSize (front ++ inside)⟩ := by
  intro elem helem
  have hpicks : settings.Picks selection none document.children :=
    picks_selectAmong hselect
  rcases hpicks.container_mem with hnone | ⟨found, children, hfound, hmem⟩
  · rw [hnone] at helem
    contradiction
  · obtain rfl : found = elem := Option.some.inj (hfound.symm.trans helem)
    obtain ⟨front, after, htext, hlies⟩ := Document.exists_lies_of_parse hparse hmem
    refine ⟨front, _, after, by rw [htext, List.append_assoc], ?_⟩
    rw [byteSize_append]
    exact Node.span_of_lies hlies

/-! ## The text in front of a run -/

/-- What is kept of the source between two offsets, which is nothing where they are not in order. -/
def kept? (source : List Char) (start stop : Nat) : Option Gap :=
  if start < stop then (slice? source start stop).map Gap.kept else some .nothing

/-- The decision that reproduces a text up to an offset. -/
def keepUpTo? (source : List Char) (leaf : Leaf) (stop : Nat) : Option Decision := do
  let parts ← parts? (fragments leaf.raw)
  let start := leaf.span.start
  if parts.words.isEmpty then do
    let before ← kept? source start stop
    return ⟨before, .nothing, 0, .text []⟩
  else do
    let trailing ← minus? leaf.span.stop (byteSize parts.trailing)
    let before ← kept? source start (start + byteSize parts.leading)
    let after ← kept? source trailing stop
    return ⟨before, after, 0, .text (parts.gaps.map Gap.kept)⟩

theorem kept?_of_eq {source front piece rest : List Char}
    (hsource : source = front ++ piece ++ rest) :
    kept? source (byteSize front) (byteSize (front ++ piece)) = some (Gap.keep piece) := by
  unfold kept?
  cases piece with
  | nil => simp [Gap.keep]
  | cons c others =>
      rw [if_pos (Pending.byteSize_lt_append front (List.cons_ne_nil c others)),
        slice?_of_eq hsource]
      rfl

/-- The text in front of a run is kept up to its last line feed. -/
theorem keepUpTo?_eq {source front rest : List Char} {leaf : Leaf}
    (hsource : source = front ++ leaf.raw ++ rest)
    (hspan : leaf.span = ⟨byteSize front, byteSize (front ++ leaf.raw)⟩) (hmem : '\n' ∈ leaf.raw)
    (hblank : allBlank (lastLine leaf.raw) = true) :
    keepUpTo? source leaf (byteSize (front ++ beforeLastLine leaf.raw)) =
      some (keepLines leaf) := by
  have hraw := Run.source_ofText leaf.raw
  have hproper := Run.proper_ofText leaf.raw
  unfold keepUpTo? keepLines
  simp only [parts?_eq, hspan, Option.bind_eq_bind, Option.bind_some]
  cases hrun : Run.ofText leaf.raw with
  | blank leading =>
      rw [hrun] at hraw
      obtain rfl : leading = leaf.raw := hraw
      have hlines : source = front ++ beforeLastLine leaf.raw ++
          ('\n' :: lastLine leaf.raw ++ rest) := by
        rw [hsource, List.append_assoc, List.append_assoc, ← List.append_assoc (beforeLastLine _),
          beforeLastLine_append_lastLine hmem]
      simp only [Run.parts, Run.wordList, kept?_of_eq hlines, List.isEmpty_nil, if_true,
        Option.bind_some, Option.pure_def]
  | words leading first parted trailing =>
      rw [hrun] at hraw hproper
      obtain ⟨hne, htrimmed⟩ := trimmed_wordsText hproper.2.1 hproper.parted
      rw [Run.source_words, ← List.append_assoc] at hraw
      generalize wordsText (Word.raw first)
        (parted.map fun gapped => (gapped.1, Word.raw gapped.2)) = solid at hraw hne htrimmed
      rw [← hraw] at hmem hblank hsource ⊢
      have hfeed :=
        mem_of_blank_lastLine (by simp [hne]) (htrimmed.append_left hne leading) hmem hblank
      have htail := beforeLastLine_append_lastLine hfeed
      have hleading : source = front ++ leading ++ (solid ++ trailing ++ rest) := by
        rw [hsource]
        simp
      have hstop : front ++ (leading ++ solid ++ beforeLastLine trailing) =
          front ++ (leading ++ solid) ++ beforeLastLine trailing := by
        simp
      have hlines : source = front ++ (leading ++ solid) ++ beforeLastLine trailing ++
          ('\n' :: lastLine trailing ++ rest) := by
        rw [hsource]
        conv_lhs => rw [← htail]
        simp
      have hminus : minus? (byteSize (front ++ (leading ++ solid ++ trailing)))
          (byteSize trailing) = some (byteSize (front ++ (leading ++ solid))) := by
        rw [← List.append_assoc front, byteSize_append _ trailing,
          minus?_of_le (Nat.le_add_left _ _), Nat.add_sub_cancel]
      have hbefore := kept?_of_eq hleading
      have hafter := kept?_of_eq hlines
      rw [byteSize_append] at hbefore
      rw [(lastLine_append hfeed _).2, hstop]
      simp only [Run.parts, Run.wordList, Run.leading, Run.trailing, Run.gaps, hminus, hbefore,
        hafter, List.isEmpty_cons, Bool.false_eq_true, if_false, Option.bind_some, Option.pure_def,
        List.map_map]
      rfl

/-! ## The plan of a run -/

/-- Lays out a run of siblings in place. -/
def layoutSelection? (settings : Settings) (document : Document) (selection : Selection) :
    Option Plan := do
  let source := document.source
  let start := selection.first.span.start
  let lineStart ← lineStart? source start
  let line ← slice? source lineStart start
  let blank := allBlank line
  let lead := leadAt blank selection.before start lineStart
  let indent ← settings.runIndent? source selection lead.isSome line
  let cursor : Cursor :=
    { column := if lead.isSome then indent else line.length
      blank := blank
      fresh := false
      anchored := true
      lines := 0 }
  let final ← settings.layoutNodes? source selection.nodes
    ⟨Draft.start cursor document.count, Flow.start indent .inline, {}⟩
  let blanks ← final.pending.text? source
  let behind := match blanks with
    | [] => final.draft.plan
    | c :: rest => final.draft.plan.modify selection.last.id fun decision =>
        { decision with after := .kept (c :: rest) }
  match lead with
  | none => return behind
  | some leaf => do
      let stop ← minus? lineStart 1
      let decision ← keepUpTo? source leaf stop
      let kept ← Draft.decide? { final.draft with plan := behind } leaf.id decision
      return kept.plan.modify selection.first.id fun decision =>
        { decision with before := .lineBreak 1 indent }

/-- Plans a document, or the part of it that a range selects. -/
def plan? (settings : Settings) (document : Document) (range : Option Span) :
    Option (Except SettingsError Plan) :=
  match settings.check with
  | .error problem => some (.error problem)
  | .ok () =>
      match range with
      | none => do
          let final ← settings.layoutNodes? document.source document.children
            ⟨Draft.start .origin document.count, Flow.start 0 (.start false), {}⟩
          let blanks ← final.pending.text? document.source
          return .ok { final.draft.plan with ending := settings.finalGap blanks }
      | some range => do
          let range ← range.normalize? document.source
          let found ← settings.locate? range none document.children
          match found with
          | none => return .ok (Plan.empty document.count)
          | some selection => do
              let plan ← settings.layoutSelection? document selection
              return .ok plan

section

variable {text : List Char} {document : Document}

/-- The offsets tell whether the text in front of a run leads it in. -/
theorem leadAt_eq {selection : Selection} {front back before : List Char}
    (hfills : selection.Fills document.source front back)
    (hbefore : selection.upTo front = before ++ lastLine (selection.upTo front)) :
    leadAt (allBlank (lastLine (selection.upTo front))) selection.before selection.first.span.start
      (byteSize before) = leadOf document selection := by
  have hline := hfills.line_eq
  have hstart : selection.lineStart document.source = byteSize before := by
    have hsize := congrArg byteSize hbefore
    rw [Selection.lineStart, hline, hfills.start_eq]
    rw [byteSize_append] at hsize
    omega
  unfold leadAt leadOf leadText?
  rw [hline]
  cases hnode : selection.before with
  | none => rfl
  | some node =>
      cases node with
      | element elem children => rfl
      | leaf leaf =>
          obtain ⟨hstop, hlt⟩ := hfills.start_lt_lineStart_iff hnode
          rw [hstart] at hlt
          have hfeed : decide (leaf.span.start < byteSize before) = leaf.raw.contains '\n' := by
            rw [Bool.eq_iff_iff, decide_eq_true_iff, hlt, List.contains_iff_mem]
          have hmeets : (leaf.span.stop == selection.first.span.start) = true := by
            rw [beq_iff_eq, hstop, Selection.start]
          simp only [hfeed, hmeets, Bool.and_true]

/-- The text in front of a run is kept up to the line of the run, whose line feed is its own. -/
theorem exists_keepUpTo? {selection : Selection} {front back before : List Char} {leaf : Leaf}
    (hfills : selection.Fills document.source front back)
    (hfeed : '\n' ∈ selection.upTo front → before = beforeLastLine (selection.upTo front) ++ ['\n'])
    (hled : leadOf document selection = some leaf) :
    ∃ stop, minus? (byteSize before) 1 = some stop ∧
      keepUpTo? document.source leaf stop = some (keepLines leaf) := by
  obtain ⟨hblank, hleaf, hkind, hmem⟩ := leadOf_eq_some_iff.mp hled
  have hup : selection.upTo front = front ++ leaf.raw := by simp [Selection.upTo, hleaf]
  have hsource := hfills.eq_append
  have hlie := hfills.lie
  rw [Selection.siblings, hleaf] at hlie
  have hspan : leaf.span = ⟨byteSize front, byteSize (front ++ leaf.raw)⟩ := by
    rw [byteSize_append]
    exact hlie.1
  obtain ⟨hlast, hfirst⟩ := lastLine_append hmem front
  rw [hfills.line_eq, hup, hlast] at hblank
  rw [hup] at hsource hfeed
  have hstop : minus? (byteSize before) 1 = some (byteSize (front ++ beforeLastLine leaf.raw)) := by
    rw [hfeed (List.mem_append_right _ hmem), hfirst, byteSize_append _ ['\n']]
    exact minus?_of_le (Nat.le_add_left 1 _)
  exact ⟨_, hstop, keepUpTo?_eq hsource hspan hmem hblank⟩

theorem runIndent?_eq {selection : Selection} {front back : List Char}
    (hfills : selection.Fills document.source front back)
    (hcontainer : ∀ elem ∈ selection.container, ∃ front inside after,
      document.source = front ++ inside ++ after ∧
        elem.span = ⟨byteSize front, byteSize (front ++ inside)⟩) :
    settings.runIndent? document.source selection (leadOf document selection).isSome
      (lastLine (selection.upTo front)) = some (settings.runIndent document selection) := by
  have hown := lineIndent?_eq hfills.eq_append
  rw [← hfills.start_eq] at hown
  unfold runIndent? runIndent
  rw [hfills.line_eq]
  simp only [nestedIndent?_eq hcontainer, Option.bind_eq_bind, Option.bind_some, Option.pure_def]
  split_ifs <;> first | rfl | exact hown

/-- A run that a range selects is laid out by offsets as it is by its text. -/
theorem layoutSelection?_eq (hlimit : settings.keepBlankLines < 2 ^ 64 - 1)
    (hparse : parse text = .ok document) {range : Span} {selection : Selection}
    (hselect : settings.select document range = some selection) :
    settings.layoutSelection? document selection =
      some (settings.layoutSelection document selection) := by
  obtain ⟨front, back, -, hfills, -⟩ := exists_render_selection hparse hselect
  have hstands := stands_of_select hparse hselect
  have hcontainer := exists_container hparse hselect
  obtain rfl : document.source = text := Document.source_of_parse hparse
  have hsource := hfills.eq_append
  obtain ⟨before, hbefore, hstart, hfeed⟩ := exists_lineStart? hsource
  have hline : slice? document.source (byteSize before) (byteSize (selection.upTo front)) =
      some (lastLine (selection.upTo front)) := by
    have hcut : document.source = before ++ lastLine (selection.upTo front) ++
        (Node.textOfAll selection.nodes ++ back) := by
      rw [← hbefore, hsource]
    have hslice := slice?_of_eq hcut
    rwa [← hbefore] at hslice
  -- the run begins behind its line, with no blanks that wait
  obtain ⟨behind, hread, hlaid⟩ :=
    @follows_layoutNodes settings document.source hlimit selection.nodes (selection.upTo front) back
    ⟨Draft.start (settings.runStage document selection).cursor document.count,
      (settings.runStage document selection).flow, []⟩
    (by rw [List.append_nil]; exact hsource) (by rw [List.append_nil]; exact hfills.lieFrom)
    fun id hmem => (room_run hstands (ids_nodes_subset selection) _ id hmem).1
  rw [List.append_nil] at hread
  have hblanks : document.source =
      behind ++ (settings.laidRun document selection).blanks ++ back := by
    rw [hsource, ← List.append_assoc, hread]
    rfl
  have hstartEq : selection.first.span.start = byteSize (selection.upTo front) := hfills.start_eq
  have hlead := leadAt_eq hfills hbefore
  rw [hstartEq] at hlead
  have hcursor : (⟨if (leadOf document selection).isSome then settings.runIndent document selection
      else (lastLine (selection.upTo front)).length, allBlank (lastLine (selection.upTo front)),
        false, true, 0⟩ : Cursor) = (settings.runStage document selection).cursor := by
    rw [runStage, hfills.line_eq]
  have hflow : Flow.start (settings.runIndent document selection) .inline =
    (settings.runStage document selection).flow := rfl
  have hfound : settings.layoutNodes? document.source selection.nodes
      ⟨Draft.start (settings.runStage document selection).cursor document.count,
        (settings.runStage document selection).flow, {}⟩ =
      some ⟨(settings.laidRun document selection).draft, (settings.laidRun document selection).flow,
        .behind behind (settings.laidRun document selection).blanks⟩ := hlaid
  unfold layoutSelection?
  simp only [hstartEq, hstart, hline, hlead, runIndent?_eq hfills hcontainer, Option.bind_eq_bind,
    Option.bind_some, Option.pure_def, hcursor, hflow, hfound, Pending.text?_behind hblanks]
  rw [layoutSelection_eq]
  cases hled : leadOf document selection with
  | none => rfl
  | some leaf =>
      obtain ⟨stop, hstop, hkept⟩ := exists_keepUpTo? hfills hfeed hled
      have hroom : leaf.id < (settings.planBehind document selection).decisions.size := by
        rw [size_planBehind]
        exact hstands.room leaf.id (by simp [Selection.siblings, (leadOf_eq_some_iff.mp hled).2.1])
      have hdecided : Draft.decide? { (settings.laidRun document selection).draft with
          plan := settings.planBehind document selection } leaf.id (keepLines leaf) = some _ :=
        Draft.decide?_eq hroom (keepLines leaf)
      simp only [hstop, hkept, Option.bind_some]
      exact congrArg (Option.bind · _) hdecided

/-- There is a plan for every range, and no cut goes wrong on the way to it. -/
theorem plan?_eq (hlimit : settings.keepBlankLines < 2 ^ 64 - 1)
    (hparse : parse text = .ok document) (range : Option Span) :
    settings.plan? document range = some (settings.plan document range) := by
  obtain rfl : document.source = text := Document.source_of_parse hparse
  unfold plan? plan
  cases settings.check with
  | error problem => rfl
  | ok =>
      cases range with
      | none =>
          have hroom : ∀ id ∈ Node.idsOfAll document.children, id < document.count :=
            fun id hmem => by
            rwa [Document.ids_of_parse hparse, List.mem_range] at hmem
          have hlie := Document.lieFrom_of_parse hparse
          have hsource := Document.textOfAll_of_parse hparse
          obtain ⟨behind, hread, hlaid⟩ := @follows_layoutNodes settings document.source hlimit
            document.children [] []
              ⟨Draft.start .origin document.count, Flow.start 0 (.start false), []⟩
            (by simpa using hsource.symm) hlie fun id hmem => by
              simpa [Draft.start, Plan.empty] using hroom id hmem
          have hfound : settings.layoutNodes? document.source document.children
              ⟨Draft.start .origin document.count, Flow.start 0 (.start false), {}⟩ =
              some ⟨(settings.laidOut document).draft, (settings.laidOut document).flow,
                .behind behind (settings.laidOut document).blanks⟩ := hlaid
          have hblanks : document.source = behind ++ (settings.laidOut document).blanks ++ [] := by
            rw [List.append_nil, ← hsource]
            exact hread
          simp only [hfound, Pending.text?_behind hblanks, Option.bind_eq_bind, Option.bind_some]
          rfl
      | some range =>
          simp only [Span.normalize?_eq, locate?_eq, Option.bind_eq_bind, Option.bind_some]
          cases hselect : settings.select document (range.normalize document.source) with
          | none => rfl
          | some selection =>
              simp only [layoutSelection?_eq hlimit hparse hselect, Option.bind_some]
              rfl

end

end Settings

end Markup
