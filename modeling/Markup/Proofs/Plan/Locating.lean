import Markup.Proofs.Offsets.Range
import Markup.Proofs.Plan.Selection
import Markup.Proofs.Tree.Closing

/-!
# What a range selects

A range leads from the top of a document down to the innermost element whose content holds it, and
selects what it touches there. The run goes from the first sibling that the range touches to the
last one without a look at those between them, and the element to go on in is found by its content,
whose ends count as inside, among siblings that are touched where a byte of theirs is in the range.
It is because siblings lie edge to edge that the run is all that is touched, and that no node in it
could have been gone into. Main statement: `Settings.select_of_parse`.
-/

namespace Markup

open Markup.Text

/-! ## Ranges and siblings -/

namespace Text

theorem floorBoundary_le_ceilBoundary (text : List Char) {first last : Nat} (hle : first ≤ last) :
    floorBoundary text first ≤ ceilBoundary text last := by
  induction text generalizing first last with
  | nil => exact Nat.le_refl 0
  | cons c rest ih =>
      have hpos := c.utf8Size_pos
      have hrest := ih (Nat.sub_le_sub_right hle c.utf8Size)
      rw [floorBoundary_cons, ceilBoundary]
      split_ifs <;> omega

theorem ceilBoundary_le (text : List Char) (offset : Nat) :
    ceilBoundary text offset ≤ byteSize text := by
  induction text generalizing offset with
  | nil => exact Nat.le_refl 0
  | cons c rest ih =>
      have hrest := ih (offset - c.utf8Size)
      rw [ceilBoundary, byteSize_cons]
      split_ifs <;> omega

end Text

namespace Span

/-- A range touches a span that begins before its end and ends behind its start; a caret touches
what begins at it as well. -/
theorem overlaps_iff {span range : Span} : span.overlaps range = true ↔
    range.start < span.stop ∧
      (span.start < range.stop ∨ range.start = range.stop ∧ span.start = range.start) := by
  by_cases hcaret : range.start = range.stop
  · simp only [overlaps, isEmpty, hcaret, BEq.rfl, if_true, decide_eq_true_eq, true_and]
    omega
  · simp only [overlaps, isEmpty, beq_eq_false_iff_ne.mpr hcaret, Bool.false_eq_true, if_false,
      decide_eq_true_eq, hcaret, false_and, or_false]
    omega

/-- A caret touches one span at most, so a range that touches two goes from one into the other. -/
theorem Tile.lt_of_overlaps {first last range : Span} {rest : List Span} {start stop : Nat}
    (htile : Tile (first :: rest) start stop) (hfirst : first.overlaps range = true)
    (hmem : last ∈ rest) (hlast : last.overlaps range = true) :
    range.start < first.stop ∧ first.stop ≤ last.start ∧ last.start < range.stop := by
  obtain ⟨-, -, hrest⟩ := htile
  have hbehind := hrest.of_mem hmem
  rw [overlaps_iff] at hfirst hlast
  omega

/-- What lies between two spans that a range touches is touched as well. -/
theorem Tile.overlaps_between {first range : Span} {rest : List Span} {start stop : Nat}
    (htile : Tile (first :: rest) start stop) (hfirst : first.overlaps range = true)
    (hlast : ∀ last ∈ rest.getLast?, last.overlaps range = true) :
    ∀ span ∈ rest, span.overlaps range = true := by
  intro span hmem
  rcases List.eq_nil_or_concat rest with rfl | ⟨init, last, rfl⟩
  · cases hmem
  rw [List.concat_eq_append] at hmem htile hlast
  have htouched : last.overlaps range = true := hlast last (by simp)
  rcases List.mem_append.mp hmem with hinit | hsame
  · have hinside := htile.lt_of_overlaps hfirst (by simp) htouched
    have hrest := (tile_append.mp htile.2.2).1.of_mem hinit
    rw [overlaps_iff]
    omega
  · rwa [List.mem_singleton.mp hsame]

theorem Tile.exists_front {first last : List Span} {start stop : Nat}
    (htile : Tile (first ++ last) start stop) : ∃ middle, Tile first start middle := by
  induction first generalizing start with
  | nil => exact ⟨start, rfl⟩
  | cons span rest ih =>
      obtain ⟨hbegin, hpos, hrest⟩ := htile
      obtain ⟨middle, hfirst⟩ := ih hrest
      exact ⟨middle, hbegin, hpos, hfirst⟩

/-- A range that is not empty touches something of what tiles the space it lies in. -/
theorem Tile.exists_overlaps {spans : List Span} {range : Span} {start stop : Nat}
    (htile : Tile spans start stop) (hstart : start ≤ range.start) (hstop : range.stop ≤ stop)
    (hlt : range.start < range.stop) : ∃ span ∈ spans, span.overlaps range = true := by
  induction spans generalizing start with
  | nil =>
      have heq : start = stop := htile
      omega
  | cons span rest ih =>
      obtain ⟨hbegin, hpos, hrest⟩ := htile
      by_cases hhere : range.start < span.stop
      · refine ⟨span, List.mem_cons_self, overlaps_iff.mpr ?_⟩
        omega
      · obtain ⟨found, hmem, htouched⟩ := ih hrest (Nat.le_of_not_lt hhere)
        exact ⟨found, List.mem_cons_of_mem _ hmem, htouched⟩

theorem normalize_lt_of_not_isEmpty {range : Span} {text : List Char}
    (hfull : (range.normalize text).isEmpty = false) :
    (range.normalize text).start < (range.normalize text).stop := by
  have hle : (range.normalize text).start ≤ (range.normalize text).stop := by
    unfold normalize
    exact floorBoundary_le_ceilBoundary text (by omega)
  exact Nat.lt_of_le_of_ne hle (beq_eq_false_iff_ne.mp hfull)

end Span

/-! ## Siblings and what is inside them -/

namespace Node

/-- Where no node occurs twice, a sibling is inside none of its siblings. -/
theorem not_mem_inside {nodes : List Node} (hnodup : (preorderAll nodes).Nodup) {node : Node}
    (hnode : node ∈ nodes) {elem : Element} {children : List Node}
    (helem : .element elem children ∈ preorderAll nodes) : node ∉ preorderAll children := by
  induction nodes with
  | nil => cases hnode
  | cons head rest ih =>
      intro hinside
      obtain ⟨hhead, hrest, hdisjoint⟩ := List.nodup_append'.mp hnodup
      rcases List.mem_cons.mp hnode with rfl | hlater
      · rcases List.mem_append.mp helem with hin | hin
        · cases node with
          | leaf piece => simp [preorder] at hin
          | element outer siblings =>
              refine (List.nodup_cons.mp hhead).1 ?_
              rcases List.mem_cons.mp hin with heq | hdeep
              · obtain ⟨rfl, rfl⟩ := Node.element.inj heq
                exact hinside
              · exact mem_preorderAll_of_mem hdeep hinside
        · exact hdisjoint (mem_preorder_self _) (mem_preorderAll_of_mem hin hinside)
      · have hthere := mem_preorderAll_iff.mpr ⟨node, hlater, mem_preorder_self node⟩
        rcases List.mem_append.mp helem with hin | hin
        · exact hdisjoint (mem_preorder_of_mem hin hinside) hthere
        · exact ih hrest hlater hin hinside

end Node

namespace Document

variable {document : Document}

theorem Level.mem_preorderAll {container : Option Element} {row : List Node}
    (hlevel : document.Level container row) {node : Node} (hmem : node ∈ row) :
    node ∈ Node.preorderAll document.children := by
  cases container with
  | none =>
      rw [hlevel] at hmem
      exact Node.mem_preorderAll_iff.mpr ⟨node, hmem, node.mem_preorder_self⟩
  | some elem => exact Node.child_mem_preorderAll hlevel hmem

/-- Every element among siblings has siblings inside it. -/
theorem Level.child {container : Option Element} {row : List Node} {elem : Element}
    {children : List Node} (hlevel : document.Level container row)
    (hmem : .element elem children ∈ row) : document.Level (some elem) children :=
  hlevel.mem_preorderAll hmem

end Document

/-- The content of an element lies behind its start tag and in front of its end. -/
theorem Element.Tiles.content_within {elem : Element} {children : List Node} {source : List Char}
    (htiles : elem.Tiles children source) :
    elem.span.start < elem.content.start ∧ elem.content.stop ≤ elem.span.stop := by
  obtain ⟨before, after, -, hstart, hstop⟩ := htiles.closed
  refine ⟨htiles.opened.lt (by simp [StartTag.text]), ?_⟩
  simp only [content, span, hstart, hstop]
  omega

/-! ## The descent -/

namespace Settings

variable {settings : Settings} {range : Span} {selection : Selection}

mutual

theorem selectWithin_eq_none {container : Option Element} {before : Option Node} {node : Node}
    (hselect : settings.selectWithin range container before node = none) :
    ∃ elem children, .element elem children ∈ node.preorder ∧ elem.content.contains range = true ∧
      (settings.preserves elem.name = true ∨
        ∀ child ∈ children, child.span.overlaps range = false) := by
  cases node with
  | leaf leaf => cases hselect
  | element elem children =>
      rw [selectWithin] at hselect
      split at hselect
      next hholds =>
        split at hselect
        next hpreserved => exact ⟨elem, children, Node.mem_preorder_self _, hholds, .inl hpreserved⟩
        next =>
          rcases selectAmong_eq_none hselect with hmissed | ⟨inner, inside, hmem, hfound⟩
          · exact ⟨elem, children, Node.mem_preorder_self _, hholds, .inr hmissed⟩
          · exact ⟨inner, inside, List.mem_cons_of_mem _ hmem, hfound⟩
      next => cases hselect

/-- Where nothing is selected, the range touches no sibling, or it lies in the content of an element
that is preserved or has no child that the range touches. -/
theorem selectAmong_eq_none {container : Option Element} {before : Option Node} {nodes : List Node}
    (hselect : settings.selectAmong range container before nodes = none) :
    (∀ node ∈ nodes, node.span.overlaps range = false) ∨
      ∃ elem children, .element elem children ∈ Node.preorderAll nodes ∧
        elem.content.contains range = true ∧
        (settings.preserves elem.name = true ∨
          ∀ child ∈ children, child.span.overlaps range = false) := by
  cases nodes with
  | nil => exact .inl (by simp)
  | cons node rest =>
      rw [selectAmong] at hselect
      split at hselect
      next =>
        split at hselect
        next =>
          obtain ⟨elem, children, hmem, hfound⟩ := selectWithin_eq_none hselect
          exact .inr ⟨elem, children, List.mem_append_left _ hmem, hfound⟩
        next => cases hselect
      next hmissed =>
        rcases selectAmong_eq_none hselect with hothers | ⟨elem, children, hmem, hfound⟩
        · exact .inl (List.forall_mem_cons.mpr ⟨Bool.eq_false_iff.mpr hmissed, hothers⟩)
        · exact .inr ⟨elem, children, List.mem_append_right _ hmem, hfound⟩

end

/-- A descent ends among siblings of the document, in content that holds the range. -/
theorem Descends.exists_level {document : Document} {container : Option Element} {nodes : List Node}
    (hdescends : settings.Descends range selection container nodes)
    (hlevel : document.Level container nodes)
    (hholds : (document.inside container).contains range = true) :
    ∃ front back, selection.Meets range front back ∧
      document.Level selection.container (front ++ (selection.nodes ++ back)) ∧
      (document.inside selection.container).contains range = true := by
  induction hdescends with
  | here front back hmeets => exact ⟨front, back, hmeets, hlevel, hholds⟩
  | inside container front back hcontent hplain hinside ih =>
      exact ih (hlevel.child (by simp)) hcontent

/-- The run and the node in front of it are among the nodes or inside them. -/
theorem Descends.mem_preorderAll {container : Option Element} {nodes : List Node}
    (hdescends : settings.Descends range selection container nodes) {node : Node}
    (hmem : node ∈ selection.before.toList ++ selection.nodes) : node ∈ Node.preorderAll nodes := by
  induction hdescends with
  | here front back hmeets =>
      have hthere : node ∈ front ++ (selection.nodes ++ back) := by
        rcases List.mem_append.mp hmem with hbefore | hnodes
        · rw [hmeets.before, Option.mem_toList] at hbefore
          exact List.mem_append_left _ (List.mem_of_getLast? hbefore)
        · simp [hnodes]
      exact Node.mem_preorderAll_iff.mpr ⟨node, hthere, node.mem_preorder_self⟩
  | @inside container front elem children back hcontent hplain hinside ih =>
      have hthere : .element elem children ∈ front ++ .element elem children :: back := by simp
      exact Node.mem_preorderAll_of_mem
        (Node.mem_preorderAll_iff.mpr ⟨_, hthere, Node.mem_preorder_self _⟩) ih

/-- Nothing on the way of a descent is preserved. -/
theorem Descends.preserves_eq_false {container : Option Element} {nodes : List Node}
    (hdescends : settings.Descends range selection container nodes)
    (hnodup : (Node.preorderAll nodes).Nodup) {node : Node} (hnode : node ∈ selection.nodes)
    {elem : Element} {children : List Node}
    (helem : .element elem children ∈ Node.preorderAll nodes)
    (hinside : node ∈ Node.preorderAll children) : settings.preserves elem.name = false := by
  induction hdescends with
  | here front back hmeets =>
      exact absurd hinside (Node.not_mem_inside hnodup (by simp [hnode]) helem)
  | @inside container front outer inner back hcontent hplain hdeeper ih =>
      have hwithin := hdeeper.mem_preorderAll (List.mem_append_right _ hnode)
      rw [Node.preorderAll_append, Node.preorderAll, Node.preorder] at hnodup helem
      obtain ⟨-, hothers, hdisjoint⟩ := List.nodup_append'.mp hnodup
      obtain ⟨hhere, -, hbehind⟩ := List.nodup_append'.mp hothers
      -- what is inside a sibling of the element on the way is not inside the element
      rcases List.mem_append.mp helem with hin | hin
      · refine absurd (Node.mem_preorderAll_of_mem hin hinside) (hdisjoint · ?_)
        simp [hwithin]
      · rcases List.mem_append.mp hin with hin | hin
        · rcases List.mem_cons.mp hin with heq | hin
          · obtain ⟨rfl, rfl⟩ := Node.element.inj heq
            exact hplain
          · exact ih (List.nodup_cons.mp hhere).2 hin
        · exact absurd (Node.mem_preorderAll_of_mem hin hinside) (hbehind (by simp [hwithin]))

end Settings

/-! ## The run -/

namespace Selection.Meets

variable {selection : Selection} {range : Span} {front back : List Node} {start stop : Nat}

theorem tile_nodes
    (htile : Span.Tile ((front ++ (selection.nodes ++ back)).map Node.span) start stop) :
    ∃ last, Span.Tile (selection.nodes.map Node.span) selection.first.span.start last := by
  have hsplit : (front ++ (selection.nodes ++ back)).map Node.span =
      front.map Node.span ++ selection.first.span ::
        (selection.rest.map Node.span ++ back.map Node.span) := by
    simp [Selection.nodes]
  rw [hsplit] at htile
  obtain ⟨-, hpos, hrest⟩ := Span.tile_append.mp htile
  obtain ⟨last, hrest⟩ := hrest.exists_front
  exact ⟨last, rfl, hpos, hrest⟩

/-- A run is all that the range touches. -/
theorem nodes_eq (hmeets : selection.Meets range front back)
    (htile : Span.Tile ((front ++ (selection.nodes ++ back)).map Node.span) start stop) :
    selection.nodes = (front ++ (selection.nodes ++ back)).filter (·.span.overlaps range) := by
  obtain ⟨last, hnodes⟩ := tile_nodes htile
  have hbetween := hnodes.overlaps_between hmeets.first (by
    intro span hspan
    rw [List.getLast?_map] at hspan
    obtain ⟨node, hnode, rfl⟩ := Option.map_eq_some_iff.mp hspan
    exact hmeets.last node hnode)
  have htouched : ∀ node ∈ selection.nodes, node.span.overlaps range = true :=
    List.forall_mem_cons.mpr ⟨hmeets.first, fun node hmem => hbetween _ (List.mem_map_of_mem hmem)⟩
  have hfront : front.filter (·.span.overlaps range) = [] := by simpa using hmeets.front
  have hback : back.filter (·.span.overlaps range) = [] := by simpa using hmeets.back
  rw [List.filter_append, List.filter_append, hfront, hback, List.filter_eq_self.mpr htouched]
  simp

/-- No element of a run has content that holds the range. -/
theorem contains_eq_false (hmeets : selection.Meets range front back)
    (htile : Span.Tile ((front ++ (selection.nodes ++ back)).map Node.span) start stop)
    {elem : Element} {children : List Node} (hmem : .element elem children ∈ selection.nodes)
    (hinside : elem.span.start < elem.content.start ∧ elem.content.stop ≤ elem.span.stop) :
    elem.content.contains range = false := by
  obtain ⟨last, hnodes⟩ := tile_nodes htile
  rcases List.eq_nil_or_concat selection.rest with hnone | ⟨init, final, hrest⟩
  · rw [Selection.nodes, hnone, List.mem_singleton] at hmem
    exact hmeets.alone hnone elem children hmem.symm
  rw [List.concat_eq_append] at hrest
  -- the range begins in the first node of the run and ends in the last one
  have hfinal : final ∈ selection.rest := by simp [hrest]
  have hends := hnodes.lt_of_overlaps hmeets.first (List.mem_map_of_mem hfinal)
    (hmeets.last final (by simp [hrest]))
  simp only [Span.contains, decide_eq_false_iff_not]
  rcases List.mem_cons.mp hmem with hfirst | hlater
  · rw [← hfirst] at hends
    simp only [Node.span] at hends
    omega
  · have hbehind : selection.first.span.stop ≤ elem.span.start ∧ _ :=
      hnodes.2.2.of_mem (List.mem_map_of_mem hlater)
    omega

end Selection.Meets

namespace Settings

/-- A range selects the siblings that it touches in the innermost element around it, or at the top
of the document: a run that is not empty and without gaps, with the sibling in front of it. The
content of that element holds the range, that of no element in the run does, and nothing in the run
is inside an element whose content is preserved. A range that is not empty selects nothing only if
it lies in such content. -/
theorem select_of_parse {text : List Char} {document : Document} (settings : Settings)
    (given : Span) (hparse : parse text = .ok document) :
    let range := given.normalize text
    (∀ selection, settings.select document range = some selection →
      ∃ row front back, document.Level selection.container row ∧
        row = front ++ (selection.nodes ++ back) ∧ selection.before = front.getLast? ∧
        selection.nodes ≠ [] ∧ selection.nodes = row.filter (·.span.overlaps range) ∧
        (document.inside selection.container).contains range = true ∧
        (∀ elem children, .element elem children ∈ selection.nodes →
          elem.content.contains range = false) ∧
        ∀ node ∈ selection.nodes, ∀ elem children,
          .element elem children ∈ Node.preorderAll document.children →
          node ∈ Node.preorderAll children → settings.preserves elem.name = false) ∧
    (range.isEmpty = false → settings.select document range = none →
      ∃ elem children, .element elem children ∈ Node.preorderAll document.children ∧
        settings.preserves elem.name = true ∧ elem.content.contains range = true) := by
  intro range
  obtain ⟨htile, -, -, -, htiles, -⟩ := Document.tiles_of_parse hparse
  have hnodup := Document.nodup_preorderAll_of_parse hparse
  have hwithin : 0 ≤ range.start ∧ range.stop ≤ byteSize text :=
    ⟨Nat.zero_le _, ceilBoundary_le _ _⟩
  refine ⟨fun selection hselect => ?_, fun hfull hselect => ?_⟩
  · have hdescends : settings.Descends range selection none document.children :=
      descends_selectAmong [] (by simp) hselect
    have hwhole : (document.inside none).contains range = true := by
      simpa [Document.inside, Span.contains, Document.source_of_parse hparse] using hwithin.2
    obtain ⟨front, back, hmeets, hlevel, hholds⟩ := hdescends.exists_level rfl hwhole
    have hrow := Document.tile_of_level hparse hlevel
    refine ⟨_, front, back, hlevel, rfl, hmeets.before, List.cons_ne_nil _ _, hmeets.nodes_eq hrow,
      hholds, ?_, ?_⟩
    · intro elem children hmem
      apply hmeets.contains_eq_false hrow hmem
      exact (htiles elem children (hlevel.mem_preorderAll (by simp [hmem]))).content_within
    · intro node hnode elem children helem
      exact hdescends.preserves_eq_false hnodup hnode helem
  · have hlt := Span.normalize_lt_of_not_isEmpty hfull
    rcases selectAmong_eq_none hselect with hmissed | ⟨elem, children, hmem, hholds, hfound⟩
    · obtain ⟨span, hspan, htouched⟩ := htile.exists_overlaps hwithin.1 hwithin.2 hlt
      obtain ⟨node, hnode, rfl⟩ := List.mem_map.mp hspan
      simp [hmissed node hnode] at htouched
    · refine ⟨elem, children, hmem, hfound.resolve_right fun hmissed => ?_, hholds⟩
      have hcontent := of_decide_eq_true hholds
      obtain ⟨span, hspan, htouched⟩ :=
        (htiles elem children hmem).tile.exists_overlaps hcontent.1 hcontent.2 hlt
      obtain ⟨node, hnode, rfl⟩ := List.mem_map.mp hspan
      simp [hmissed node hnode] at htouched

/-- A range from the middle of a text in a paragraph to the middle of an element behind it. -/
theorem select_of_parse_paragraph :
    let text := "<p>ab<b>c</b>d</p>".toList
    let words : Node := .leaf ⟨.text, 1, "ab".toList, ⟨3, 5⟩⟩
    let bold : Node :=
      .element ⟨2, ⟨['b'], [], [], .plain⟩, some ⟨['b'], "</b>".toList⟩, ⟨5, 8⟩, ⟨9, 13⟩⟩
        [.leaf ⟨.text, 3, ['c'], ⟨8, 9⟩⟩]
    let behind : Node := .leaf ⟨.text, 4, ['d'], ⟨13, 14⟩⟩
    let paragraph : Element :=
      ⟨0, ⟨['p'], [], [], .plain⟩, some ⟨['p'], "</p>".toList⟩, ⟨0, 3⟩, ⟨14, 18⟩⟩
    ∃ document, parse text = .ok document ∧
      Settings.select {} document (Span.normalize ⟨9, 4⟩ text) =
        some ⟨some paragraph, none, words, [bold]⟩ ∧
      document.Level (some paragraph) [words, bold, behind] ∧
      [words, bold] = [words, bold, behind].filter (·.span.overlaps ⟨4, 9⟩) ∧
      paragraph.content.contains ⟨4, 9⟩ = true := by
  intro text words bold behind paragraph
  have hparse : parse text = .ok ⟨text, [.element paragraph [words, bold, behind]], 5, []⟩ := by
    with_unfolding_all rfl
  have hrange : Span.normalize ⟨9, 4⟩ text = ⟨4, 9⟩ := by decide
  have hselect : Settings.select {} ⟨text, [.element paragraph [words, bold, behind]], 5, []⟩
      (Span.normalize ⟨9, 4⟩ text) = some ⟨some paragraph, none, words, [bold]⟩ := by
    with_unfolding_all rfl
  obtain ⟨row, front, back, hlevel, -, -, -, hnodes, hholds, -⟩ :=
    (select_of_parse {} ⟨9, 4⟩ hparse).1 _ hselect
  rw [hrange] at hnodes hholds
  obtain rfl : row = [words, bold, behind] := by
    simpa [Document.Level, Node.preorderAll, Node.preorder, words, bold, behind,
      paragraph] using hlevel
  exact ⟨_, hparse, hselect, hlevel, hnodes, hholds⟩

end Settings

end Markup
