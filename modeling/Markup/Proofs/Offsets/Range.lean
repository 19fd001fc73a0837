import Markup.Proofs.Offsets.Slice
import Markup.Proofs.Plan.Selection

/-!
# Locating a range by offsets and indices

The ends of a range are clamped to the text and moved one byte at a time to the ends of characters,
and the run that the range selects is cut out of its siblings by the indices of the first and the
last node that the range touches. Main statements: `Span.normalize?_eq` and `Settings.locate?_eq`,
by which this goes right for every range.
-/

namespace Markup

open Markup.Text

/-! ## Ends of characters -/

namespace Text

/-- Whether an offset is the end of a character, or the start of the text. -/
def isBoundary (text : List Char) (offset : Nat) : Bool :=
  floorBoundary text offset == offset

/-- The first end of a character that is met from an offset downwards. -/
def roundDown? (text : List Char) : Nat → Option Nat
  | 0 => if isBoundary text 0 then some 0 else none
  | offset + 1 => if isBoundary text (offset + 1) then some (offset + 1) else roundDown? text offset

/-- The first end of a character that is met from an offset upwards, over no more bytes than the
limit. -/
def roundUp? (text : List Char) : Nat → Nat → Option Nat
  | 0, _ => none
  | limit + 1, offset =>
      if isBoundary text offset then some offset else roundUp? text limit (offset + 1)

theorem floorBoundary_cons (c : Char) (rest : List Char) (offset : Nat) :
    floorBoundary (c :: rest) offset =
      if c.utf8Size ≤ offset then c.utf8Size + floorBoundary rest (offset - c.utf8Size) else 0 := by
  unfold floorBoundary
  rw [takeBytes]
  split_ifs <;> rfl

theorem floorBoundary_le (text : List Char) (offset : Nat) :
    floorBoundary text offset ≤ offset := by
  induction text generalizing offset with
  | nil => exact Nat.zero_le offset
  | cons c rest ih =>
      have hrest := ih (offset - c.utf8Size)
      rw [floorBoundary_cons]
      split_ifs with hfits
      · omega
      · exact Nat.zero_le offset

theorem floorBoundary_zero (text : List Char) : floorBoundary text 0 = 0 :=
  Nat.le_zero.mp (floorBoundary_le text 0)

/-- No character ends between an offset that is not an end and the one below it. -/
theorem floorBoundary_succ {text : List Char} {offset : Nat}
    (hinside : floorBoundary text (offset + 1) ≠ offset + 1) :
    floorBoundary text (offset + 1) = floorBoundary text offset := by
  induction text generalizing offset with
  | nil => rfl
  | cons c rest ih =>
      rw [floorBoundary_cons] at hinside
      rw [floorBoundary_cons, floorBoundary_cons]
      by_cases hlow : c.utf8Size ≤ offset
      · have hhigh : c.utf8Size ≤ offset + 1 := Nat.le_succ_of_le hlow
        have hdifference : offset + 1 - c.utf8Size = offset - c.utf8Size + 1 := by omega
        rw [if_pos hhigh, hdifference] at hinside
        rw [if_pos hhigh, if_pos hlow, hdifference, ih fun heq => hinside (by omega)]
      · by_cases hhigh : c.utf8Size ≤ offset + 1
        · have hsize : c.utf8Size = offset + 1 := by omega
          rw [if_pos hhigh, hsize, Nat.sub_self, floorBoundary_zero] at hinside
          exact absurd rfl hinside
        · rw [if_neg hhigh, if_neg hlow]

theorem floorBoundary_of_le {text : List Char} {offset : Nat} (hle : byteSize text ≤ offset) :
    floorBoundary text offset = byteSize text := by
  induction text generalizing offset with
  | nil => rfl
  | cons c rest ih =>
      rw [byteSize_cons] at hle ⊢
      rw [floorBoundary_cons, if_pos (by omega), ih (by omega)]

/-- The end of a character is reached downwards before the start of the text is passed. -/
theorem roundDown?_eq (text : List Char) (offset : Nat) :
    roundDown? text offset = some (floorBoundary text offset) := by
  induction offset with
  | zero => simp [roundDown?, isBoundary, floorBoundary_zero]
  | succ offset ih =>
      unfold roundDown? isBoundary
      split_ifs with hend
      · rw [beq_iff_eq.mp hend]
      · rw [ih, floorBoundary_succ (by simpa using hend)]

theorem ceilBoundary_eq {text : List Char} {offset : Nat}
    (hend : floorBoundary text offset = offset) :
    ceilBoundary text offset = offset := by
  induction text generalizing offset with
  | nil => exact hend
  | cons c rest ih =>
      rw [floorBoundary_cons] at hend
      unfold ceilBoundary
      split_ifs with hzero
      · exact hzero.symm
      · split_ifs at hend with hfits
        · rw [ih (by omega)]
          omega
        · exact absurd hend.symm hzero

/-- No character ends between an offset that is not an end and the one above it. -/
theorem ceilBoundary_succ {text : List Char} {offset : Nat} (hlt : offset < byteSize text)
    (hinside : floorBoundary text offset ≠ offset) :
    ceilBoundary text offset = ceilBoundary text (offset + 1) := by
  induction text generalizing offset with
  | nil => cases hlt
  | cons c rest ih =>
      have hzero : offset ≠ 0 := by
        rintro rfl
        exact hinside (floorBoundary_zero _)
      rw [byteSize_cons] at hlt
      rw [floorBoundary_cons] at hinside
      rw [ceilBoundary, ceilBoundary, if_neg hzero, if_neg (Nat.succ_ne_zero offset)]
      by_cases hfits : c.utf8Size ≤ offset
      · rw [if_pos hfits] at hinside
        have hdifference : offset + 1 - c.utf8Size = offset - c.utf8Size + 1 := by omega
        rw [hdifference, ih (by omega) fun heq => hinside (by omega)]
      · have hlow : offset - c.utf8Size = 0 := by omega
        have hhigh : offset + 1 - c.utf8Size = 0 := by omega
        rw [hlow, hhigh]

theorem ceilBoundary_of_le {text : List Char} {offset : Nat} (hle : byteSize text ≤ offset) :
    ceilBoundary text offset = byteSize text := by
  induction text generalizing offset with
  | nil => rfl
  | cons c rest ih =>
      have hpos := c.utf8Size_pos
      rw [byteSize_cons] at hle ⊢
      rw [ceilBoundary, if_neg (by omega), ih (by omega)]

/-- The end of a character is reached upwards at the end of the text if not before. -/
theorem roundUp?_eq {text : List Char} {limit offset : Nat} (hle : offset ≤ byteSize text)
    (hlimit : byteSize text - offset < limit) :
    roundUp? text limit offset = some (ceilBoundary text offset) := by
  induction limit generalizing offset with
  | zero => cases hlimit
  | succ limit ih =>
      unfold roundUp? isBoundary
      split_ifs with hend
      · rw [ceilBoundary_eq (beq_iff_eq.mp hend)]
      · have hinside : floorBoundary text offset ≠ offset := by simpa using hend
        have hlt : offset < byteSize text := by
          apply Nat.lt_of_le_of_ne hle
          rintro rfl
          exact hinside (floorBoundary_of_le (Nat.le_refl _))
        rw [ih hlt (by omega), ceilBoundary_succ hlt hinside]

end Text

/-- The range with its ends in order, clamped to the text, and moved to ends of characters. -/
def Span.normalize? (range : Span) (text : List Char) : Option Span := do
  let first := if range.start ≤ range.stop then range.start else range.stop
  let last := if range.start ≤ range.stop then range.stop else range.start
  let start ← roundDown? text (min first (byteSize text))
  let stop ← roundUp? text (byteSize text + 1) (min last (byteSize text))
  return ⟨start, stop⟩

theorem Span.normalize?_eq (range : Span) (text : List Char) :
    range.normalize? text = some (range.normalize text) := by
  have hfloor : ∀ offset, floorBoundary text (min offset (byteSize text)) =
      floorBoundary text offset := by
    intro offset
    rcases Nat.le_total offset (byteSize text) with hle | hle
    · rw [Nat.min_eq_left hle]
    · rw [Nat.min_eq_right hle, floorBoundary_of_le hle, floorBoundary_of_le (Nat.le_refl _)]
  have hceil : ∀ offset, ceilBoundary text (min offset (byteSize text)) =
      ceilBoundary text offset := by
    intro offset
    rcases Nat.le_total offset (byteSize text) with hle | hle
    · rw [Nat.min_eq_left hle]
    · rw [Nat.min_eq_right hle, ceilBoundary_of_le hle, ceilBoundary_of_le (Nat.le_refl _)]
  have hstop : ∀ offset, roundUp? text (byteSize text + 1) (min offset (byteSize text)) =
      some (ceilBoundary text offset) := by
    intro offset
    rw [roundUp?_eq (Nat.min_le_right _ _) (by omega), hceil]
  unfold normalize? normalize
  simp only [roundDown?_eq, hfloor, hstop, Option.bind_eq_bind, Option.bind_some, Option.pure_def]
  split_ifs with hle
  · rw [Nat.min_eq_left hle, Nat.max_eq_right hle]
  · have hge := Nat.le_of_not_le hle
    rw [Nat.min_eq_right hge, Nat.max_eq_left hge]

/-! ## Siblings by their indices -/

/-- Index of the last element that has a property. -/
def lastIndex? {α : Type} (holds : α → Bool) : List α → Option Nat
  | [] => none
  | first :: rest =>
      match lastIndex? holds rest with
      | some index => some (index + 1)
      | none => if holds first then some 0 else none

namespace Settings

/-- The run between two indices, with the sibling in front of it. -/
def cutRun? (container : Option Element) (children : List Node) (first last : Nat) :
    Option (Option Selection) := do
  let run ← range? children first (last + 1)
  let before := (minus? first 1).bind fun index => children[index]?
  match run with
  | [] => none
  | node :: rest => return some ⟨container, before, node, rest⟩

/-- The run that a range selects among the children of a container, by the indices of the first and
the last child that the range touches. -/
def locate? (settings : Settings) (range : Span) (container : Option Element)
    (children : List Node) :
    Option (Option Selection) :=
  match children.findIdx? fun node => node.span.overlaps range,
      lastIndex? (fun node => node.span.overlaps range) children with
  | some first, some last =>
      if first = last then
        match _hnode : children[first]? with
        | none => none
        | some (.element elem inner) =>
            if elem.content.contains range then
              if settings.preserves elem.name then some none
              else settings.locate? range (some elem) inner
            else cutRun? container children first last
        | some (.leaf _) => cutRun? container children first last
      else cutRun? container children first last
  | _, _ => some none
termination_by sizeOf children
decreasing_by
  have hsize := List.sizeOf_lt_of_mem (List.mem_of_getElem? _hnode)
  simp only [Node.element.sizeOf_spec] at hsize
  omega

variable {settings : Settings} {range : Span}

theorem lastIndex?_eq (nodes : List Node) :
    lastIndex? (fun node => node.span.overlaps range) nodes =
      if upToLast range nodes = [] then none else some ((upToLast range nodes).length - 1) := by
  induction nodes with
  | nil => rfl
  | cons node rest ih =>
      rw [lastIndex?, ih, upToLast]
      cases upToLast range rest with
      | nil =>
          by_cases hover : node.span.overlaps range = true
          · simp [hover]
          · simp [hover]
      | cons next found => simp

theorem lastIndex?_append {holds : Node → Bool} {front : List Node}
    (hfront : ∀ node ∈ front, holds node = false) (nodes : List Node) :
    lastIndex? holds (front ++ nodes) = (lastIndex? holds nodes).map (front.length + ·) := by
  induction front with
  | nil => simp
  | cons node front ih =>
      rw [List.cons_append, lastIndex?, ih fun other hmem =>
        hfront other (List.mem_cons_of_mem _ hmem), hfront node List.mem_cons_self]
      cases lastIndex? holds nodes with
      | none => rfl
      | some index => simp only [Option.map_some, List.length_cons, Nat.add_right_comm]

theorem findIdx?_append_cons {holds : Node → Bool} {front : List Node} {node : Node}
    (hfront : ∀ node ∈ front, holds node = false) (hnode : holds node = true) (rest : List Node) :
    (front ++ node :: rest).findIdx? holds = some front.length := by
  have hnone : front.findIdx? holds = none := List.findIdx?_eq_none_iff.mpr hfront
  rw [List.findIdx?_append, hnone, List.findIdx?_cons, if_pos hnode]
  simp

/-- A run is cut out of its siblings together with the sibling in front of it. -/
theorem cutRun?_append (container : Option Element) (front : List Node) (node : Node)
    (others after : List Node) :
    cutRun? container (front ++ (node :: others ++ after)) front.length
        (front.length + others.length) =
      some (some ⟨container, front.getLast?, node, others⟩) := by
  have hrun := range?_append front (node :: others) after
  rw [List.length_cons, ← Nat.add_assoc] at hrun
  have hbefore : ((minus? front.length 1).bind fun index =>
      (front ++ (node :: others ++ after))[index]?) = front.getLast? := by
    rcases List.eq_nil_or_concat front with rfl | ⟨start, last, rfl⟩
    · rfl
    · rw [minus?_of_le (by simp), Option.bind_some]
      simp
  unfold cutRun?
  simp only [hrun, hbefore, Option.bind_eq_bind, Option.bind_some]
  rfl

/-- The run that a range selects among siblings is found by their indices. -/
theorem locate?_append (container : Option Element) (front nodes : List Node)
    (hfront : ∀ node ∈ front, node.span.overlaps range = false) :
    settings.locate? range container (front ++ nodes) =
      some (settings.selectAmong range container front.getLast? nodes) := by
  match nodes with
  | [] =>
      have hnone : front.findIdx? (fun node => node.span.overlaps range) = none :=
        List.findIdx?_eq_none_iff.mpr hfront
      rw [locate?, List.append_nil, hnone, selectAmong]
  | node :: rest =>
      by_cases hover : node.span.overlaps range = true
      · have hfirst := findIdx?_append_cons hfront hover rest
        have hlast := lastIndex?_append hfront (node :: rest)
        have hhere : (front ++ node :: rest)[front.length]? = some node := by simp
        rw [lastIndex?_eq (node :: rest), upToLast] at hlast
        rw [selectAmong, if_pos hover, locate?, hfirst, hlast]
        cases hfound : upToLast range rest with
        | cons next found =>
            -- more than one sibling is touched: the run is cut out as it is
            obtain ⟨after, hafter⟩ := upToLast_prefix range rest
            rw [hfound] at hafter
            have hcut := cutRun?_append container front node (next :: found) after
            rw [List.cons_append, hafter] at hcut
            simpa using hcut
        | nil =>
            have hcut := cutRun?_append container front node [] rest
            simp only [hover, if_pos, List.cons_ne_nil, if_false, Option.map_some,
              List.length_singleton, Nat.sub_self, Nat.add_zero]
            cases node with
            | leaf leaf =>
                rw [selectWithin]
                split
                next hnone => rw [hhere] at hnone; contradiction
                next hsome => rw [hhere] at hsome; injection hsome; contradiction
                next => exact hcut
            | element elem inner =>
                have hinside := locate?_append (some elem) [] inner (by simp)
                rw [selectWithin]
                split
                next hnone => rw [hhere] at hnone; contradiction
                next found children hsome =>
                  obtain ⟨rfl, rfl⟩ := Node.element.inj (Option.some.inj (hhere.symm.trans hsome))
                  split_ifs with hcontains hpreserves
                  · rfl
                  · exact hinside
                  · exact hcut
                next leaf hsome => rw [hhere] at hsome; injection hsome; contradiction
      · have hmiss : node.span.overlaps range = false := by simpa using hover
        have hrest := locate?_append container (front ++ [node]) rest fun other hmem => by
          rcases List.mem_append.mp hmem with hmem | hmem
          · exact hfront other hmem
          · rw [List.mem_singleton.mp hmem]
            exact hmiss
        rw [List.append_assoc, List.singleton_append, List.getLast?_concat] at hrest
        rw [hrest, selectAmong, if_neg hover]
termination_by sizeOf nodes

/-- The run that a range of a document selects is found by the indices of nodes. -/
theorem locate?_eq (document : Document) :
    settings.locate? range none document.children = some (settings.select document range) :=
  locate?_append none [] document.children fun _ hmem => nomatch hmem

end Settings

end Markup
