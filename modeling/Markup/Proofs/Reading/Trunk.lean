import Markup.Proofs.Tree.Extent
import Markup.Proofs.Tree.Shape

/-!
# Building a shape

The shape of a document can be built token by token as the document is, from bare tokens. Each
operation of the builder does to the shape of the tree under construction what the corresponding
operation here does. Main statement: `Builder.add_step`.
-/

namespace Markup

open Markup.Text

/-- The shape of a tree under construction: the open elements with what is inside them, the
innermost first, and what lies in none of them. -/
structure Trunk where
  stack : List (StartTag × List Item)
  finished : List Item

namespace Trunk

def append (trunk : Trunk) (items : List Item) : Trunk :=
  match trunk.stack with
  | [] => ⟨[], trunk.finished ++ items⟩
  | (tag, inside) :: outer => ⟨(tag, inside ++ items) :: outer, trunk.finished⟩

def push (trunk : Trunk) (tag : StartTag) : Trunk :=
  ⟨(tag, []) :: trunk.stack, trunk.finished⟩

/-- Ends the innermost open element. -/
def pop (trunk : Trunk) (close : Option EndTag) : Trunk :=
  match trunk.stack with
  | [] => trunk
  | (tag, inside) :: outer =>
      (⟨outer, trunk.finished⟩ : Trunk).append
        [.element true [] tag inside (close.map fun tag => ([], tag))]

/-- Ends the given number of open elements, innermost first, without end tags. -/
def popMany (trunk : Trunk) : Nat → Trunk
  | 0 => trunk
  | count + 1 => (trunk.pop none).popMany count

/-- How many elements are open inside the innermost one with this name. -/
def inside? (trunk : Trunk) (name : List Char) : Option Nat :=
  trunk.stack.findIdx? fun (tag, _) => sameName tag.name name

/-- The names of end tags that end no open element. -/
def Stray (trunk : Trunk) (name : List Char) : Prop :=
  trunk.inside? name = none

/-- Ends every open element that the start of an element with this name ends, unless too many stay
open. -/
def prepare? (trunk : Trunk) (name : List Char) : Option Trunk :=
  let prepared := trunk.popMany
    (trunk.stack.takeWhile fun (tag, _) => Tag.impliesEnd tag.name name).length
  if maximumDepth ≤ prepared.stack.length then none else some prepared

/-- Adds a bare token of markup, unless it ends no open element or opens one too many. -/
def step? (trunk : Trunk) : Token → Option Trunk
  | .comment raw => some (trunk.append [.leaf [] .comment raw])
  | .cdata raw => some (trunk.append [.leaf [] .verbatim raw])
  | .declaration raw => some (trunk.append [.leaf [] .doctype raw])
  | .startTag tag => (trunk.prepare? tag.name).map fun prepared =>
      if tag.standsAlone = true then prepared.append [.element true [] tag [] none]
      else prepared.push tag
  | .rawElement tag content close => (trunk.prepare? tag.name).map fun prepared =>
      prepared.append [.rawText [] tag content close]
  | .endTag tag => (trunk.inside? tag.name).map fun count => (trunk.popMany count).pop (some tag)
  | .text _ => none
  | .unterminated _ _ => none

/-- Ends every open element. -/
def finish (trunk : Trunk) : List Item :=
  (trunk.popMany trunk.stack.length).finished

@[simp]
theorem append_nil (trunk : Trunk) : trunk.append [] = trunk := by
  obtain ⟨stack, finished⟩ := trunk
  cases stack <;> simp [append]

theorem tags_append (trunk : Trunk) (items : List Item) :
    (trunk.append items).stack.map Prod.fst = trunk.stack.map Prod.fst := by
  obtain ⟨stack, finished⟩ := trunk
  cases stack <;> simp [append]

/-- What is inside the open elements does not change which end tags are stray. -/
theorem stray_append (trunk : Trunk) (items : List Item) :
    (trunk.append items).Stray = trunk.Stray := by
  have htags := trunk.tags_append items
  have hinside : ∀ (trunk : Trunk) (name : List Char), trunk.inside? name =
      (trunk.stack.map Prod.fst).findIdx? fun tag => sameName tag.name name := by
    intro trunk name
    rw [List.findIdx?_map]
    rfl
  funext name
  rw [Stray, Stray, hinside, hinside, htags]

end Trunk

namespace Nesting

/-- The shape of what has been built. -/
def trunk (nesting : Nesting) : Trunk :=
  ⟨nesting.stack.map fun element => (element.tag.bare, Node.shapeOfAll element.children.toList),
    Node.shapeOfAll nesting.finished.toList⟩

theorem trunk_append (nesting : Nesting) (added : Node) :
    (nesting.append added).trunk = nesting.trunk.append (Node.shapeOfAll [added]) := by
  unfold Nesting.append
  split
  next hstack => simp [trunk, hstack, Trunk.append, Node.shapeOfAll_append]
  next inner outer hstack => simp [trunk, hstack, Trunk.append, Node.shapeOfAll_append]

theorem trunk_pop {nesting : Nesting} (hlegible : nesting.Legible) (endTag : Option EndTag)
    (closed : Span) :
    (nesting.pop endTag closed).trunk = nesting.trunk.pop (endTag.map EndTag.bare) := by
  unfold Nesting.pop
  split
  next hstack => simp [trunk, hstack, Trunk.pop]
  next inner outer hstack =>
    have hopen := hlegible.stack
    rw [hstack] at hopen
    obtain ⟨⟨-, hplain⟩, -⟩ := hopen inner List.mem_cons_self
    rw [trunk_append, OpenElement.close, Node.shapeOfAll_element hplain]
    simp [trunk, hstack, Trunk.pop, Function.comp_def]

theorem trunk_popMany {nesting : Nesting} (hlegible : nesting.Legible) (offset count : Nat) :
    (nesting.popMany offset count).trunk = nesting.trunk.popMany count := by
  induction count generalizing nesting with
  | zero => rfl
  | succ count ih =>
      rw [Nesting.popMany, ih (legible_laws.pop hlegible (by simp) _), trunk_pop hlegible]
      rfl

theorem inside?_trunk (nesting : Nesting) (name : List Char) :
    nesting.trunk.inside? name = nesting.inside? name := by
  unfold Trunk.inside? Nesting.inside? trunk
  rw [List.findIdx?_map]
  rfl

theorem shapeOfAll_finish {nesting : Nesting} (hlegible : nesting.Legible) (offset : Nat) :
    Node.shapeOfAll (nesting.finish offset) = nesting.trunk.finish := by
  have hmany := trunk_popMany hlegible offset nesting.depth
  have hdepth : nesting.trunk.stack.length = nesting.depth := by simp [trunk, depth]
  rw [Trunk.finish, hdepth, ← hmany]
  rfl

end Nesting

namespace Builder

/-- The shape of what has been built, the text held back apart. -/
def trunk (builder : Builder) : Trunk :=
  builder.nesting.trunk

theorem stray_trunk (builder : Builder) (name : List Char) :
    builder.trunk.Stray name ↔ builder.nesting.inside? name = none := by
  rw [Trunk.Stray, trunk, Nesting.inside?_trunk]

theorem trunk_addLeaf (builder : Builder) {kind : LeafKind} (hkind : kind ≠ .text)
    (raw : List Char) :
    (builder.addLeaf kind raw).trunk = builder.trunk.append [.leaf [] kind raw] := by
  unfold addLeaf trunk
  dsimp only
  rw [Nesting.trunk_append, Node.shapeOfAll_leaf]
  exact hkind

theorem trunk_flush (builder : Builder) :
    builder.flush.trunk = builder.trunk.append (Item.ofProse builder.waiting) := by
  unfold flush
  split
  next hwaiting => simp [hwaiting]
  next c rest hwaiting =>
    rw [addLeaf, trunk, Nesting.trunk_append, Node.shapeOfAll_text rfl]
    rfl

theorem trunk_prepare {builder : Builder} (hlegible : builder.Legible) (name : List Char) :
    match builder.prepare name with
    | .error _ => builder.flush.trunk.prepare? name = none
    | .ok prepared =>
        builder.flush.trunk.prepare? name = some prepared.trunk ∧ prepared.waiting = [] := by
  have hpopped := Nesting.trunk_popMany (Nesting.legible_laws.flush hlegible) builder.flush.position
    (builder.flush.nesting.stack.takeWhile
      fun element => Tag.impliesEnd element.tag.name name).length
  have hcount : (builder.flush.trunk.stack.takeWhile
      fun (tag, _) => Tag.impliesEnd tag.name name).length =
      (builder.flush.nesting.stack.takeWhile
        fun element => Tag.impliesEnd element.tag.name name).length := by
    simp [trunk, Nesting.trunk, List.takeWhile_map, Function.comp_def]
  unfold prepare Trunk.prepare? Nesting.popImplied
  dsimp only
  rw [hcount]
  unfold trunk at *
  rw [← hpopped]
  have hdepth : ∀ nesting : Nesting, nesting.trunk.stack.length = nesting.depth := by
    simp [Nesting.trunk, Nesting.depth]
  rw [hdepth]
  split
  next hdeep heq =>
    split at heq
    next hdeep => rw [if_pos hdeep]
    next => simp at heq
  next prepared heq =>
    split at heq
    next => simp at heq
    next hdeep =>
      cases heq
      exact ⟨if_neg hdeep, builder.waiting_flush⟩

theorem trunk_startElement (builder : Builder) {tag : StartTag}
    (hplain : tag.takesRawText = false) :
    (builder.startElement tag).trunk =
      if tag.bare.standsAlone = true then builder.trunk.append [.element true [] tag.bare [] none]
      else builder.trunk.push tag.bare := by
  unfold startElement trunk
  dsimp only
  rw [StartTag.bare_standsAlone, StartTag.standsAlone]
  split
  next =>
    rw [Nesting.trunk_append, Node.shapeOfAll_element hplain]
    rfl
  next => rfl

theorem trunk_addRawElement (builder : Builder) {tag : StartTag} (hraw : tag.takesRawText = true)
    (content : List Char) (close : Option EndTag) :
    (builder.addRawElement tag content close).trunk =
      builder.trunk.append [.rawText [] tag.bare (Token.keptContent content close)
        (close.map EndTag.bare)] := by
  obtain ⟨elem, children, rfl, rfl, rfl, -, -, hadded⟩ :=
    builder.nesting_addRawElement tag content close
  rw [trunk, hadded, Nesting.trunk_append, Node.shapeOfAll_rawElement hraw]
  rfl

/-- An element is put into the tree where its name has a place in the shape, and refused where it
has none. -/
theorem place_step {builder : Builder} (hlegible : builder.Legible) (name : List Char)
    {place : Builder → Builder} {put : Trunk → Trunk}
    (hput : ∀ prepared, (place prepared).trunk = put prepared.trunk)
    (hwaiting : ∀ prepared, (place prepared).waiting = prepared.waiting) :
    match (do return place (← builder.prepare name) : Except TooDeep Builder) with
    | .error _ => (builder.flush.trunk.prepare? name).map put = none
    | .ok added =>
        (builder.flush.trunk.prepare? name).map put = some added.trunk ∧ added.waiting = [] := by
  have hprepare := trunk_prepare hlegible name
  cases hprepared : builder.prepare name with
  | error failure =>
      rw [hprepared] at hprepare
      exact congrArg (Option.map put) hprepare
  | ok prepared =>
      rw [hprepared] at hprepare
      obtain ⟨hplace, hempty⟩ := hprepare
      refine ⟨?_, (hwaiting prepared).trans hempty⟩
      rw [hplace]
      exact congrArg some (hput prepared).symm

/-- Adding markup to a tree adds the bare token to its shape, and fails exactly where that does. -/
theorem add_step {builder : Builder} {token : Token} (hlegible : builder.Legible)
    (hmarkup : token.isMarkup = true) (hfits : token.Fits)
    (hstray : ∀ tag, token = .endTag tag → ¬builder.trunk.Stray tag.name) :
    match builder.add token with
    | .error _ => builder.flush.trunk.step? token.bare = none
    | .ok added =>
        builder.flush.trunk.step? token.bare = some added.trunk ∧ added.waiting = [] := by
  cases token with
  | text raw => simp [Token.isMarkup] at hmarkup
  | unterminated construct raw => simp [Token.isMarkup] at hmarkup
  | comment raw =>
      exact ⟨congrArg some (trunk_addLeaf _ (by simp) raw).symm, builder.waiting_flush⟩
  | cdata raw =>
      exact ⟨congrArg some (trunk_addLeaf _ (by simp) raw).symm, builder.waiting_flush⟩
  | declaration raw =>
      exact ⟨congrArg some (trunk_addLeaf _ (by simp) raw).symm, builder.waiting_flush⟩
  | startTag tag =>
      refine place_step hlegible tag.name (fun prepared => prepared.trunk_startElement hfits.2.2) ?_
      intro prepared
      unfold startElement
      dsimp only
      split <;> rfl
  | rawElement tag content close =>
      refine place_step hlegible tag.name
        (fun prepared => prepared.trunk_addRawElement hfits.2.2.1 content close) ?_
      intro prepared
      cases content <;> rfl
  | endTag tag =>
      have hnone := hstray tag rfl
      rw [stray_trunk] at hnone
      obtain ⟨count, hcount⟩ := Option.ne_none_iff_exists'.mp hnone
      have hinside : builder.flush.trunk.inside? tag.bare.name = some count := by
        rw [trunk, Nesting.inside?_trunk, ← hcount]
        have htags := congrArg (List.findIdx? fun other => sameName other.name tag.name)
          builder.stack_flush
        rw [List.findIdx?_map, List.findIdx?_map] at htags
        exact htags
      have hflushed := Nesting.legible_laws.flush hlegible
      have hmany := Nesting.trunk_popMany hflushed builder.flush.position count
      have hpop := Nesting.trunk_pop
        (Nesting.legible_laws.popMany hflushed builder.flush.position count) (some tag)
        ⟨builder.flush.position, builder.flush.position + byteSize tag.raw⟩
      simp only [add, endElement, hcount, Token.bare, Trunk.step?, hinside, Option.map_some]
      refine ⟨?_, builder.waiting_flush⟩
      unfold trunk
      dsimp only
      rw [hpop, hmany]
      rfl

end Builder

end Markup
