import Markup.Tag.Basic

/-!
# Plans

A plan says, for the nodes of a document, what goes between them and inside them in place of the
blanks that the source has there. It is a table by the number of a node. A node that has no
decision is reproduced from the source.
-/

namespace Markup

/-- What stands in place of blanks of the source. -/
inductive Gap where
  | nothing
  | space
  | lineBreak (newlines indent : Nat)
  | kept (text : List Char)
  deriving DecidableEq, Repr, Inhabited

namespace Gap

/-- The characters that a gap stands for. -/
def text : Gap → List Char
  | nothing => []
  | space => [' ']
  | lineBreak newlines indent => List.replicate newlines '\n' ++ List.replicate indent ' '
  | kept text => text

/-- Keeps a text, if it is not empty. -/
def keep : List Char → Gap
  | [] => nothing
  | c :: rest => kept (c :: rest)

end Gap

/-- What stands in front of an attribute, and how its value is quoted. -/
structure AttributeLayout where
  gap : Gap
  quote : Option Quote
  deriving DecidableEq, Repr, Inhabited

/-- How the content of an element comes about: there is none, it is laid out, or it is copied from
the source, end tag included. -/
inductive Content where
  | empty
  | formatted
  | verbatim
  deriving DecidableEq, Repr, Inhabited

/-- The inside of a node: the gaps between the words of a text, those in the tags of an element, or
nothing that could be laid out. -/
inductive Layout where
  | text (gaps : List Gap)
  | element (attributes : List AttributeLayout) (tagEnd : Gap) (content : Content) (endTag : Gap)
  | atom
  deriving DecidableEq, Repr, Inhabited

/-- All that is decided about a node. The indent is that of the node itself. -/
structure Decision where
  before : Gap
  after : Gap
  indent : Nat
  layout : Layout
  deriving DecidableEq, Repr, Inhabited

/-- The decisions by the numbers of nodes, and what goes behind the last node. -/
structure Plan where
  decisions : Array (Option Decision)
  ending : Gap
  deriving DecidableEq, Repr, Inhabited

namespace Plan

/-- The plan that decides nothing. -/
def empty (count : Nat) : Plan :=
  ⟨Array.replicate count none, .nothing⟩

def get? (plan : Plan) (id : Nat) : Option Decision :=
  (plan.decisions[id]?).join

/-- Number of nodes that have a decision. -/
def decided (plan : Plan) : Nat :=
  plan.decisions.countP Option.isSome

/-- Sets the decision about a node. -/
def decide (plan : Plan) (id : Nat) (decision : Decision) : Plan :=
  { plan with decisions := plan.decisions.setIfInBounds id (some decision) }

/-- Changes the decision about a node, if there is one. -/
def modify (plan : Plan) (id : Nat) (change : Decision → Decision) : Plan :=
  match plan.get? id with
  | none => plan
  | some decision => plan.decide id (change decision)

theorem get?_decide (plan : Plan) (id other : Nat) (decision : Decision) :
    (plan.decide id decision).get? other =
      if id = other ∧ id < plan.decisions.size then some decision else plan.get? other := by
  unfold decide get?
  rw [Array.getElem?_setIfInBounds]
  split
  next heq =>
    subst heq
    split
    next hlt => simp [hlt]
    next hlt => simp [hlt]
  next heq => simp [heq]

end Plan

end Markup
