import Markup.Tree.Building

/-!
# Reading more than once

A reader holds a text and how far it has been read. Reading to the end leaves nothing to read, so
that another reading gives an empty document; the numbering of nodes goes on. A reading that fails
leaves the reader as it is at that moment: the nodes in front of the start tag that was refused have
been made and what that tag would end has ended, but the reader still stands in front of the
running text before the tag. Main statements: `read_start`, which says that the first reading of a
text is `parse`, and `mapError_readAll`, which says that going back is all that a reader adds to
building a tree.
-/

namespace Markup

open Markup.Text

namespace Token

/-- Whether a token is running text. A reader goes over it in one step with the markup behind it. -/
def isRun : Token → Bool
  | text raw => raw != ['<']
  | _ => false

/-- The start tag that a token begins with, if it does. -/
def startTag? : Token → Option StartTag
  | startTag tag => some tag
  | rawElement tag _ _ => some tag
  | _ => none

end Token

namespace Builder

/-- What `prepare` looks at: the text held back is a node, and what the start of an element with
this name ends has ended. -/
def ready (builder : Builder) (name : List Char) : Builder :=
  { builder.flush with
    nesting := builder.flush.nesting.popImplied builder.flush.position name }

theorem prepare_eq (builder : Builder) (name : List Char) :
    builder.prepare name =
      if maximumDepth ≤ (builder.ready name).nesting.depth then
        .error ⟨(builder.ready name).position⟩
      else .ok (builder.ready name) := rfl

/-- A builder after a token that it refused. -/
def refuse (builder : Builder) (token : Token) : Builder :=
  match token.startTag? with
  | some tag => builder.ready tag.name
  | none => builder

end Builder

/-- A failed reading, with what is left to read and the tree so far. -/
structure Refusal where
  failure : TooDeep
  tokens : List Token
  builder : Builder
  deriving Inhabited

/-- Adds tokens in order. The reader has passed all markup up to an offset, and the running text
that has been added since; a failure goes back to that offset. -/
def Builder.readAll (passed : Nat) (run : List Token) (builder : Builder) :
    List Token → Except Refusal Builder
  | [] => .ok builder
  | token :: rest =>
      match builder.add token with
      | .error failure =>
          .error ⟨failure, run ++ token :: rest,
            { builder.refuse token with position := passed }⟩
      | .ok added =>
          if token.isRun then added.readAll passed (run ++ [token]) rest
          else added.readAll added.offset [] rest

theorem Builder.mapError_readAll (passed : Nat) (run : List Token) (builder : Builder)
    (tokens : List Token) :
    (builder.readAll passed run tokens).mapError Refusal.failure = builder.addAll tokens := by
  induction tokens generalizing passed run builder with
  | nil => rfl
  | cons token rest ih =>
      rw [Builder.addAll, List.foldlM_cons, Builder.readAll]
      cases builder.add token with
      | error failure => rfl
      | ok added =>
          dsimp only
          split
          next => exact ih _ _ added
          next => exact ih _ _ added

/-- What is left to read of a text: the tokens from the reader's offset on, and the tree of what
stands in front of them. -/
structure Reader where
  source : List Char := []
  tokens : List Token := []
  builder : Builder := {}
  deriving Inhabited

namespace Reader

/-- Goes to the start of a text, whatever has been read before. -/
def restart (reader : Reader) (text : List Char) : Reader :=
  { reader with source := text, tokens := Token.ofText text, builder := {} }

/-- A reader at the start of a text. -/
def start (text : List Char) : Reader :=
  ({} : Reader).restart text

/-- Reads what is left. -/
def read (reader : Reader) : Except TooDeep Document × Reader :=
  match reader.builder.readAll reader.builder.offset [] reader.tokens with
  | .error refusal =>
      (.error refusal.failure, { reader with tokens := refusal.tokens, builder := refusal.builder })
  | .ok builder =>
      let document := builder.document reader.source
      (.ok document,
        { reader with
          tokens := []
          builder := { position := builder.offset, next := document.count } })

/-- The first reading is that of the text alone. -/
theorem read_start (text : List Char) : (start text).read.1 = parse text := by
  have hread := Builder.mapError_readAll 0 [] {} (Token.ofText text)
  unfold parse
  rw [← hread]
  unfold read start restart
  dsimp only [Builder.offset, byteSize]
  cases Builder.readAll 0 [] {} (Token.ofText text) with
  | error refusal => rfl
  | ok builder => rfl

end Reader

end Markup
