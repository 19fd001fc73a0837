/-!
# Output fragments

The output is a list of pieces of text, each with its role. How a role looks is decided when the
pieces are joined: as plain text, or with the colour codes of terminals.
-/

namespace Markup

/-- The role of a piece of output. -/
inductive Role where
  | neutral
  | indent
  | newline
  | tag
  | bracket
  | attributeName
  | attributeValue
  | quote
  | text
  | entity
  | comment
  | doctype
  | verbatim
  deriving DecidableEq, Repr, Inhabited

/-- A piece of output. -/
structure OutputPiece where
  role : Role
  text : List Char
  deriving DecidableEq, Repr, Inhabited

/-- The text of pieces that follow each other. -/
def joinPieces (pieces : List OutputPiece) : List Char :=
  pieces.flatMap OutputPiece.text

/-- A piece of output, or nothing if it would be empty. -/
def emit (role : Role) (text : List Char) : List OutputPiece :=
  if text.isEmpty then [] else [⟨role, text⟩]

theorem joinPieces_append (first second : List OutputPiece) :
    joinPieces (first ++ second) = joinPieces first ++ joinPieces second :=
  List.flatMap_append

theorem joinPieces_emit (role : Role) (text : List Char) : joinPieces (emit role text) = text := by
  unfold emit
  split
  next h => rw [List.isEmpty_iff.mp h]; rfl
  next => simp [joinPieces]

end Markup
