/-!
# Offsets into the UTF-8 encoding of a text

Texts are lists of characters, while every position that this library takes or gives is a byte
offset into the UTF-8 encoding. The functions here are the bridge. An offset inside a character is
rounded to one of the two ends of that character.
-/

namespace Markup.Text

/-- Number of bytes of the UTF-8 encoding. -/
def byteSize : List Char → Nat
  | [] => 0
  | c :: rest => c.utf8Size + byteSize rest

@[simp] theorem byteSize_nil : byteSize [] = 0 := rfl

@[simp] theorem byteSize_cons (c : Char) (rest : List Char) :
    byteSize (c :: rest) = c.utf8Size + byteSize rest := rfl

@[simp] theorem byteSize_append (first second : List Char) :
    byteSize (first ++ second) = byteSize first + byteSize second := by
  induction first with
  | nil => simp
  | cons c rest ih => simp [ih, Nat.add_assoc]

/-- The characters that end at or before the given offset. -/
def takeBytes : Nat → List Char → List Char
  | _, [] => []
  | offset, c :: rest =>
      if c.utf8Size ≤ offset then c :: takeBytes (offset - c.utf8Size) rest else []

/-- The characters that end after the given offset. -/
def dropBytes : Nat → List Char → List Char
  | _, [] => []
  | offset, c :: rest =>
      if c.utf8Size ≤ offset then dropBytes (offset - c.utf8Size) rest else c :: rest

/-- Cutting a text at an offset loses nothing. -/
theorem takeBytes_append_dropBytes (offset : Nat) (text : List Char) :
    takeBytes offset text ++ dropBytes offset text = text := by
  induction text generalizing offset with
  | nil => rfl
  | cons c rest ih =>
      unfold takeBytes dropBytes
      split
      next => simp [ih]
      next => rfl

/-- Cutting at the end of the first of two texts gives them back. -/
theorem takeBytes_byteSize_append (first second : List Char) :
    takeBytes (byteSize first) (first ++ second) = first ∧
      dropBytes (byteSize first) (first ++ second) = second := by
  induction first with
  | nil =>
      cases second with
      | nil => exact ⟨rfl, rfl⟩
      | cons c rest =>
          have hpos : 0 < c.utf8Size := c.utf8Size_pos
          simp [takeBytes, dropBytes, Nat.not_le.mpr hpos]
  | cons c rest ih => simp [takeBytes, dropBytes, ih]

/-- The last character boundary at or before an offset. Past the end, the end. -/
def floorBoundary (text : List Char) (offset : Nat) : Nat :=
  byteSize (takeBytes offset text)

/-- The first character boundary at or after an offset. Past the end, the end. -/
def ceilBoundary : List Char → Nat → Nat
  | [], _ => 0
  | c :: rest, offset =>
      if offset = 0 then 0 else c.utf8Size + ceilBoundary rest (offset - c.utf8Size)

end Markup.Text
