/-!
# Tags as they are written

A start tag is kept piece by piece, whitespace included, so that writing the pieces one after the
other gives the tag back exactly. Duplicate attributes are kept, and the value of an attribute is
never decoded.
-/

namespace Markup

/-- The two characters that an attribute value may be quoted with. -/
inductive Quote where
  | single
  | double
  deriving DecidableEq, Repr, Inhabited

namespace Quote

def char : Quote → Char
  | single => '\''
  | double => '"'

/-- The quote that a character is, if it is one. -/
def ofChar? (c : Char) : Option Quote :=
  if c = '"' then some double else if c = '\'' then some single else none

theorem ofChar?_eq_some_iff (c : Char) (quote : Quote) :
    ofChar? c = some quote ↔ c = quote.char := by
  unfold ofChar?
  split
  next h => subst h; cases quote <;> decide
  next hdouble =>
    split
    next h => subst h; cases quote <;> decide
    next hsingle => cases quote <;> simp [char, hdouble, hsingle]

end Quote

/-- The value of an attribute: what stands between the name and the value, which is an equals sign
and the blanks around it, and the value without its quotes. -/
structure AttributeValue where
  before : List Char
  raw : List Char
  quote : Option Quote
  deriving DecidableEq, Repr, Inhabited

/-- An attribute, with the blanks in front of its name. -/
structure Attribute where
  gap : List Char
  name : List Char
  value : Option AttributeValue
  deriving DecidableEq, Repr, Inhabited

/-- How a start tag ends: with `>` or with `/>`. -/
inductive Ending where
  | plain
  | selfClosing
  deriving DecidableEq, Repr, Inhabited

/-- A start tag, with the blanks between its last attribute and its end. -/
structure StartTag where
  name : List Char
  attributes : List Attribute
  trailing : List Char
  ending : Ending
  deriving DecidableEq, Repr, Inhabited

/-- An end tag, with its whole text. -/
structure EndTag where
  name : List Char
  raw : List Char
  deriving DecidableEq, Repr, Inhabited

/-- The text of an optional quote. -/
def quoteText : Option Quote → List Char
  | none => []
  | some quote => [quote.char]

def AttributeValue.text (value : AttributeValue) : List Char :=
  value.before ++ quoteText value.quote ++ value.raw ++ quoteText value.quote

/-- The text of an optional value. -/
def valueText : Option AttributeValue → List Char
  | none => []
  | some value => value.text

/-- The name and the value, without the blanks in front. -/
def Attribute.body (attr : Attribute) : List Char :=
  attr.name ++ valueText attr.value

def Attribute.text (attr : Attribute) : List Char :=
  attr.gap ++ attr.body

def Ending.text : Ending → List Char
  | plain => ['>']
  | selfClosing => ['/', '>']

/-- The text of a start tag after its angle bracket. -/
def StartTag.body (tag : StartTag) : List Char :=
  tag.name ++ (tag.attributes.flatMap Attribute.text ++ (tag.trailing ++ tag.ending.text))

def StartTag.text (tag : StartTag) : List Char :=
  '<' :: tag.body

end Markup
