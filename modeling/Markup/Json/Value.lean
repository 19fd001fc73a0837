/-!
# JSON values

What a JSON text can hold, as far as settings look at it. A number counts only where it is written
as a natural number, and a string only where its escapes make up characters: a lone half of a
surrogate pair may stand in a string, but then the string has no text.
-/

namespace Markup

inductive Json where
  | null
  | bool (value : Bool)
  | number (natural : Option Nat)
  | string (text : Option String)
  | array (items : List Json)
  | object (members : List (Option String × Json))
  deriving Repr, Inhabited

namespace Json

def asBool? : Json → Option Bool
  | bool value => some value
  | _ => none

/-- A natural number that fits into 64 bits. -/
def asNatural? : Json → Option Nat
  | number (some value) => if value < UInt64.size then some value else none
  | _ => none

def asString? : Json → Option String
  | string text => text
  | _ => none

/-- A list of strings. -/
def asStrings? : Json → Option (List String)
  | array items => items.mapM asString?
  | _ => none

/-- The name of a choice, given by itself or as the only member of an object, with the value
null. -/
def asChoice? : Json → Option String
  | string text => text
  | object [(name, null)] => name
  | _ => none

end Json

end Markup
