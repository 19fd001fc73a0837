import Markup.Json.Value
import Markup.Json.Token

/-!
# Reading JSON

The grammar of JSON over tokens, without any leniency: no comments, no commas before a closing
bracket, nothing behind the value.
-/

namespace Markup.Json

mutual

/-- Reads a value. The first argument bounds the number of steps; each takes a token. -/
def value? : Nat → List Token → Option (Json × List Token)
  | 0, _ => none
  | fuel + 1, tokens =>
      match tokens with
      | .null :: rest => some (.null, rest)
      | .bool value :: rest => some (.bool value, rest)
      | .number natural :: rest => some (.number natural, rest)
      | .string text :: rest => some (.string text, rest)
      | .openArray :: .closeArray :: rest => some (.array [], rest)
      | .openArray :: rest => (items? fuel rest).map fun (items, after) => (.array items, after)
      | .openObject :: .closeObject :: rest => some (.object [], rest)
      | .openObject :: rest =>
          (members? fuel rest).map fun (members, after) => (.object members, after)
      | _ => none

/-- Reads the items of an array and its closing bracket. -/
def items? : Nat → List Token → Option (List Json × List Token)
  | 0, _ => none
  | fuel + 1, tokens => do
      let (item, rest) ← value? fuel tokens
      match rest with
      | .closeArray :: after => return ([item], after)
      | .comma :: after =>
          let (items, afterItems) ← items? fuel after
          return (item :: items, afterItems)
      | _ => none

/-- Reads the members of an object and its closing brace. -/
def members? : Nat → List Token → Option (List (Option String × Json) × List Token)
  | 0, _ => none
  | fuel + 1, tokens =>
      match tokens with
      | .string name :: .colon :: rest => do
          let (value, afterValue) ← value? fuel rest
          match afterValue with
          | .closeObject :: after => return ([(name, value)], after)
          | .comma :: after =>
              let (members, afterMembers) ← members? fuel after
              return ((name, value) :: members, afterMembers)
          | _ => none
      | _ => none

end

/-- Reads a text that is one JSON value. -/
def ofText? (text : List Char) : Option Json := do
  let tokens ← tokens? text
  match ← value? (2 * tokens.length + 1) tokens with
  | (value, []) => return value
  | _ => none

end Markup.Json
