import Toolpath.Json.Token

/-!
# Reading JSON

A value is read off the front of a list of tokens; a document is one value and nothing behind it.
An object with a name that stands for nothing stands for nothing itself.
-/

namespace Toolpath.Json

/-- The object with the given members; a name that stands for nothing spoils it. -/
def ofMembers (members : List (Option String × Json)) : Json :=
  match members.mapM fun (name?, value) => name?.map fun name => (name, value) with
  | some members => .object members
  | none => .malformed

mutual

/-- A value at the front of the tokens, and the rest. -/
def valueWithin? : Nat → List Token → Option (Json × List Token)
  | 0, _ => none
  | fuel + 1, tokens =>
    match tokens with
    | .null :: rest => some (.null, rest)
    | .boolean b :: rest => some (.boolean b, rest)
    | .number text :: rest => some (.number text, rest)
    | .string (some text) :: rest => some (.string text, rest)
    | .string none :: rest => some (.malformed, rest)
    | .openArray :: .closeArray :: rest => some (.array [], rest)
    | .openArray :: rest => (itemsWithin? fuel rest).map fun (items, rest) => (.array items, rest)
    | .openObject :: .closeObject :: rest => some (.object [], rest)
    | .openObject :: rest =>
      (membersWithin? fuel rest).map fun (members, rest) => (ofMembers members, rest)
    | _ => none

/-- The items up to the closing bracket, and the rest. -/
def itemsWithin? : Nat → List Token → Option (List Json × List Token)
  | 0, _ => none
  | fuel + 1, tokens =>
    match valueWithin? fuel tokens with
    | some (item, .closeArray :: rest) => some ([item], rest)
    | some (item, .comma :: rest) =>
      (itemsWithin? fuel rest).map fun (items, rest) => (item :: items, rest)
    | _ => none

/-- The members up to the closing brace, and the rest. -/
def membersWithin? : Nat → List Token → Option (List (Option String × Json) × List Token)
  | 0, _ => none
  | fuel + 1, tokens =>
    match tokens with
    | .string name? :: .colon :: rest =>
      match valueWithin? fuel rest with
      | some (value, .closeObject :: rest) => some ([(name?, value)], rest)
      | some (value, .comma :: rest) =>
        (membersWithin? fuel rest).map fun (members, rest) => ((name?, value) :: members, rest)
      | _ => none
    | _ => none

end

/-- Read a document. -/
def ofChars? (cs : List Char) : Option Json :=
  match tokens? cs with
  | none => none
  | some tokens =>
    match valueWithin? (2 * tokens.length + 1) tokens with
    | some (value, []) => some value
    | _ => none

/-- Read a document. -/
def ofText? (text : String) : Option Json := ofChars? text.toList

end Toolpath.Json
