import Toolpath.Json

/-!
# Printing JSON

Two layouts: one line without blanks, and one with a member or item per line, indented by two
blanks for each level. Empty arrays and objects stay on one line.
-/

namespace Toolpath.Json

/-- The lower-case hexadecimal digit of a number below sixteen. -/
def hexDigit (n : Nat) : Char := Nat.digitChar n

/-- The text of one character inside a string. -/
def escapedChar (c : Char) : List Char :=
  if c = '"' then ['\\', '"']
  else if c = '\\' then ['\\', '\\']
  else if 32 ≤ c.toNat then [c]
  else if c.toNat = 8 then ['\\', 'b']
  else if c.toNat = 12 then ['\\', 'f']
  else if c = '\n' then ['\\', 'n']
  else if c = '\r' then ['\\', 'r']
  else if c = '\t' then ['\\', 't']
  else ['\\', 'u', '0', '0', hexDigit (c.toNat / 16), hexDigit (c.toNat % 16)]

/-- The text of a string. -/
def quoted (text : String) : List Char := '"' :: text.toList.flatMap escapedChar ++ ['"']

mutual

/-- The text of a value on one line. -/
def compact : Json → List Char
  | null => "null".toList
  | boolean b => (if b then "true" else "false").toList
  | number text => text.toList
  | string text => quoted text
  | malformed => "null".toList
  | array [] => ['[', ']']
  | array (item :: rest) => '[' :: compact item ++ compactItems rest
  | object [] => ['\x7b', '\x7d']
  | object (member :: rest) =>
    '\x7b' :: quoted member.1 ++ ':' :: compact member.2 ++ compactMembers rest

/-- The text of the items after the first, with the closing bracket. -/
def compactItems : List Json → List Char
  | [] => [']']
  | item :: rest => ',' :: compact item ++ compactItems rest

/-- The text of the members after the first, with the closing brace. -/
def compactMembers : List (String × Json) → List Char
  | [] => ['\x7d']
  | (name, value) :: rest => ',' :: quoted name ++ ':' :: compact value ++ compactMembers rest

end

/-- A new line at a level of nesting. -/
def lineBreak (level : Nat) : List Char := '\n' :: List.replicate (2 * level) ' '

mutual

/-- The text of a value on indented lines. -/
def pretty (level : Nat) : Json → List Char
  | null => "null".toList
  | boolean b => (if b then "true" else "false").toList
  | number text => text.toList
  | string text => quoted text
  | malformed => "null".toList
  | array [] => ['[', ']']
  | array (item :: rest) =>
    '[' :: lineBreak (level + 1) ++ pretty (level + 1) item ++ prettyItems level rest
  | object [] => ['\x7b', '\x7d']
  | object (member :: rest) =>
    '\x7b' :: lineBreak (level + 1) ++ quoted member.1 ++ ':' :: ' ' ::
      pretty (level + 1) member.2 ++ prettyMembers level rest

/-- The lines of the items after the first, with the closing bracket. -/
def prettyItems (level : Nat) : List Json → List Char
  | [] => lineBreak level ++ [']']
  | item :: rest =>
    ',' :: lineBreak (level + 1) ++ pretty (level + 1) item ++ prettyItems level rest

/-- The lines of the members after the first, with the closing brace. -/
def prettyMembers (level : Nat) : List (String × Json) → List Char
  | [] => lineBreak level ++ ['\x7d']
  | (name, value) :: rest =>
    ',' :: lineBreak (level + 1) ++ quoted name ++ ':' :: ' ' :: pretty (level + 1) value ++
      prettyMembers level rest

end

/-- The text of a value on one line. -/
def toText (j : Json) : String := String.ofList (compact j)

/-- The text of a value on indented lines. -/
def toPrettyText (j : Json) : String := String.ofList (pretty 0 j)

end Toolpath.Json
