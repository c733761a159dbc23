import Toolpath.Toml.Lexeme

/-!
# Reading TOML

A document is read line by line into statements. A value may nest arrays, which may run over
lines, and inline tables, which may not; an array may end with a comma, an inline table not. Both
nest only below a limit of depth.
-/

namespace Toolpath.Toml

mutual

/-- A value with at most the given levels of nesting, and the rest. -/
def valueWithin? : Nat → Nat → List Char → Option (Toml × List Char)
  | 0, _, _ => none
  | fuel + 1, levels, cs =>
    match cs with
    | '[' :: rest =>
      if levels = 0 then none
      else (itemsWithin? fuel (levels - 1) rest).map fun (items, rest) => (.array items, rest)
    | '\x7b' :: rest =>
      if levels = 0 then none
      else do
        let (entries, rest) ← entriesWithin? fuel (levels - 1) rest
        let members ← membersOfEntries entries
        return (.table (membersToToml members), rest)
    | 't' :: 'r' :: 'u' :: 'e' :: rest => some (.boolean true, rest)
    | 'f' :: 'a' :: 'l' :: 's' :: 'e' :: rest => some (.boolean false, rest)
    | _ =>
      match string? cs with
      | some (text, rest) => some (.string text, rest)
      | none =>
        match moment? cs with
        | some rest => some (.moment, rest)
        | none => number? cs

/-- The items of an array up to its closing bracket, and the rest. -/
def itemsWithin? : Nat → Nat → List Char → Option (List Toml × List Char)
  | 0, _, _ => none
  | fuel + 1, levels, cs => do
    match ← skipLines (cs.length + 1) cs with
    | ']' :: rest => return ([], rest)
    | start =>
      let (item, rest) ← valueWithin? fuel levels start
      match ← skipLines (rest.length + 1) rest with
      | ']' :: rest => return ([item], rest)
      | ',' :: rest =>
        let (items, rest) ← itemsWithin? fuel levels rest
        return (item :: items, rest)
      | _ => none

/-- The entries of an inline table up to its closing brace, and the rest. -/
def entriesWithin? : Nat → Nat → List Char → Option (List (List String × Toml) × List Char)
  | 0, _, _ => none
  | fuel + 1, levels, cs =>
    match skipBlanks cs with
    | '\x7d' :: rest => some ([], rest)
    | start => moreEntriesWithin? fuel levels start

/-- The first of more entries of an inline table, and what follows up to its closing brace. -/
def moreEntriesWithin? : Nat → Nat → List Char → Option (List (List String × Toml) × List Char)
  | 0, _, _ => none
  | fuel + 1, levels, cs => do
    let (path, rest) ← path? cs
    match rest with
    | '=' :: rest =>
      let (value, rest) ← valueWithin? fuel levels (skipBlanks rest)
      match skipBlanks rest with
      | '\x7d' :: rest => return ([(path, value)], rest)
      | ',' :: rest =>
        let (entries, rest) ← moreEntriesWithin? fuel levels rest
        return ((path, value) :: entries, rest)
      | _ => none
    | _ => none

end

/-- A value, and the rest. -/
def value? (cs : List Char) : Option (Toml × List Char) :=
  valueWithin? (2 * cs.length + 2) (depthLimit - 1) cs

/-- A key, an equals sign and a value, up to the end of the line. -/
def entryLine? (cs : List Char) : Option (Statement × List Char) := do
  let (path, rest) ← path? cs
  match rest with
  | '=' :: rest =>
    let (value, rest) ← value? (skipBlanks rest)
    let rest ← lineEnd? rest
    return (.entry path value, rest)
  | _ => none

/-- A heading, up to the end of the line. -/
def headingLine? (cs : List Char) : Option (Statement × List Char) :=
  match cs with
  | '[' :: '[' :: rest => do
    let (path, rest) ← path? rest
    match rest with
    | ']' :: ']' :: rest =>
      let rest ← lineEnd? rest
      return (.arrayHeading path, rest)
    | _ => none
  | '[' :: rest => do
    let (path, rest) ← path? rest
    match rest with
    | ']' :: rest =>
      let rest ← lineEnd? rest
      return (.heading path, rest)
    | _ => none
  | _ => none

/-- The statements of a text, given more fuel than it has characters. -/
def statementsWithin? : Nat → List Char → Option (List Statement)
  | 0, _ => none
  | fuel + 1, cs =>
    match skipBlanks cs with
    | [] => some []
    | '#' :: rest => (lineEnd? ('#' :: rest)).bind (statementsWithin? fuel)
    | '\n' :: rest => statementsWithin? fuel rest
    | '\r' :: rest => (newline? ('\r' :: rest)).bind (statementsWithin? fuel)
    | '[' :: rest => do
      let (statement, rest) ← headingLine? ('[' :: rest)
      let statements ← statementsWithin? fuel rest
      return statement :: statements
    | start => do
      let (statement, rest) ← entryLine? start
      let statements ← statementsWithin? fuel rest
      return statement :: statements

/-- The statements of a text, behind a byte order mark if there is one. -/
def statements? (cs : List Char) : Option (List Statement) :=
  let cs :=
    match cs with
    | '\ufeff' :: rest => rest
    | _ => cs
  statementsWithin? (cs.length + 1) cs

/-- Read a document. -/
def ofText? (text : String) : Option Toml := (statements? text.toList).bind ofStatements?

end Toolpath.Toml
