import Toolpath.Number.Shortest

/-!
# TOML documents

A document is a list of statements: table headings and entries, each with a path of keys. The
statements build a table step by step. A table is implied when a longer path mentions it, and
dotted when an entry does; a heading may make an implied table explicit once, and nothing may be
given twice.
-/

namespace Toolpath

/-- A TOML value. -/
inductive Toml where
  | string (text : String)
  | integer (n : Int)
  | real (x : Float)
  | boolean (b : Bool)
  /-- A date or a time of day. -/
  | moment
  | array (items : List Toml)
  | table (members : List (String × Toml))

namespace Toml

/-- One statement of a document. -/
inductive Statement where
  /-- The heading of a table. -/
  | heading (path : List String)
  /-- The heading of one more table in an array of tables. -/
  | arrayHeading (path : List String)
  /-- A key and its value, in the table of the last heading. -/
  | entry (path : List String) (value : Toml)

/-- Named values. -/
abbrev Entries := List (String × Toml)

/-- The statements of named sections. -/
def sectionStatements (sections : List (String × Entries)) : List Statement :=
  sections.flatMap fun (name, entries) =>
    .heading [name] :: entries.map fun (key, value) => .entry [key] value

/-! ## Tables under construction -/

/-- A member of a table under construction. -/
inductive Node where
  | value (v : Toml)
  | table (implied dotted : Bool) (members : List (String × Node))
  /-- An array of tables, the last one first. -/
  | tables (latestFirst : List (List (String × Node)))

/-- The members of a table under construction. -/
abbrev Members := List (String × Node)

/-- The member with a key. -/
def Members.get? (members : Members) (key : String) : Option Node := members.lookup key

/-- Put a member in the place of the one with its key, or behind the others. -/
def Members.set (members : Members) (key : String) (node : Node) : Members :=
  if (members.get? key).isSome then
    members.map fun member => if member.1 = key then (key, node) else member
  else members ++ [(key, node)]

/-- Change the table at a path; tables on the way are implied where they are missing. The change
is told whether the table is dotted. A dotted path may not lead into a table that was made
explicit; no path leads into a value. -/
def changeAt (dotted : Bool) (change : Bool → Members → Option Members) :
    List String → Bool → Members → Option Members
  | [], isDotted, members => change isDotted members
  | key :: path, _, members =>
    match members.get? key with
    | none => do
      let inner ← changeAt dotted change path dotted []
      return members.set key (.table true dotted inner)
    | some (.value _) => none
    | some (.table implied isDotted inner) =>
      if dotted ∧ ¬ implied then none
      else do
        let inner ← changeAt dotted change path isDotted inner
        return members.set key (.table implied isDotted inner)
    | some (.tables []) => none
    | some (.tables (latest :: earlier)) => do
      let latest ← changeAt dotted change path false latest
      return members.set key (.tables (latest :: earlier))

/-- Add an entry to a table. -/
def addEntry (path : List String) (value : Toml) (members : Members) : Option Members :=
  match path.getLast? with
  | none => none
  | some key =>
    let way := path.dropLast
    changeAt true
      (fun isDotted members =>
        if isDotted = way.isEmpty then none
        else if (members.get? key).isSome then none
        else some (members.set key (.value value)))
      way false members

/-- The table of an entry list; no key may be given twice. -/
def membersOfEntries (entries : List (List String × Toml)) : Option Members :=
  entries.foldlM (fun members entry => addEntry entry.1 entry.2 members) []

mutual

/-- The value of a member. -/
def Node.toToml : Node → Toml
  | .value v => v
  | .table _ _ members => .table (membersToToml members)
  | .tables latestFirst => .array (tablesToToml latestFirst).reverse

/-- The members of a finished table. -/
def membersToToml : List (String × Node) → List (String × Toml)
  | [] => []
  | (key, node) :: rest => (key, node.toToml) :: membersToToml rest

/-- The tables of an array. -/
def tablesToToml : List (List (String × Node)) → List Toml
  | [] => []
  | members :: rest => .table (membersToToml members) :: tablesToToml rest

end

/-! ## Documents -/

/-- The table of the last heading, kept apart until the next one. -/
structure OpenTable where
  path : List String
  isItem : Bool
  members : Members

/-- Put a finished table in its place. -/
def closeTable (root : Members) (t : OpenTable) : Option Members :=
  match t.path.getLast? with
  | none => some t.members
  | some key =>
    changeAt false
      (fun _ members =>
        let table := Node.table false false t.members
        match members.get? key with
        | none => some (members.set key (if t.isItem then .tables [t.members] else table))
        | some (.tables latestFirst) =>
          if t.isItem then some (members.set key (.tables (t.members :: latestFirst))) else none
        | some (.table true _ _) => if t.isItem then none else some (members.set key table)
        | some _ => none)
      t.path.dropLast false root

/-- Look at the member at a path, with the tables on the way implied. -/
def memberAt? (path : List String) (root : Members) : Option (Members × Option Node) :=
  match path.getLast? with
  | none => none
  | some key => do
    let root ← changeAt false (fun _ members => some members) path.dropLast false root
    let found ← findIn path.dropLast root
    return (root, found.get? key)
where
  /-- The table at a path. -/
  findIn : List String → Members → Option Members
    | [], members => some members
    | key :: path, members =>
      match members.get? key with
      | some (.table _ _ inner) => findIn path inner
      | some (.tables (latest :: _)) => findIn path latest
      | _ => none

/-- Carry out one statement. -/
def applyStatement (state : Members × OpenTable) (s : Statement) :
    Option (Members × OpenTable) := do
  let (root, current) := state
  match s with
  | .entry path value =>
    let members ← addEntry path value current.members
    return (root, { current with members })
  | .heading path =>
    let root ← closeTable root current
    let (root, found) ← memberAt? path root
    match found with
    | none => return (root, ⟨path, false, []⟩)
    | some (.table true false members) => return (root, ⟨path, false, members⟩)
    | some _ => none
  | .arrayHeading path =>
    let root ← closeTable root current
    let (root, found) ← memberAt? path root
    match found with
    | none => return (root, ⟨path, true, []⟩)
    | some (.tables _) => return (root, ⟨path, true, []⟩)
    | some _ => none

/-- The table of a document. -/
def ofStatements? (statements : List Statement) : Option Toml := do
  let (root, current) ← statements.foldlM applyStatement ([], ⟨[], false, []⟩)
  let root ← closeTable root current
  return .table (membersToToml root)

end Toml

end Toolpath
