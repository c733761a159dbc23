import Toolpath.File

/-!
# A store of files

A store holds files and directories by their places below the root. A path is followed step by
step, from the root or from the working directory: each step must start in a directory, an empty
step or a single point stays there, two points lead one directory up, and a name leads to what is
there under it. So a path that ends with a slash or a point leads to a directory or nowhere.
-/

namespace Toolpath

/-- A place in a store: the names on the way from the root. -/
abbrev Place := List String

/-- Files and directories by their places. A directory is there as well when something lies in it
or when it is on the way to the working directory. -/
structure FileStore where
  files : List (Place × FileContent)
  directories : List Place
  workingDirectory : Place

namespace FileStore

/-- The greatest length of a name, in bytes. -/
def nameLimit : Nat := 255

/-- No path is as long as this, in bytes. -/
def pathLimit : Nat := 4096

/-- The content of a file. -/
def content? (store : FileStore) (place : Place) : Option FileContent :=
  store.files.lookup place

/-- Whether a directory is at a place. -/
def isDirectory (store : FileStore) (place : Place) : Bool :=
  place.isPrefixOf store.workingDirectory || store.directories.any (place.isPrefixOf ·) ||
    store.files.any fun file => place.isPrefixOf file.1 && file.1 ≠ place

/-- Whether a file or a directory is at a place. -/
def holds (store : FileStore) (place : Place) : Bool :=
  store.isDirectory place || (store.content? place).isSome

/-! ## Following a path -/

/-- Refuse what cannot be a path at all. -/
def checkPath (path : String) : Except FileFault Unit :=
  if path.toList.contains (Char.ofNat 0) then .error .zeroCharacter
  else if path = "" then .error .missing
  else if pathLimit ≤ path.utf8ByteSize then .error .nameTooLong
  else .ok ()

/-- The place where a path starts. -/
def start (store : FileStore) (path : String) : Place :=
  if isRooted path then [] else store.workingDirectory

/-- The place under a name in a directory, which may be free. -/
def below (store : FileStore) (place : Place) (name : String) : Except FileFault Place :=
  if ¬ store.isDirectory place then .error .notDirectory
  else if nameLimit < name.utf8ByteSize then .error .nameTooLong
  else .ok (place ++ [name])

/-- One step of a path. -/
def step (store : FileStore) (place : Place) (name : String) : Except FileFault Place := do
  let next ← store.below place name
  if name = "" ∨ name = "." then return place
  else if name = ".." then return place.dropLast
  else if store.holds next then return next
  else .error .missing

/-- The place that a path leads to. -/
def locate (store : FileStore) (path : String) : Except FileFault Place := do
  checkPath path
  (pathSteps path).foldlM store.step (store.start path)

/-- The place where a file can be written: a name in a directory, without a slash behind it. -/
def target (store : FileStore) (path : String) : Except FileFault Place := do
  checkPath path
  let steps := pathSteps path
  let named := (steps.reverse.dropWhile (· = "")).reverse
  let directory ← named.dropLast.foldlM store.step (store.start path)
  let name := named.getLast?.getD "."
  if store.isDirectory directory ∧ (named ≠ steps ∨ name = "." ∨ name = "..") then
    .error .isDirectory
  else
    let place ← store.below directory name
    if store.isDirectory place then .error .isDirectory else return place

/-! ## Actions -/

/-- Read a file. -/
def read (store : FileStore) (path : String) : Except FileFault FileContent := do
  let place ← store.locate path
  match store.content? place with
  | some content => return content
  | none => .error .isDirectory

/-- Write a file in a directory that is there. -/
def write (store : FileStore) (path : String) (content : FileContent) :
    Except FileFault FileStore := do
  let place ← store.target path
  return { store with files := (place, content) :: store.files.filter (·.1 ≠ place) }

/-- Whether a path leads to a file or directory. -/
def exists? (store : FileStore) (path : String) : Bool := (store.locate path).isOk

/-- One step of a path, to a directory that is made where nothing is. -/
def stepMaking (state : FileStore × Place) (name : String) :
    Except FileFault (FileStore × Place) :=
  let (store, place) := state
  match store.step place name with
  | .ok next => .ok (store, next)
  | .error .missing =>
    let next := place ++ [name]
    .ok ({ store with directories := next :: store.directories }, next)
  | .error fault => .error fault

/-- Make a directory and those it lies in. -/
def makeDirectories (store : FileStore) (path : String) : Except FileFault FileStore :=
  if path = "" then .ok store
  else do
    checkPath path
    let (store, place) ← (pathSteps path).foldlM stepMaking (store, store.start path)
    if store.isDirectory place then return store else .error .alreadyThere

end FileStore

instance : FileAccess (StateM FileStore) where
  read path := do return (← get).read path
  write path content := do
    match (← get).write path content with
    | .ok store => set store; return .ok ()
    | .error fault => return .error fault
  exists? path := do return (← get).exists? path
  makeDirectories path := do
    match (← get).makeDirectories path with
    | .ok store => set store; return .ok ()
    | .error fault => return .error fault

end Toolpath
