import FrameLedger.Settings.Reader

/-!
# Loading settings

Settings come from three places: the user's file, over it the nearest project file at or above a
directory, and over both the environment.
-/

namespace FrameLedger

/-- A path from the top of a tree, as its parts. -/
abbrev Path := List String

inductive FileEntry where
  | file (bytes : ByteArray)
  | directory

/-- Files and directories; those on the way to an entry are directories. -/
abbrev FileTree := List (Path × FileEntry)

/-- What a path leads to. -/
inductive Target where
  | file (bytes : ByteArray)
  | directory
  /-- A file stands in the way. -/
  | blocked
  | missing

namespace FileTree

def isFile : FileEntry → Bool
  | .file _ => true
  | .directory => false

def find (t : FileTree) (p : Path) : Target :=
  match t.find? (·.1 == p) with
  | some (_, .file bytes) => .file bytes
  | some (_, .directory) => .directory
  | none =>
    if p.isEmpty || t.any (fun (q, _) => p.isPrefixOf q) then .directory
    else if t.any (fun (q, e) => isFile e && q.isPrefixOf p) then .blocked
    else .missing

def contains (t : FileTree) (p : Path) : Bool :=
  match t.find p with
  | .file _ | .directory => true
  | .blocked | .missing => false

def read (t : FileTree) (p : Path) : Except SettingsError String :=
  match t.find p with
  | .file bytes =>
    match String.fromUTF8? bytes with
    | some s => .ok s
    | none => .error .unreadable
  | .directory | .blocked => .error .unreadable
  | .missing => .error .notFound

end FileTree

/-- What the environment sets. -/
structure Environment where
  stackMode : Option String := none
  recordFileNames : Option String := none
  recordLineNumbers : Option String := none

namespace Environment

def isYes (s : String) : Bool := ["true", "1", "yes"].any (Text.sameWord s ·)

/-- Puts what the environment sets over other settings. -/
def apply (env : Environment) (b : Build) : Build :=
  let b := env.stackMode.elim b (b.select stackModeProperty)
  let b := env.recordFileNames.elim b fun v => b.set recordFileNamesProperty (.bool (isYes v))
  env.recordLineNumbers.elim b fun v => b.set recordLineNumbersProperty (.bool (isYes v))

end Environment

def projectFile : String := "shadowstack.toml"

/-- The user's file below the home directory. -/
def globalPath (home : Path) : Path := home ++ [".shadowstack", "config.toml"]

/-- Where settings are loaded from. -/
structure Loader where
  tree : FileTree
  env : Environment
  globalFile : Path

structure Loaded where
  build : Build
  /-- The directory of the project file. -/
  root : Option Path

namespace Loader

/-- The user's settings, empty without a file. -/
def globalBuild (l : Loader) : Except SettingsError Build := do
  if l.tree.contains l.globalFile then Build.readGlobal (← l.tree.read l.globalFile) else return {}

def assemble (l : Loader) (project : Build) (root : Option Path) : Except SettingsError Loaded := do
  let b := l.env.apply ((← l.globalBuild).merge project)
  b.validate
  return ⟨b, root⟩

def readProject (l : Loader) (p : Path) : Except SettingsError Build := do
  Build.read (← l.tree.read p)

/-- The nearest directory with a project file. The path is given from its last part on. -/
def nearest? (l : Loader) : List String → Option Path
  | [] => if l.tree.contains [projectFile] then some [] else none
  | part :: above =>
    let dir := (part :: above).reverse
    if l.tree.contains (dir ++ [projectFile]) then some dir else nearest? l above

def loadDirectory (l : Loader) (dir : Path) : Except SettingsError Loaded := do
  match l.nearest? dir.reverse with
  | some root => l.assemble (← l.readProject (root ++ [projectFile])) (some root)
  | none => l.assemble {} none

def loadFile (l : Loader) (p : Path) : Except SettingsError Loaded := do
  l.assemble (← l.readProject p) (some p.dropLast)

end Loader

end FrameLedger
