/-!
# TOML documents

The values that settings are made of, and the tree that the lines of a document build up. A table
may be opened by a header, come into being as part of a longer header, or be made by dotted keys;
the way it came about decides how it may be added to.
-/

namespace FrameLedger

/-- A value. Numbers and dates have no place in settings. -/
inductive Toml where
  | bool (b : Bool)
  | string (s : String)
  | array (elements : List Toml)
  | table (entries : List (String × Toml))
deriving Inhabited

namespace Toml

/-- How a table came about. -/
inductive Origin where
  | header
  | longerHeader
  | dottedKey
deriving DecidableEq, Inhabited

/-- A part of a document that is being built. -/
inductive Item where
  | value (v : Toml)
  | table (origin : Origin) (entries : List (String × Item))
  /-- Tables that share a header, newest first. -/
  | tables (elements : List (List (String × Item)))

abbrev Entries := List (String × Item)

/-- Changes what stands under a key, or adds it. -/
def Entries.update (k : String) (f : Option Item → Option Item) : Entries → Option Entries
  | [] => (f none).map fun i => [(k, i)]
  | (k', i) :: es =>
    if k' = k then (f (some i)).map fun i => (k, i) :: es else (update k f es).map ((k', i) :: ·)

/-- Changes the table a header's path leads to. In an array of tables it leads on to the newest
one. -/
def Entries.atPath (f : Entries → Option Entries) : List String → Entries → Option Entries
  | [], es => f es
  | k :: ks, es =>
    es.update k fun
      | none => (atPath f ks []).map (.table .longerHeader)
      | some (.table o sub) => (atPath f ks sub).map (.table o)
      | some (.tables (e :: older)) => (atPath f ks e).map fun e => .tables (e :: older)
      | _ => none

/-- A table is opened once. -/
def Entries.openTable (k : String) : Entries → Option Entries :=
  Entries.update k fun
    | none => some (.table .header [])
    | some (.table .longerHeader es) => some (.table .header es)
    | _ => none

def Entries.openElement (k : String) : Entries → Option Entries :=
  Entries.update k fun
    | none => some (.tables [[]])
    | some (.tables es) => some (.tables ([] :: es))
    | _ => none

/-- Enters a value under a dotted key. Only tables made by dotted keys are added to in this way. -/
def Entries.put (v : Toml) : List String → Entries → Option Entries
  | [], _ => none
  | [k], es =>
    es.update k fun
      | none => some (.value v)
      | some _ => none
  | k :: ks, es =>
    es.update k fun
      | none => (put v ks []).map (.table .dottedKey)
      | some (.table .dottedKey sub) => (put v ks sub).map (.table .dottedKey)
      | _ => none

mutual

def Item.freeze : Item → Toml
  | .value v => v
  | .table _ es => .table (freezeEntries es)
  | .tables ts => .array (freezeAll ts).reverse

def freezeEntries : Entries → List (String × Toml)
  | [] => []
  | (k, i) :: es => (k, i.freeze) :: freezeEntries es

def freezeAll : List Entries → List Toml
  | [] => []
  | es :: rest => .table (freezeEntries es) :: freezeAll rest

end

/-- One line of a document. -/
inductive Line where
  | pair (path : List String) (v : Toml)
  | table (path : List String)
  | element (path : List String)

/-- A document so far, and the path of the table that pairs go to. -/
structure Draft where
  entries : Entries
  current : List String

def Draft.add (d : Draft) : Line → Option Draft
  | .pair path v => do return { d with entries := ← d.entries.atPath (·.put v path) d.current }
  | .table path => do
    return ⟨← d.entries.atPath (·.openTable (path.getLastD "")) path.dropLast, path⟩
  | .element path => do
    return ⟨← d.entries.atPath (·.openElement (path.getLastD "")) path.dropLast, path⟩

/-- The table a document stands for. -/
def ofLines? (lines : List Line) : Option Toml := do
  let d ← lines.foldlM Draft.add ⟨[], []⟩
  return .table (freezeEntries d.entries)

end Toml

end FrameLedger
