import FrameLedger.Settings.Build
import FrameLedger.Toml.Reader

/-!
# Reading settings

A project's file has a table `configuration` and an array of tables `permutation`; a user's file has
the table only. Either may be missing, and nothing else may be there.
-/

namespace FrameLedger

namespace Toml

def string? : Toml → Option String
  | .string s => some s
  | _ => none

def table? : Toml → Option (List (String × Toml))
  | .table es => some es
  | _ => none

def propertyValue? : Toml → Option PropertyValue
  | .bool b => some (.bool b)
  | .string s => some (.text s)
  | .array es => (es.mapM string?).map .list
  | .table _ => none

/-- A table of values of one kind. -/
def mapOf? {α : Type} (f : Toml → Option α) (t : Toml) : Option (SortedMap String α) := do
  return .ofList (← (← t.table?).mapM fun (k, v) => return (k, ← f v))

def permutations? : Toml → Option (List Permutation)
  | .array es => es.mapM (mapOf? string?)
  | _ => none

/-- The value of a key, or a default if it is missing. -/
def getD? {α : Type} (es : List (String × Toml)) (k : String) (f : Toml → Option α) (default : α) :
    Option α :=
  match es.find? (·.1 == k) with
  | some (_, v) => f v
  | none => some default

end Toml

namespace Build

/-- The settings of a document in which only the given keys occur. -/
def ofToml? (keys : List String) (t : Toml) : Option Build := do
  let es ← t.table?
  if es.all (keys.contains ·.1) then
    return ⟨← Toml.getD? es "configuration" (Toml.mapOf? Toml.propertyValue?) ∅,
      ← Toml.getD? es "permutation" Toml.permutations? []⟩
  else none

def readWith (keys : List String) (text : String) : Except SettingsError Build := do
  match (Toml.parse? text).bind (ofToml? keys) with
  | none => .error .malformed
  | some b =>
    b.validate
    return b

/-- Reads a project's settings. -/
def read (text : String) : Except SettingsError Build :=
  readWith ["configuration", "permutation"] text

/-- Reads a user's settings. -/
def readGlobal (text : String) : Except SettingsError Build := readWith ["configuration"] text

end Build

end FrameLedger
