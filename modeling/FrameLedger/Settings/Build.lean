import FrameLedger.Emulation.Mode

/-!
# Build settings

Configuration properties shared by a whole build, and the permutations it is compiled in, each with
a value for its selection properties.
-/

namespace FrameLedger

inductive PropertyValue where
  | bool (b : Bool)
  | text (s : String)
  | list (items : List String)
deriving DecidableEq, Inhabited

def PropertyValue.values : PropertyValue → List String
  | .bool b => [if b then "true" else "false"]
  | .text s => [s]
  | .list items => items

abbrev Permutation := SortedMap String String

structure Build where
  configuration : SortedMap String PropertyValue := ∅
  permutations : List Permutation := []
deriving DecidableEq, Inhabited

/-- Why there are no settings. -/
inductive SettingsError where
  | notFound
  | unreadable
  | malformed
  | invalid (field reason : String)
deriving DecidableEq, Inhabited

def SettingsError.message : SettingsError → String
  | .notFound => "Configuration file not found"
  | .unreadable => "Failed to read configuration file"
  | .malformed => "Invalid TOML syntax"
  | .invalid field reason => "Invalid value for '" ++ field ++ "': " ++ reason

namespace Build

def isBoolean (s : String) : Bool := Text.sameWord s "true" || Text.sameWord s "false"

/-- The words for a stack mode that settings may use, in lower case. -/
def modeValues : List String := ["strip", "native", "emulated"]

/-- The complaint about the stack mode of the permutation at an index. -/
def modeError? (index : Nat) (p : Permutation) : Option SettingsError := do
  let mode ← p.get? stackModeProperty
  if modeValues.any (Text.sameWord mode) then none
  else
    some (.invalid ("permutation[" ++ toString index ++ "]." ++ stackModeProperty)
      ("'" ++ mode ++ "' is not one of " ++ ", ".intercalate modeValues))

/-- The complaint about a recording flag. -/
def flagError? (b : Build) (name : String) : Option SettingsError := do
  match (← b.configuration.get? name).values with
  | [] => some (.invalid name "expected at least one value")
  | vs => (vs.find? (!isBoolean ·)).map fun v => .invalid name ("'" ++ v ++ "' is not a boolean")

/-- The first complaint. Permutations come before flags. -/
def error? (b : Build) : Option SettingsError :=
  (b.permutations.zipIdx.findSome? fun (p, i) => modeError? i p)
    <|> b.flagError? recordFileNamesProperty <|> b.flagError? recordLineNumbersProperty

def validate (b : Build) : Except SettingsError Unit :=
  match b.error? with
  | some e => .error e
  | none => .ok ()

/-- The configuration of `other` goes over that of `b` key by key; its permutations replace those of
`b` if it has any. -/
def merge (b other : Build) : Build where
  configuration := b.configuration.insertMany other.configuration.entries
  permutations := if other.permutations.isEmpty then b.permutations else other.permutations

def set (b : Build) (name : String) (v : PropertyValue) : Build :=
  { b with configuration := b.configuration.insert name v }

/-- Selects a value in every permutation, or in a new one if there is none. -/
def select (b : Build) (name value : String) : Build :=
  let ps := if b.permutations.isEmpty then [∅] else b.permutations
  { b with permutations := ps.map (·.insert name value) }

def properties (b : Build) : List Properties :=
  b.permutations.map fun p => ⟨p, b.configuration.map PropertyValue.values⟩

end Build

end FrameLedger
