import FrameLedger.Settings.Properties
import FrameLedger.Text.Blank

/-!
# Stack modes

Which kind of stack traces a build wants, agreed on by all its permutations, and what its frames
record.
-/

namespace FrameLedger

inductive StackMode where
  | strip
  | native
  | emulated
deriving DecidableEq, Inhabited

namespace StackMode

def all : List StackMode := [.strip, .native, .emulated]

def text : StackMode → String
  | .strip => "strip"
  | .native => "native"
  | .emulated => "emulated"

/-- The mode of a word in any case. -/
def ofText? (s : String) : Option StackMode := all.find? fun m => Text.sameWord s m.text

end StackMode

/-- Why permutations have no common mode. -/
inductive ModeError where
  | noPermutations
  | missing
  | invalid (value : String)
  | inconsistent (first other : String)
deriving DecidableEq, Inhabited

def ModeError.message : ModeError → String
  | .noPermutations => "no permutations to resolve the stack mode for"
  | .missing => "expected property " ++ stackModeProperty ++ " not defined"
  | .invalid v =>
    "invalid value '" ++ v ++ "' for " ++ stackModeProperty ++
      "; expected strip, native or emulated"
  | .inconsistent a b =>
    stackModeProperty ++ " has multiple values: '" ++ a ++ "' and '" ++ b ++ "'"

def StackMode.parse (s : String) : Except ModeError StackMode :=
  match ofText? s with
  | some m => .ok m
  | none => .error (.invalid s)

def Properties.stackMode? (p : Properties) : Option String := p.selection.get? stackModeProperty

/-- The mode all permutations share. The first one has to name it; the others may leave it out, but
what they name has to be the same word. -/
def StackMode.resolve : List Properties → Except ModeError StackMode
  | [] => .error .noPermutations
  | p :: ps => do
    let some value := p.stackMode? | .error .missing
    let mode ← StackMode.parse value
    match (ps.filterMap Properties.stackMode?).find? (· != value) with
    | some other => .error (.inconsistent value other)
    | none => .ok mode

/-- What a frame records about where it is. -/
inductive Recording where
  | none
  | lines
  | filesAndLines
deriving DecidableEq, Inhabited

namespace Recording

/-- File names are not recorded without lines. -/
def ofFlags (files lines : Bool) : Recording :=
  if files then .filesAndLines else if lines then .lines else .none

def hasFiles : Recording → Bool
  | .filesAndLines => true
  | _ => false

def hasLines : Recording → Bool
  | .none => false
  | _ => true

end Recording

namespace Properties

/-- The first value of a configuration property. -/
def flag? (p : Properties) (name : String) : Option String :=
  (p.configuration.get? name).bind List.head?

def isSet (p : Properties) (name : String) : Bool := (p.flag? name).any (Text.sameWord · "true")

def recording (p : Properties) : Recording :=
  .ofFlags (p.isSet recordFileNamesProperty) (p.isSet recordLineNumbersProperty)

/-- The recording flags that have no value and count as false. -/
def missingFlags (p : Properties) : List String :=
  [recordFileNamesProperty, recordLineNumbersProperty].filter fun name => (p.flag? name).isNone

end Properties

end FrameLedger
