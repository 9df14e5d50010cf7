import FrameLedger.Number.Decimal

/-!
# JSON values

A number is kept as its text, which says whether it is an integer literal and does not round. Fields
of an object keep their order and may repeat.
-/

namespace FrameLedger

inductive Json where
  | null
  | bool (b : Bool)
  | number (text : String)
  | string (s : String)
  | array (elements : List Json)
  | object (fields : List (String × Json))
deriving Inhabited

namespace Json

mutual

/-- How deep arrays and objects are nested. -/
def depth : Json → Nat
  | .array es => depthAll es + 1
  | .object fs => depthFields fs + 1
  | _ => 0

def depthAll : List Json → Nat
  | [] => 0
  | e :: es => max e.depth (depthAll es)

def depthFields : List (String × Json) → Nat
  | [] => 0
  | (_, e) :: fs => max e.depth (depthFields fs)

end

def ofNat (n : Nat) : Json := .number (toString n)

def ofOption {α : Type} (f : α → Json) : Option α → Json
  | none => .null
  | some a => f a

/-- The double nearest to the text of a number. -/
def numberToFloat? (text : String) : Option Float :=
  match text.toList with
  | '-' :: cs => (DecimalText.readUnsigned? true cs).map (·.toDecimal.toFloat)
  | cs => (DecimalText.readUnsigned? false cs).map (·.toDecimal.toFloat)

def float? : Json → Option Float
  | .number text => numberToFloat? text
  | _ => none

/-- An integer literal of 32 bits, without a sign. -/
def word? : Json → Option Nat
  | .number text =>
    let n := Digits.toNat text.toList
    if text.toList.all Char.isDigit && n < Nat.pow 2 32 then some n else none
  | _ => none

def string? : Json → Option String
  | .string s => some s
  | _ => none

def bool? : Json → Option Bool
  | .bool b => some b
  | _ => none

def list? {α : Type} (f : Json → Option α) : Json → Option (List α)
  | .array es => es.mapM f
  | _ => none

/-- Null stands for nothing. -/
def optional? {α : Type} (f : Json → Option α) : Json → Option (Option α)
  | .null => some none
  | j => (f j).map some

/-- The fields of an object that have the given names. -/
def lookup? (fs : List (String × Json)) (name : String) : Option Json :=
  (fs.find? (·.1 == name)).map (·.2)

/-- The values of the named fields. A record is an object, in which none of these fields may repeat
and others are ignored, or an array of exactly these fields. -/
def record? (names : List String) : Json → Option (List (Option Json))
  | .object fs =>
    if names.all fun n => fs.countP (·.1 == n) ≤ 1 then some (names.map (lookup? fs)) else none
  | .array es => if es.length = names.length then some (es.map some) else none
  | _ => none

/-- A case without contents is its name, alone or with null or an empty object. -/
def plainCase? : Json → Option String
  | .string s => some s
  | .object [(k, .null)] => some k
  | .object [(k, .object [])] => some k
  | _ => none

/-- A case with contents is an object of one field. -/
def case? : Json → Option (String × Json)
  | .object [(k, j)] => some (k, j)
  | _ => none

end Json

end FrameLedger
