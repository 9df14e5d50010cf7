import FrameLedger.Number.Decimal
import FrameLedger.Number.Text
import FrameLedger.Text.Blank

/-!
# Values

Arrays, objects and functions are references into the store, so two of them are the same value when
they are the same reference. Conversions that look at no contents are here; a value's text, which
does, is in `FrameLedger.Value.Store`.
-/

namespace FrameLedger

/-- The built-in constructors. Each makes an error object. -/
inductive ErrorKind where
  | error
  | typeError
  | referenceError
  | rangeError
deriving DecidableEq, Inhabited

namespace ErrorKind

def all : List ErrorKind := [.error, .typeError, .referenceError, .rangeError]

def name : ErrorKind → String
  | .error => "Error"
  | .typeError => "TypeError"
  | .referenceError => "ReferenceError"
  | .rangeError => "RangeError"

def ofName? (s : String) : Option ErrorKind := all.find? (·.name == s)

end ErrorKind

structure ArrayRef where
  index : Nat
deriving DecidableEq, Inhabited

structure ObjectRef where
  index : Nat
deriving DecidableEq, Inhabited

structure ClosureRef where
  index : Nat
deriving DecidableEq, Inhabited

inductive Value where
  | undefined
  | null
  | bool (b : Bool)
  | number (x : Float)
  | string (s : String)
  | array (r : ArrayRef)
  | object (r : ObjectRef)
  | function (r : ClosureRef)
  | native (k : ErrorKind)
deriving DecidableEq, Inhabited

namespace Value

def isNullish : Value → Bool
  | .undefined | .null => true
  | _ => false

def isCallable : Value → Bool
  | .function _ | .native _ => true
  | _ => false

def isTruthy : Value → Bool
  | .undefined | .null => false
  | .bool b => b
  | .number x => x != 0 && !x.isNaN
  | .string s => !s.isEmpty
  | _ => true

def typeOf : Value → String
  | .undefined => "undefined"
  | .null | .array _ | .object _ => "object"
  | .bool _ => "boolean"
  | .number _ => "number"
  | .string _ => "string"
  | .function _ | .native _ => "function"

def nan : Float := 0.0 / 0.0

def toNumber : Value → Float
  | .null => 0
  | .bool b => if b then 1 else 0
  | .number x => x
  | .string s =>
    let s := Text.trim s
    if s.isEmpty then 0 else (readFloat? s).getD nan
  | _ => nan

/-- `===`, where a number that is none differs from itself. -/
def strictEquals : Value → Value → Bool
  | .undefined, .undefined | .null, .null => true
  | .bool a, .bool b => a == b
  | .number x, .number y => x == y
  | .string s, .string s' => s == s'
  | .array r, .array r' => r == r'
  | .object r, .object r' => r == r'
  | .function r, .function r' => r == r'
  | .native k, .native k' => k == k'
  | _, _ => false

/-- `==`: a boolean, and a number beside a string, compare as numbers. -/
def looseEquals (a b : Value) : Bool :=
  if a.isNullish || b.isNullish then a.isNullish && b.isNullish
  else
    match a, b with
    | .number _, .string _ | .string _, .number _ | .bool _, _ | _, .bool _ =>
      a.toNumber == b.toNumber
    | _, _ => a.strictEquals b

end Value

end FrameLedger
