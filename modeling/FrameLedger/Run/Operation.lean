import FrameLedger.Run.Property

/-!
# Operations on values

What eager operators do with the values of their operands, and what a built-in constructor makes of
its arguments.
-/

namespace FrameLedger

namespace Value

/-- Values that `+` joins as texts. -/
def isTextual : Value → Bool
  | .string _ | .array _ | .object _ => true
  | _ => false

end Value

def Comparison.strings : Comparison → String → String → Bool
  | .lt, a, b => decide (a < b)
  | .le, a, b => !decide (b < a)
  | .gt, a, b => decide (b < a)
  | .ge, a, b => !decide (a < b)

def Comparison.numbers : Comparison → Float → Float → Bool
  | .lt, x, y => x < y
  | .le, x, y => x ≤ y
  | .gt, x, y => x > y
  | .ge, x, y => x ≥ y

/-- Two strings compare by their characters, all else as numbers. -/
def Comparison.holds (c : Comparison) : Value → Value → Bool
  | .string a, .string b => c.strings a b
  | l, r => c.numbers l.toNumber r.toNumber

/-- Whether an object was made by a constructor; every built-in one makes an `Error` as well. -/
def Store.instanceOf (h : Store) (v ctor : Value) : Bool :=
  match v with
  | .object r =>
    match (h.object r).ctor, ctor with
    | some (.native _), .native .error => true
    | some own, ctor => own.strictEquals ctor
    | none, _ => false
  | _ => false

namespace Eval

def arithmetic (op : ArithOp) (l r : Value) : Eval Value := do
  match op with
  | .add =>
    if l.isTextual || r.isTextual then return .string ((← text l) ++ (← text r))
    else return .number (l.toNumber + r.toNumber)
  | .sub => return .number (l.toNumber - r.toNumber)
  | .mul => return .number (l.toNumber * r.toNumber)
  | .div => return .number (l.toNumber / r.toNumber)
  | .mod => return .number (remainder l.toNumber r.toNumber)

def hasProperty (c : Setting) (pos : Position) (key : String) (object : Value) : Eval Bool := do
  match object with
  | .object r => return ((← store).object r).properties.contains key
  | .array r =>
    let size := ((← store).array r).size
    return key = "length" || (arrayIndex? key).any (· < size)
  | _ => raise c pos .typeError s!"Cannot use 'in' operator to search for '{key}'"

def operate (c : Setting) (pos : Position) (op : EagerOp) (l r : Value) : Eval Value := do
  match op with
  | .eq => return .bool (l.looseEquals r)
  | .notEq => return .bool !(l.looseEquals r)
  | .strictEq => return .bool (l.strictEquals r)
  | .strictNotEq => return .bool !(l.strictEquals r)
  | .compare cmp => return .bool (cmp.holds l r)
  | .instanceOf =>
    if r.isCallable then return .bool ((← store).instanceOf l r)
    else raise c pos .typeError "Right-hand side of 'instanceof' is not callable"
  | .member => return .bool (← hasProperty c pos (← text l) r)
  | .arith op => arithmetic op l r

/-- An error object whose message is the text of the first argument. -/
def makeError (k : ErrorKind) (args : List Value) : Eval Value := do
  let message ← match args.head? with
    | none | some .undefined => pure ""
    | some v => text v
  onStore (·.newError k message)

end Eval

end FrameLedger
