import FrameLedger.Run.Machine

/-!
# Properties

Reading, writing and removing what stands behind a key. An array has its indices and its length;
other keys are not stored on it. An index is a key of digits below `2 ^ 32 - 1`, and a write beyond
the end fills the gap with `undefined`, one step a slot.
-/

namespace FrameLedger

/-- The slot a key names. A leading zero names none, except `0` itself; a plus sign may stand in
front. -/
def arrayIndex? (key : String) : Option Nat :=
  match key.toList with
  | [] => none
  | '0' :: _ :: _ => none
  | c :: cs =>
    let digits := if c = '+' then cs else c :: cs
    if digits.isEmpty || !digits.all Char.isDigit then none
    else
      let i := Digits.toNat digits
      if i < Nat.pow 2 32 - 1 then some i else none

/-- The length an array may be given. -/
def arrayLength? (v : Value) : Option Nat :=
  match (Binary64.ofFloat v.toNumber).toInt? with
  | some (.ofNat n) => if n < Nat.pow 2 32 then some n else none
  | _ => none

/-- Cuts an array to a length or fills it up to it. -/
def resize (vs : Array Value) (n : Nat) : Array Value :=
  if n ≤ vs.size then vs.take n else vs ++ Array.replicate (n - vs.size) .undefined

namespace Eval

def getProperty (c : Setting) (pos : Position) (object : Value) (key : String) : Eval Value := do
  match object with
  | .undefined => raise c pos .typeError s!"Cannot read property '{key}' of undefined"
  | .null => raise c pos .typeError s!"Cannot read property '{key}' of null"
  | .array r =>
    let vs := (← store).array r
    if key = "length" then return .number (.ofNat vs.size)
    else return ((arrayIndex? key).bind (vs[·]?)).getD .undefined
  | .string s =>
    if key = "length" then return .number (.ofNat s.length)
    else return ((arrayIndex? key).bind (s.toList[·]?)).elim .undefined (.string ∘ String.singleton)
  | .object r => return ((← store).object r).properties.get? key |>.getD .undefined
  | .native k => return if key = "name" then .string k.name else .undefined
  | _ => return .undefined

/-- Makes room for an array of the given length. -/
def grow (c : Setting) (r : ArrayRef) (n : Nat) : Eval Unit := do
  let size := ((← store).array r).size
  if size < n then charge c (n - size)

def setElement (c : Setting) (r : ArrayRef) (i : Nat) (v : Value) : Eval Unit := do
  grow c r (i + 1)
  modifyStore
    (·.modifyArray r fun vs => (if vs.size ≤ i then resize vs (i + 1) else vs).setIfInBounds i v)
  modify fun m => m.log (.element m.store r i v)

def setLength (c : Setting) (r : ArrayRef) (n : Nat) : Eval Unit := do
  grow c r n
  modifyStore (·.modifyArray r (resize · n))

def setProperty (c : Setting) (pos : Position) (object : Value) (key : String) (v : Value) :
    Eval Unit := do
  match object with
  | .undefined => raise c pos .typeError s!"Cannot set property '{key}' of undefined"
  | .null => raise c pos .typeError s!"Cannot set property '{key}' of null"
  | .array r =>
    if key = "length" then
      match arrayLength? v with
      | some n => setLength c r n
      | none => raise c pos .rangeError ("Invalid array length: " ++ (← text v))
    else
      match arrayIndex? key with
      | some i => setElement c r i v
      | none => pure ()
  | .object r =>
    modifyStore (·.modifyObject r fun o => { o with properties := o.properties.insert key v })
  | _ => pure ()

/-- Removes a property of an object; an array's slot becomes `undefined`. -/
def deleteProperty (object : Value) (key : String) : Eval Unit :=
  match object with
  | .object r =>
    modifyStore (·.modifyObject r fun o => { o with properties := o.properties.erase key })
  | .array r =>
    match arrayIndex? key with
    | some i => modifyStore (·.modifyArray r (·.setIfInBounds i .undefined))
    | none => pure ()
  | _ => pure ()

/-- The keys a loop over a value visits. -/
def keys (v : Value) : Eval (List String) := do
  match v with
  | .object r => return ((← store).object r).properties.keys
  | .array r => return (List.range ((← store).array r).size).map toString
  | _ => return []

end Eval

end FrameLedger
