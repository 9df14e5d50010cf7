import FrameLedger.SortedMap
import FrameLedger.Tree.Basic
import FrameLedger.Value.Basic

/-!
# The store

Everything references lead to: the contents of arrays and objects, the closures behind functions,
and the frames of bindings that make up environments. A frame has a parent made before it, so a
chain of frames is no longer than the index it starts from.
-/

namespace FrameLedger

structure FrameId where
  index : Nat
deriving DecidableEq, Inhabited

structure Closure where
  func : Func
  env : FrameId

structure Object where
  properties : SortedMap String Value
  /-- What made the object, for `instanceof`. -/
  ctor : Option Value
deriving DecidableEq, Inhabited

/-- The bindings of one frame; a symbol is bound at most once. -/
abbrev Bindings := List (SymbolId × Value)

namespace Bindings

def get? (s : SymbolId) : Bindings → Option Value
  | [] => none
  | (s', v) :: rest => if s' = s then some v else get? s rest

/-- Binds a symbol, in place of its binding if it has one. -/
def put (s : SymbolId) (v : Value) : Bindings → Bindings
  | [] => [(s, v)]
  | (s', v') :: rest => if s' = s then (s, v) :: rest else (s', v') :: put s v rest

end Bindings

structure Frame where
  bindings : Bindings
  parent : Option FrameId
deriving DecidableEq, Inhabited

structure Store where
  arrays : Array (Array Value)
  objects : Array Object
  closures : Array Closure
  frames : Array Frame

namespace Store

def globals : FrameId := ⟨0⟩

/-- Nothing but an empty global frame. -/
def empty : Store := ⟨#[], #[], #[], #[⟨[], none⟩]⟩

/-! ## Environments -/

def bindings (h : Store) (f : FrameId) : Bindings := ((h.frames[f.index]?).map (·.bindings)).getD []

def parent? (h : Store) (f : FrameId) : Option FrameId := (h.frames[f.index]?).bind (·.parent)

def newFrame (h : Store) (parent : FrameId) : FrameId × Store :=
  (⟨h.frames.size⟩, { h with frames := h.frames.push ⟨[], some parent⟩ })

/-- Binds a symbol in this frame. -/
def define (h : Store) (f : FrameId) (s : SymbolId) (v : Value) : Store :=
  { h with
    frames := h.frames.modify f.index fun fr =>
      { fr with bindings := Bindings.put s v fr.bindings } }

/-- Binds a symbol to `undefined` unless this frame has it. -/
def declare (h : Store) (f : FrameId) (s : SymbolId) : Store :=
  if (Bindings.get? s (h.bindings f)).isSome then h else h.define f s .undefined

def ownerWithin (h : Store) (s : SymbolId) : Nat → FrameId → Option FrameId
  | 0, _ => none
  | fuel + 1, f =>
    if (Bindings.get? s (h.bindings f)).isSome then some f
    else (h.parent? f).bind (ownerWithin h s fuel)

/-- The nearest frame that binds a symbol. -/
def owner? (h : Store) (f : FrameId) (s : SymbolId) : Option FrameId :=
  h.ownerWithin s (f.index + 1) f

def lookup (h : Store) (f : FrameId) (s : SymbolId) : Option Value :=
  (h.owner? f s).bind fun f => Bindings.get? s (h.bindings f)

/-- Changes the nearest binding; `none` when there is none. -/
def assign? (h : Store) (f : FrameId) (s : SymbolId) (v : Value) : Option Store :=
  (h.owner? f s).map fun f => h.define f s v

/-! ## Contents -/

def array (h : Store) (r : ArrayRef) : Array Value := (h.arrays[r.index]?).getD #[]

def object (h : Store) (r : ObjectRef) : Object := (h.objects[r.index]?).getD ⟨∅, none⟩

def closure? (h : Store) (r : ClosureRef) : Option Closure := h.closures[r.index]?

def newArray (h : Store) (vs : Array Value) : Value × Store :=
  (.array ⟨h.arrays.size⟩, { h with arrays := h.arrays.push vs })

def newObject (h : Store) (o : Object) : Value × Store :=
  (.object ⟨h.objects.size⟩, { h with objects := h.objects.push o })

def newClosure (h : Store) (c : Closure) : Value × Store :=
  (.function ⟨h.closures.size⟩, { h with closures := h.closures.push c })

/-- The object a built-in constructor makes. -/
def newError (h : Store) (k : ErrorKind) (message : String) : Value × Store :=
  h.newObject ⟨.ofList [("name", .string k.name), ("message", .string message)], some (.native k)⟩

/-- Whether a reference leads somewhere; other values need not. -/
def holds (h : Store) : Value → Bool
  | .array r => r.index < h.arrays.size
  | .object r => r.index < h.objects.size
  | .function r => r.index < h.closures.size
  | _ => true

def modifyArray (h : Store) (r : ArrayRef) (f : Array Value → Array Value) : Store :=
  { h with arrays := h.arrays.modify r.index f }

def modifyObject (h : Store) (r : ObjectRef) (f : Object → Object) : Store :=
  { h with objects := h.objects.modify r.index f }

/-! ## Text -/

/-- The text of a value. An array joins the texts of its elements, an object with a name and a
message shows both. `path` holds what is being written: a value met again inside itself has no
text. -/
def textWithin (h : Store) : Nat → List Value → Value → String
  | 0, _, _ => ""
  | fuel + 1, path, v =>
    match v with
    | .undefined => "undefined"
    | .null => "null"
    | .bool b => if b then "true" else "false"
    | .number x => displayNumber x
    | .string s => s
    | .array r =>
      if path.contains v then ""
      else
        ",".intercalate <| (h.array r).toList.map fun w =>
          if w.isNullish then "" else textWithin h fuel (v :: path) w
    | .object r =>
      if path.contains v then ""
      else
        let ps := (h.object r).properties
        match ps.get? "name", ps.get? "message" with
        | some name, some message =>
          textWithin h fuel (v :: path) name ++ ": " ++ textWithin h fuel (v :: path) message
        | _, _ => "[object Object]"
    | .function _ => "function"
    | .native k => "function " ++ k.name

/-- A path holds each array and object at most once, so the fuel suffices. -/
def text (h : Store) (v : Value) : String := h.textWithin (h.arrays.size + h.objects.size + 1) [] v

end Store

/-- A value written down as a tree, before it is put into a store. Its leaves may be values of that
store: what a variable holds, what a call has given, or what is found in arrays and objects. -/
inductive Datum where
  | undefined
  | null
  | bool (b : Bool)
  | number (x : Float)
  | string (s : String)
  | array (elements : List Datum)
  | object (properties : List (String × Datum)) (ctor : Option Datum)
  | error (k : ErrorKind) (message : String)
  | native (k : ErrorKind)
  | held (v : Value)

mutual

def Datum.alloc : Datum → Store → Value × Store
  | .undefined, h => (.undefined, h)
  | .null, h => (.null, h)
  | .bool b, h => (.bool b, h)
  | .number x, h => (.number x, h)
  | .string s, h => (.string s, h)
  | .array ds, h =>
    let (vs, h) := allocAll ds h
    h.newArray vs.toArray
  | .object ps ctor, h =>
    let (ps, h) := allocProperties ps h
    let (ctor, h) := allocOption ctor h
    h.newObject ⟨.ofList ps, ctor⟩
  | .error k message, h => h.newError k message
  | .native k, h => (.native k, h)
  | .held v, h => (if h.holds v then v else .undefined, h)

def allocAll : List Datum → Store → List Value × Store
  | [], h => ([], h)
  | d :: ds, h =>
    let (v, h) := d.alloc h
    let (vs, h) := allocAll ds h
    (v :: vs, h)

def allocProperties : List (String × Datum) → Store → List (String × Value) × Store
  | [], h => ([], h)
  | (k, d) :: ps, h =>
    let (v, h) := d.alloc h
    let (vs, h) := allocProperties ps h
    ((k, v) :: vs, h)

def allocOption : Option Datum → Store → Option Value × Store
  | none, h => (none, h)
  | some d, h =>
    let (v, h) := d.alloc h
    (some v, h)

end

end FrameLedger
