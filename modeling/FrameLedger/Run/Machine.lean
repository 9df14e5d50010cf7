import FrameLedger.Ghost
import FrameLedger.Number.Binary64
import FrameLedger.StackVars
import FrameLedger.Value.Store

/-!
# The machine

What a run changes, and the few ways in which it may: spending steps, touching the store, recording
a snapshot of the kept stack. Evaluation either gives a value or ends abruptly; what has been spent
and written by then stays. All that happens is noted in a trace, which no run looks at and none has
to keep.
-/

namespace FrameLedger

/-- The kept stack at one moment, outermost frame first. -/
structure Snapshot where
  depth : Int
  frames : List String
  locations : List (Option String)
deriving DecidableEq, Inhabited

structure Limits where
  /-- How many statements and calls may run. -/
  steps : Nat := 1000000
  /-- How deep calls may nest. -/
  calls : Nat := 200
deriving DecidableEq, Inhabited

/-- What stays fixed during a run. -/
structure Setting where
  table : ScopeTable
  /-- The stack to take snapshots of. -/
  probe : Option StackVars
  limits : Limits

/-- A statement that transfers control to a place there is none of. -/
inductive Jump where
  | ret
  | breakOrContinue
deriving DecidableEq, Inhabited

def Jump.text : Jump → String
  | .ret => "return"
  | .breakOrContinue => "break or continue"

/-- What ends a run and cannot be caught. -/
inductive Fault where
  | stepLimit (limit : Nat)
  | callDepth (limit : Nat)
  | illegalJump (jump : Jump) (pos : Position)
  | dangling (d : Dangling)
  /-- A snapshot would list more frames than there is room for. -/
  | tooManyFrames (frames : Nat)
deriving DecidableEq, Inhabited

inductive Abrupt where
  | thrown (v : Value) (pos : Position)
  | fault (f : Fault)
deriving DecidableEq, Inhabited

/-- What happens in a run. -/
inductive Event where
  /-- The store became this one. -/
  | store (h : Store)
  /-- An element of an array was written, which gave this store. -/
  | element (h : Store) (r : ArrayRef) (i : Nat) (v : Value)
  /-- Something was thrown. -/
  | threw (h : Store)
  /-- The result of a `return` was computed. -/
  | result (inside : List Event)
  /-- A value was called. -/
  | call (callee : Value) (args : List Value) (before : Store) (inside : List Event)
    (outcome : Except Abrupt Value) (after : Store)

structure Machine where
  store : Store
  steps : Nat
  callDepth : Nat
  snapshots : Array Snapshot
  /-- What has happened so far, in order. -/
  trace : Ghost (List Event)

namespace Machine

/-- Notes something that happens. -/
def log (m : Machine) (e : Event) : Machine := { m with trace := m.trace.map (· ++ [e]) }

def setStore (m : Machine) (h : Store) : Machine := { m with store := h }.log (.store h)

end Machine

abbrev Eval := ExceptT Abrupt (StateM Machine)

namespace Store

def frameName (t : ScopeTable) (h : Store) : Option Value → Except Dangling String
  | some (.function r) =>
    match (h.closure? r).bind (·.func.name) with
    | some s => t.ident s
    | none => .ok "<anonymous>"
  | some (.native k) => .ok k.name
  | _ => .ok "<anonymous>"

/-- The elements of an array; other values have none. -/
def elements? (h : Store) : Option Value → Option (Array Value)
  | some (.array r) => some (h.array r)
  | _ => none

/-- How many frames a snapshot may list: a text takes 24 bytes in a list, and a list takes at most
`2^63 - 1`. It is assumed that there is memory for fewer. -/
def snapshotRoom : Nat := 0x7fffffffffffffff / 24

/-- The frames up to the depth. There is no snapshot while the depth is no number. -/
def snapshot (t : ScopeTable) (h : Store) (p : StackVars) : Except Fault (Option Snapshot) :=
  match h.lookup globals p.depth with
  | some (.number x) => do
    let depth := (Binary64.ofFloat x).clampInt64
    let frames := (depth + 1).toNat
    if snapshotRoom < frames then throw (.tooManyFrames frames)
    let live := List.range frames
    let stack := (h.elements? (h.lookup globals p.stack)).getD #[]
    let locations := (h.elements? (p.location.bind (h.lookup globals))).getD #[]
    let names ← (live.mapM fun i => h.frameName t stack[i]?).mapError .dangling
    return some ⟨depth, names, live.map fun i => (locations[i]?.filter (!·.isNullish)).map h.text⟩
  | _ => .ok none

end Store

namespace Eval

variable {α : Type}

def fault (f : Fault) : Eval α := throw (.fault f)

def ofDangling : Except Dangling α → Eval α
  | .ok a => pure a
  | .error d => fault (.dangling d)

/-- How a computation ends, as a value. -/
def observe (x : Eval α) : Eval (Except Abrupt α) := ExceptT.lift x.run

/-- Ends the way that was observed. -/
def settle : Except Abrupt α → Eval α
  | .ok a => pure a
  | .error e => throw e

def store : Eval Store := return (← get).store

def onStore (f : Store → α × Store) : Eval α :=
  modifyGet fun m =>
    let (a, h) := f m.store
    (a, m.setStore h)

def modifyStore (f : Store → Store) : Eval Unit := modify fun m => m.setStore (f m.store)

/-- Keeps what happens in a computation together as one event. -/
def together (e : Store → List Event → Except Abrupt α → Store → Event) (x : Eval α) : Eval α := do
  let before ← modifyGet fun m => (Ghost.of m, { m with trace := .of [] })
  let outcome ← observe x
  modify fun m => { m with
    trace := before.bind fun b => b.trace.bind fun past =>
      m.trace.map fun inside => past ++ [e b.store inside outcome m.store] }
  settle outcome

/-- Spends steps, also when they are too many. The count has no bound: it is assumed that no run
spends `2^64` steps, so that a counter of 64 bits would do. -/
def charge (c : Setting) (n : Nat) : Eval Unit := do
  modify fun m => { m with steps := m.steps + n }
  if c.limits.steps < (← get).steps then fault (.stepLimit c.limits.steps)

def tick (c : Setting) : Eval Unit := charge c 1

/-- Takes a snapshot where something is thrown. -/
def recordThrow (c : Setting) : Eval Unit := do
  modify fun m => m.log (.threw m.store)
  match c.probe with
  | none => pure ()
  | some p =>
    match (← store).snapshot c.table p with
    | .error f => fault f
    | .ok none => pure ()
    | .ok (some s) => modify fun m => { m with snapshots := m.snapshots.push s }

def raise (c : Setting) (pos : Position) (k : ErrorKind) (message : String) : Eval α := do
  recordThrow c
  let v ← onStore (·.newError k message)
  throw (.thrown v pos)

/-- Throws for a name that nothing is bound to. -/
def raiseUnbound (c : Setting) (pos : Position) (name : String) : Eval α :=
  raise c pos .referenceError (name ++ " is not defined")

def text (v : Value) : Eval String := return (← store).text v

def ident (c : Setting) (s : SymbolId) : Eval String := ofDangling (c.table.ident s)

end Eval

end FrameLedger
