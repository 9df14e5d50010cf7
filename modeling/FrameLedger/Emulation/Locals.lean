import FrameLedger.StackVars

/-!
# Locals of a frame

The variables a function needs to keep its frame. Each is declared when it is first asked for, under
an identifier that is free in the function's scope, and waits until all of them go into the leading
`var` statement of the body.
-/

namespace FrameLedger

/-- One of the outermost `try` statements with a `finally` block of a function. -/
structure CleanupId where
  index : Nat
deriving DecidableEq, Inhabited

structure Locals where
  table : ScopeTable
  scope : ScopeId
  /-- Holds the index of the frame. -/
  frameIndex : Option SymbolId := none
  /-- Holds a result while the frame is popped. -/
  returnTemp : Option SymbolId := none
  /-- Flags that are set when a `return` leaves through a `finally` block. -/
  earlyExits : List (CleanupId × SymbolId) := []
  cleanups : Nat := 0
  pending : List SymbolId := []

namespace Locals

def declare (ident short : String) : StateM Locals SymbolId := do
  let l ← get
  let (s, t) := l.table.declareUnique l.scope ident short
  set { l with table := t, pending := l.pending ++ [s] }
  return s

def frameIndexVar : StateM Locals SymbolId := do
  match (← get).frameIndex with
  | some s => return s
  | none =>
    let s ← declare "$es_stackIndex" "stackIndex"
    modify fun l => { l with frameIndex := some s }
    return s

def returnTempVar : StateM Locals SymbolId := do
  match (← get).returnTemp with
  | some s => return s
  | none =>
    let s ← declare "$es_returnTemp" "returnTemp"
    modify fun l => { l with returnTemp := some s }
    return s

def nextCleanup : StateM Locals CleanupId :=
  modifyGet fun l => (⟨l.cleanups⟩, { l with cleanups := l.cleanups + 1 })

def earlyExit? (l : Locals) (c : CleanupId) : Option SymbolId :=
  (l.earlyExits.find? (·.1 == c)).map (·.2)

/-- The flag of a `finally` block. No two share one. -/
def earlyExitVar (c : CleanupId) : StateM Locals SymbolId := do
  let l ← get
  match l.earlyExit? c with
  | some s => return s
  | none =>
    let s ← declare ("$es_exitingEarly" ++ toString l.earlyExits.length) "exitingEarly"
    modify fun l => { l with earlyExits := l.earlyExits ++ [(c, s)] }
    return s

/-- A new catch scope and the parameter in it. -/
def catchParam : StateM Locals (ScopeId × SymbolId) := do
  let l ← get
  let (sc, t) := l.table.newScope .catch l.scope
  let (s, t) := t.declare sc "e"
  set { l with table := t }
  return (sc, s)

/-- Declares what is pending in front of statements. -/
def flush (l : Locals) (pos : Position) (ss : List Stmt) : List Stmt :=
  if l.pending.isEmpty then ss else mergeVars pos (l.pending.map fun s => ⟨s, none, pos⟩) ss

end Locals

end FrameLedger
