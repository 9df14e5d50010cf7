import FrameLedger.Run.Evaluate

/-!
# Sessions

A session runs a program's global code and then calls its functions by name. What one of them spends
and writes is there for the next, also when it failed.
-/

namespace FrameLedger

open Eval

/-- Why a run or a call gave no value. -/
inductive RunError where
  | uncaught (message : String) (pos : Position)
  | fault (f : Fault)
  | notAFunction (name : String)
deriving DecidableEq, Inhabited

namespace RunError

def message : RunError → String
  | .uncaught m _ => "Uncaught " ++ m
  | .fault (.stepLimit n) => s!"Step limit of {n} exceeded"
  | .fault (.callDepth n) => s!"Maximum call depth of {n} exceeded"
  | .fault (.illegalJump j p) => "Illegal " ++ j.text ++ " at " ++ p.text
  | .fault (.dangling d) => "Unknown symbol " ++ d.symbol.text
  | .fault (.tooManyFrames n) => s!"No room for {n} frames"
  | .notAFunction name => name ++ " is not a global function"

def ofAbrupt (m : Machine) : Abrupt → RunError
  | .thrown v pos => .uncaught (m.store.text v) pos
  | .fault f => .fault f

end RunError

/-- An empty store but for the built-in constructors. -/
def Machine.start (t : ScopeTable) : Machine where
  store := ErrorKind.all.foldl (fun h k =>
    match t.rootName k.name with
    | some s => h.define Store.globals s (.native k)
    | none => h) .empty
  steps := 0
  callDepth := 0
  snapshots := #[]
  trace := .of []

/-- The global code ends at its end only. -/
def Program.leave (p : Program) : Flow → Eval Unit
  | .next => return
  | .returns _ => fault (.illegalJump .ret p.code.pos)
  | .breaks _ | .continues _ => fault (.illegalJump .breakOrContinue p.code.pos)

/-- Runs the global code. -/
def Program.exec (p : Program) (c : Setting) : Eval Unit := do
  hoist p.code.stmts Store.globals
  p.leave (← execStmts c c.caller p.code.stmts Store.globals)

structure Session where
  program : Program
  setting : Setting
  machine : Machine

namespace Session

variable {α : Type}

def start (p : Program) (probe : Option StackVars) (limits : Limits) : Session :=
  ⟨p, ⟨p.table, probe, limits⟩, .start p.table⟩

def perform (s : Session) (x : Eval α) : Except RunError α × Session :=
  match x.run.run s.machine with
  | (.ok a, m) => (.ok a, { s with machine := m })
  | (.error e, m) => (.error (.ofAbrupt m e), { s with machine := m })

def run (s : Session) : Except RunError Unit × Session := s.perform (s.program.exec s.setting)

/-- The value of a variable of the program scope. -/
def global (s : Session) (name : String) : Option Value :=
  (s.program.table.findIn ScopeTable.program name).bind (s.machine.store.lookup Store.globals)

/-- Calls a function of the program scope. -/
def call (s : Session) (name : String) (args : List Value) : Except RunError Value × Session :=
  match s.global name with
  | some callee =>
    if callee.isCallable then s.perform (s.setting.caller callee args s.program.code.pos)
    else (.error (.notAFunction name), s)
  | none => (.error (.notAFunction name), s)

/-- Puts values into the session's store. -/
def alloc (s : Session) (ds : List Datum) : List Value × Session :=
  let (vs, h) := allocAll ds s.machine.store
  (vs, { s with machine := { s.machine with store := h } })

/-- The kept stack as it is now. -/
def snapshot (s : Session) : Except Fault (Option Snapshot) :=
  match s.setting.probe with
  | none => .ok none
  | some p => s.machine.store.snapshot s.setting.table p

end Session

end FrameLedger
