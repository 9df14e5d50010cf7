import FrameLedger.Emulation.Locals
import FrameLedger.Emulation.Stats

/-!
# Locations

An expression that may throw first notes its location in the slot of its frame:
`($es_location[$es_stackIndex] = "42", foo(x))`. One at the location that was noted last does not,
and neither does one that has to stay what it is: the target of an assignment, a callee, the operand
of `typeof`.
-/

namespace FrameLedger

/-- What the surrounding expression does with an expression. -/
inductive Usage where
  | value
  | target
  | reference
deriving DecidableEq, Inhabited

structure Recorder where
  location : SymbolId
  files : Bool
  last : Option Position := none
  /-- What ends the name of a directory, besides `/`. -/
  separator : Char := '/'
deriving DecidableEq, Inhabited

namespace Recorder

def isLast (r : Recorder) (p : Position) : Bool :=
  r.last.any fun q => q.line == p.line && (!r.files || q.file == p.file)

/-- The text of a position: its line, behind the name of its file if files are recorded. -/
def note (r : Recorder) (p : Position) : Expr :=
  let line := Expr.string p (toString p.line)
  if r.files then .binary p (.eager (.arith .add)) (.string p (p.baseName r.separator ++ ":")) line
  else line

/-- `($es_location[$es_stackIndex] = note, e)` -/
def noteBefore (r : Recorder) (index : SymbolId) (e : Expr) : Expr :=
  let p := e.pos
  .comma p (.assign p (.index p (.var p r.location) (.var p index)) (r.note p)) e

end Recorder

/-- A function whose body is being worked on. -/
structure Draft where
  locals : Locals
  recorder : Option Recorder
  stats : Stats := {}

namespace Draft

variable {α : Type}

def onLocals (x : StateM Locals α) : StateM Draft α :=
  modifyGet fun d =>
    let (a, l) := x.run d.locals
    (a, { d with locals := l })

def frameIndex : StateM Draft SymbolId := onLocals Locals.frameIndexVar

def count (s : Stats) : StateM Draft Unit := modify fun d => { d with stats := d.stats + s }

/-- Forgets the last location, where control arrives from more than one place. -/
def forget : StateM Draft Unit :=
  modify fun d => { d with recorder := d.recorder.map fun r => { r with last := none } }

/-- Makes an expression note its location if it has to. -/
def record (u : Usage) (e : Expr) : StateM Draft Expr := do
  let p := e.pos
  match (← get).recorder with
  | none => return e
  | some r =>
    if u != .value || p.isSynthetic || r.isLast p then return e
    else
      modify fun d => { d with recorder := some { r with last := some p } }
      let index ← frameIndex
      count { locations := 1 }
      return r.noteBefore index e

end Draft

open Draft

/-- How a prefix operator uses its operand. -/
def PrefixOp.usage (op : PrefixOp) : Usage :=
  if op.modifiesOperand then .target else if op = .typeof then .reference else .value

mutual

/-- An expression in which everything that may throw notes its location, inner expressions first.
Nested functions are left alone. -/
def Expr.located : Expr → Usage → StateM Draft Expr
  | .var p s, u => record u (.var p s)
  | .bare p n, u => record u (.bare p n)
  | .member p q n, u => do record u (.member p (← q.located .value) n)
  | .index p a i, u => do
    let a ← a.located .value
    let i ← i.located .value
    record u (.index p a i)
  | .call p f as, u => do
    let f ← f.located .reference
    let as ← exprsLocated as
    record u (.call p f as)
  | .new p f as, u => do
    let f ← f.located .value
    let as ← exprsLocated as
    record u (.new p f as)
  | .prefixed p op x, u => do record u (.prefixed p op (← x.located op.usage))
  | .postfixed p op x, u => do record u (.postfixed p op (← x.located .target))
  | .binary p op l r, u => do
    let l ← l.located (if op.isAssignment then .target else .value)
    let r ← r.located .value
    if op.isAssignment then record u (.binary p op l r) else return .binary p op l r
  | .cond p c t e, _ => do
    let c ← c.located .value
    let t ← t.located .value
    let e ← e.located .value
    return .cond p c t e
  | .array p es, _ => return .array p (← exprsLocated es)
  | .object p ps, _ => return .object p (← propertiesLocated ps)
  | .literal p l, _ => return .literal p l
  | .func p f, _ => return .func p f

def exprsLocated : List Expr → StateM Draft (List Expr)
  | [] => return []
  | e :: es => do
    let e ← e.located .value
    let es ← exprsLocated es
    return e :: es

def propertiesLocated : List Property → StateM Draft (List Property)
  | [] => return []
  | ⟨k, e⟩ :: ps => do
    let e ← e.located .value
    let ps ← propertiesLocated ps
    return ⟨k, e⟩ :: ps

end

namespace Draft

/-- Notes locations if they are recorded at all. -/
def locate (e : Expr) : StateM Draft Expr := do
  match (← get).recorder with
  | none => return e
  | some _ => e.located .value

def locate? (e : Option Expr) : StateM Draft (Option Expr) :=
  match e with
  | none => return none
  | some e => return some (← locate e)

def locateDecls (ds : List VarDecl) : StateM Draft (List VarDecl) :=
  ds.mapM fun d => return { d with init := ← locate? d.init }

end Draft

end FrameLedger
