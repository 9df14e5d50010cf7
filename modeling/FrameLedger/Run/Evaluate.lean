import FrameLedger.Run.Operation
import FrameLedger.Tree.Declared

/-!
# Evaluation

Expressions give values and statements give flows. Evaluation follows the tree: it takes what calls
do as a parameter, and `Caller.within` ties the knot by the number of calls that may still be
nested. A loop spends a step in every turn, so `iterate` needs no more turns than there are steps
left.
-/

namespace FrameLedger

/-- How a statement ends when it ends normally. -/
inductive Flow where
  | next
  | breaks (label : Option String)
  | continues (label : Option String)
  | returns (v : Value)
deriving DecidableEq, Inhabited

/-- The flow a loop ends with after a turn, `none` when it goes on. -/
def Flow.leaving? (label : Option String) : Flow → Option Flow
  | .next | .continues none => none
  | .continues (some l) => if some l = label then none else some (.continues (some l))
  | .breaks none => some .next
  | flow => some flow

/-- A place that can be assigned to. -/
inductive Reference where
  | binding (s : SymbolId)
  | property (object : Value) (key : String)

/-- What calling a value does. -/
abbrev Caller := Value → List Value → Position → Eval Value

/-- A short description of a callee for messages. -/
def Expr.describe (t : ScopeTable) : Expr → Except Dangling String
  | .var _ s => t.ident s
  | .member _ q (.symbol s) => return (← q.describe t) ++ "." ++ (← t.ident s)
  | .member _ q (.property p) => return (← q.describe t) ++ "." ++ p
  | .binary _ .comma _ r => r.describe t
  | _ => return "expression"

def Literal.value : Literal → Value
  | .number x => .number x
  | .string s => .string s
  | .bool b => .bool b
  | .null => .null
  | .undefined => .undefined

namespace Eval

def memberKey (c : Setting) : MemberName → Eval String
  | .symbol s => ident c s
  | .property p => pure p

def read (c : Setting) (pos : Position) (env : FrameId) : Reference → Eval Value
  | .binding s => do
    match (← store).lookup env s with
    | some v => return v
    | none => raiseUnbound c pos (← ident c s)
  | .property o k => getProperty c pos o k

/-- Changes the nearest binding, or makes one in the given frame. -/
def bindIn (env frame : FrameId) (s : SymbolId) (v : Value) : Eval Unit :=
  modifyStore fun h =>
    match h.owner? env s with
    | some f => h.define f s v
    | none => h.define frame s v

/-- An assignment to a name that is bound nowhere makes a global. -/
def write (c : Setting) (pos : Position) (env : FrameId) : Reference → Value → Eval Unit
  | .binding s, v => bindIn env Store.globals s v
  | .property o k, v => setProperty c pos o k v

/-- Changes a place by a number; gives the number before and after. -/
def update (c : Setting) (pos operandPos : Position) (env : FrameId) (r : Reference)
    (amount : Float) :
    Eval (Float × Float) := do
  let old := (← read c operandPos env r).toNumber
  let new := old + amount
  write c pos env r (.number new)
  return (old, new)

def closure (f : Func) (env : FrameId) : Eval Value := onStore (·.newClosure ⟨f, env⟩)

/-- Binds what a body declares. -/
def hoist (body : List Stmt) (env : FrameId) : Eval Unit := do
  (stmtsDeclared body).forM fun s => modifyStore (·.declare env s)
  (body.filterMap Stmt.declaration?).forM fun (s, f) => do
    let v ← closure f env
    modifyStore (·.define env s v)

/-- Makes the frame of a call and binds in it what is bound before the body runs. -/
def prepare (f : Closure) (args : List Value) : Eval FrameId := do
  let env ← onStore (·.newFrame f.env)
  f.func.params.zipIdx.forM fun (s, i) => modifyStore (·.define env s (args[i]?.getD .undefined))
  hoist f.func.body.stmts env
  return env

def construct (c : Setting) (call : Caller) (pos : Position) (callee : Expr) (ctor : Value)
    (args : List Value) : Eval Value := do
  match ctor with
  | .native k =>
    tick c
    makeError k args
  | .function _ =>
    match ← call ctor args pos with
    | v@(.object _) | v@(.array _) => return v
    | _ => onStore (·.newObject ⟨∅, some ctor⟩)
  | _ =>
    raise c pos .typeError ((← ofDangling (callee.describe c.table)) ++ " is not a constructor")

/-- Takes turns until one gives a flow to leave with. -/
def iterate (c : Setting) (turn : Eval (Option Flow)) : Nat → Eval Flow
  | 0 => fault (.stepLimit c.limits.steps)
  | n + 1 => do
    match ← turn with
    | none => iterate c turn n
    | some flow => return flow

/-- Takes as many turns as there are steps for. -/
def loop (c : Setting) (turn : Eval (Option Flow)) : Eval Flow := do
  iterate c turn (c.limits.steps + 1 - (← get).steps)

/-- Takes a turn for every key until one gives a flow to leave with. -/
def overKeys (turn : String → Eval (Option Flow)) : List String → Eval Flow
  | [] => return .next
  | k :: ks => do
    match ← turn k with
    | none => overKeys turn ks
    | some flow => return flow

end Eval

open Eval

section

variable (c : Setting) (call : Caller)

mutual

def Expr.eval : Expr → FrameId → Eval Value
  | .var p s, env => read c p env (.binding s)
  | .bare p name, _ => raiseUnbound c p name
  | .member p q n, env => do
    let o ← q.eval env
    getProperty c p o (← memberKey c n)
  | .index p a i, env => do
    let o ← a.eval env
    let k ← i.eval env
    getProperty c p o (← text k)
  | .call p f as, env => do
    let callee ← f.eval env
    let args ← evalAll as env
    if callee.isCallable then call callee args p
    else raise c p .typeError ((← ofDangling (f.describe c.table)) ++ " is not a function")
  | .new p f as, env => do
    let ctor ← f.eval env
    let args ← evalAll as env
    construct c call p f ctor args
  | .prefixed p op x, env => do
    match op with
    | .inc => return .number (← update c p x.pos env (← x.reference env) 1).2
    | .dec => return .number (← update c p x.pos env (← x.reference env) (-1)).2
    | .typeof =>
      match x.symbol? with
      | some s => return .string (((← store).lookup env s).elim "undefined" Value.typeOf)
      | none => return .string (← x.eval env).typeOf
    | .delete =>
      match x with
      | .var .. | .bare .. => return .bool false
      | .member .. | .index .. =>
        match ← x.reference env with
        | .property o k => deleteProperty o k
        | .binding _ => pure ()
        return .bool true
      | _ =>
        discard (x.eval env)
        return .bool true
    | .neg => return .number (-(← x.eval env).toNumber)
    | .plus => return .number (← x.eval env).toNumber
    | .not => return .bool !(← x.eval env).isTruthy
    | .void =>
      discard (x.eval env)
      return .undefined
  | .postfixed p op x, env => do
    let r ← x.reference env
    match op with
    | .inc => return .number (← update c p x.pos env r 1).1
    | .dec => return .number (← update c p x.pos env r (-1)).1
  | .binary p op l r, env => do
    match op with
    | .assign =>
      let ref ← l.reference env
      let v ← r.eval env
      write c p env ref v
      return v
    | .assignWith op =>
      let ref ← l.reference env
      let old ← read c l.pos env ref
      let v ← arithmetic op old (← r.eval env)
      write c p env ref v
      return v
    | .comma =>
      discard (l.eval env)
      r.eval env
    | .or =>
      let v ← l.eval env
      if v.isTruthy then return v else r.eval env
    | .and =>
      let v ← l.eval env
      if v.isTruthy then r.eval env else return v
    | .eager op =>
      let v ← l.eval env
      let w ← r.eval env
      operate c p op v w
  | .cond _ t yes no, env => do
    if (← t.eval env).isTruthy then yes.eval env else no.eval env
  | .literal _ l, _ => return l.value
  | .array _ es, env => do
    let vs ← evalAll es env
    onStore (·.newArray vs.toArray)
  | .object _ ps, env => do
    let ps ← evalProperties ps env
    onStore (·.newObject ⟨.ofList ps, none⟩)
  | .func _ f, env => do
    let v ← closure f env
    match f.name with
    | some s => modifyStore (·.define env s v)
    | none => pure ()
    return v

/-- The place an expression stands for. -/
def Expr.reference : Expr → FrameId → Eval Reference
  | .var _ s, _ => return .binding s
  | .member _ q n, env => do
    let o ← q.eval env
    return .property o (← memberKey c n)
  | .index _ a i, env => do
    let o ← a.eval env
    let k ← i.eval env
    return .property o (← text k)
  | .bare p name, _ => raiseUnbound c p name
  | e, _ => raise c e.pos .referenceError "Invalid assignment target"

def evalAll : List Expr → FrameId → Eval (List Value)
  | [], _ => return []
  | e :: es, env => do
    let v ← e.eval env
    let vs ← evalAll es env
    return v :: vs

def evalProperties : List Property → FrameId → Eval (List (String × Value))
  | [], _ => return []
  | ⟨k, e⟩ :: ps, env => do
    let v ← e.eval env
    let vs ← evalProperties ps env
    return (k, v) :: vs

end

/-- A missing test holds. -/
def testHolds (t : Option Expr) (env : FrameId) : Eval Bool :=
  match t with
  | none => return true
  | some e => return (← e.eval c call env).isTruthy

def evalOptional (e : Option Expr) (env : FrameId) : Eval Value :=
  match e with
  | none => return .undefined
  | some e => e.eval c call env

/-- A declarator with a value assigns to its name, one without only declares it. -/
def declareVars (ds : List VarDecl) (env : FrameId) : Eval Unit :=
  ds.forM fun d =>
    match d.init with
    | some e => do
      let v ← e.eval c call env
      bindIn env env d.name v
    | none => modifyStore (·.declare env d.name)

def startFor (init : Option ForInit) (env : FrameId) : Eval Unit :=
  match init with
  | none => pure ()
  | some (.vars ds) => declareVars c call ds env
  | some (.expr e) => discard (e.eval c call env)

/-- The first case whose test gives the value. -/
def matchingCase : List SwitchCase → Value → FrameId → Eval (Option Nat)
  | [], _, _ => return none
  | ⟨none, _⟩ :: cs, v, env => return (← matchingCase cs v env).map (· + 1)
  | ⟨some t, _⟩ :: cs, v, env => do
    if (← t.eval c call env).strictEquals v then return some 0
    else return (← matchingCase cs v env).map (· + 1)

mutual

/-- Runs a statement, of which the step has been spent. A loop knows the label in front of it. -/
def Stmt.exec : Stmt → Option String → FrameId → Eval Flow
  | .expr _ e, _, env => do
    unless e.isDeclaration do discard (e.eval c call env)
    return .next
  | .vars _ ds, _, env => do
    declareVars c call ds env
    return .next
  | .ret _ e, _, env =>
    return .returns (← together (fun _ inside _ _ => .result inside) (evalOptional c call e env))
  | .raise p e, _, env => do
    let v ← e.eval c call env
    recordThrow c
    throw (.thrown v p)
  | .branch _ t yes no, _, env => do
    if (← t.eval c call env).isTruthy then
      tick c
      yes.exec none env
    else execElse no env
  | .whileLoop _ t b, label, env =>
    loop c do
      if (← t.eval c call env).isTruthy then
        tick c
        return (← b.exec none env).leaving? label
      else return some .next
  | .doWhile _ b t, label, env =>
    loop c do
      tick c
      match (← b.exec none env).leaving? label with
      | some flow => return some flow
      | none => if (← t.eval c call env).isTruthy then return none else return some .next
  | .forLoop _ init t incr b, label, env => do
    startFor c call init env
    loop c do
      if ← testHolds c call t env then
        tick c
        match (← b.exec none env).leaving? label with
        | some flow => return some flow
        | none =>
          discard (evalOptional c call incr env)
          return none
      else return some .next
  | .forIn _ k _ o b, label, env => do
    let ks ← keys (← o.eval c call env)
    ks |> overKeys fun key => do
      bindIn env env k (.string key)
      tick c
      return (← b.exec none env).leaving? label
  | .block _ ⟨ss, _⟩, _, env => execStmts ss env
  | .tryBlock _ ⟨ss, _⟩ cs cleanup, _, env => do
    let outcome ← observe (execStmts ss env)
    let outcome ← handle cs outcome env
    finish cleanup outcome env
  | .labeled _ l b, _, env => do
    unless b.isLoop do tick c
    match ← b.exec (some l) env with
    | .breaks (some l') => return if l' = l then .next else .breaks (some l')
    | flow => return flow
  | .breakTo _ l, _, _ => return .breaks l
  | .continueTo _ l, _, _ => return .continues l
  | .switch _ d cs, _, env => do
    let v ← d.eval c call env
    match (← matchingCase c call cs v env) <|> cs.findIdx? (·.test.isNone) with
    | some start => execCases cs start env
    | none => return .next
  | .empty _, _, _ => return .next

/-- Runs statements up to one that does not end with `next`. -/
def execStmts : List Stmt → FrameId → Eval Flow
  | [], _ => return .next
  | s :: ss, env => do
    tick c
    match ← s.exec none env with
    | .next => execStmts ss env
    | flow => return flow

def execElse : Option Stmt → FrameId → Eval Flow
  | none, _ => return .next
  | some s, env => do
    tick c
    s.exec none env

/-- The first catch clause takes what was thrown. -/
def handle : List Catch → Except Abrupt Flow → FrameId → Eval (Except Abrupt Flow)
  | ⟨param, _, ⟨ss, _⟩, _⟩ :: _, .error (.thrown v _), env =>
    observe do
      let inner ← onStore (·.newFrame env)
      modifyStore (·.define inner param v)
      execStmts ss inner
  | _, outcome, _ => return outcome

/-- Cleanup is skipped by a fault; a jump out of it replaces the outcome. -/
def finish : Option Block → Except Abrupt Flow → FrameId → Eval Flow
  | none, outcome, _ => settle outcome
  | some _, .error (.fault f), _ => fault f
  | some ⟨ss, _⟩, outcome, env => do
    match ← execStmts ss env with
    | .next => settle outcome
    | flow => return flow

/-- Runs the bodies of the cases from the given one on. -/
def execCases : List SwitchCase → Nat → FrameId → Eval Flow
  | [], _, _ => return .next
  | _ :: cs, n + 1, env => execCases cs n env
  | ⟨_, ss⟩ :: cs, 0, env => do
    match ← execStmts ss env with
    | .next => execCases cs 0 env
    | .breaks none => return .next
    | flow => return flow

end

/-- Runs the body of a function in a new frame. -/
def enter (f : Closure) (args : List Value) (pos : Position) : Eval Value := do
  if c.limits.calls ≤ (← get).callDepth then fault (.callDepth c.limits.calls)
  let env ← prepare f args
  modify fun m => { m with callDepth := m.callDepth + 1 }
  let outcome ← observe (execStmts c call f.func.body.stmts env)
  modify fun m => { m with callDepth := m.callDepth - 1 }
  match ← settle outcome with
  | .next => return .undefined
  | .returns v => return v
  | .breaks _ | .continues _ => fault (.illegalJump .breakOrContinue pos)

end

namespace Caller

/-- What a call does, given what entering a function does. -/
def invoke (c : Setting) (enter : Closure → List Value → Position → Eval Value) : Caller :=
  fun callee args pos => do
    tick c
    match callee with
    | .native k => makeError k args
    | .function r =>
      match (← store).closure? r with
      | some f => enter f args pos
      | none => raise c pos .typeError "function is not a function"
    | v => raise c pos .typeError ((← text v) ++ " is not a function")

/-- Calls a value. All that happens in the call is one event. -/
def ofEnter (c : Setting) (enter : Closure → List Value → Position → Eval Value) : Caller :=
  fun callee args pos => together (.call callee args) (invoke c enter callee args pos)

/-- Calls that nest at most so deep. -/
def within (c : Setting) : Nat → Caller
  | 0 => ofEnter c fun _ _ _ => fault (.callDepth c.limits.calls)
  | n + 1 => ofEnter c (enter c (within c n))

end Caller

/-- Calls as deep as the limit admits. -/
def Setting.caller (c : Setting) : Caller := Caller.within c c.limits.calls

end FrameLedger
