import FrameLedger.Emulation.Location
import FrameLedger.Tree.Effects

/-!
# Frames

A function that keeps a frame pushes it on entry and pops it on every way out:

* the end of the body and a `return` pop, after a result that might throw has been put aside;
* a `return` inside the outermost `try` with a `finally` sets a flag instead, and that block pops if
  the flag is set;
* what is thrown is dealt with by the frame that catches it: once a catch body has wrapped the
  exception the depth is that frame's again. An outermost `try` with a `finally` and no catch clause
  gets one for this.
-/

namespace FrameLedger

open Draft

/-- Where a statement stands in its function. -/
structure Region where
  /-- The outermost `finally` block that is still ahead. -/
  cleanup : Option CleanupId := none
  inCatch : Bool := false

/-- Whether a statement is `x = wrap(…)`. -/
def Stmt.assignsWrapped (wrap : SymbolId) : Stmt → Bool
  | .expr _ (.binary _ .assign _ (.call _ f _)) => f.symbol? == some wrap
  | _ => false

/-- The only statement, or a block of them all. -/
def oneStmt (pos : Position) : List Stmt → Stmt
  | [s] => s
  | ss => .ofStmts pos ss

section

variable (v : StackVars) (wrap : SymbolId)

/-- `$es_stack[$es_stackIndex = ++$es_stackDepth] = name;` -/
def pushCode (index : SymbolId) (name : Option SymbolId) (p : Position) : Stmt :=
  let bump := Expr.prefixed p .inc (.var p v.depth)
  let slot := Expr.index p (.var p v.stack) (.assign p (.var p index) bump)
  .ofExpr (.assign p slot (name.elim (.null p) (.var p)))

/-- `$es_stackDepth = $es_stackIndex - 1` -/
def popCode (index : SymbolId) (p : Position) : Expr :=
  .assign p (.var p v.depth) (.binary p (.eager (.arith .sub)) (.var p index) (.number p 1))

/-- `$es_stackDepth = $es_stackIndex;` -/
def resetCode (index : SymbolId) (p : Position) : Stmt :=
  .ofExpr (.assign p (.var p v.depth) (.var p index))

/-- `catch (e) { e = wrap(e); $es_stackDepth = $es_stackIndex; throw e; }` -/
def rethrowCode (index e : SymbolId) (sc : ScopeId) (p : Position) : Catch :=
  let wrapped := Stmt.ofExpr (.assign p (.var p e) (.call p (.var p wrap) [.var p e]))
  ⟨e, sc, ⟨[wrapped, resetCode v index p, .raise p (.var p e)], p⟩, p⟩

def push (name : Option SymbolId) (p : Position) : StateM Draft Stmt :=
  return pushCode v (← frameIndex) name p

def pop (p : Position) : StateM Draft Expr := do
  let index ← frameIndex
  count { pops := 1 }
  return popCode v index p

def resetDepth (p : Position) : StateM Draft Stmt := do
  let index ← frameIndex
  count { resets := 1 }
  return resetCode v index p

def syntheticCatch (p : Position) : StateM Draft Catch := do
  let (sc, e) ← onLocals Locals.catchParam
  let index ← frameIndex
  count { resets := 1, syntheticCatches := 1 }
  return rethrowCode v wrap index e sc p

/-- Sets the flag of the `finally` block ahead and returns. -/
def exitThrough (c : CleanupId) (p : Position) (e : Option Expr) : StateM Draft (List Stmt) := do
  let flag ← onLocals (Locals.earlyExitVar c)
  let set := Expr.assign p (.var p flag) (.bool p true)
  match e with
  | some e => return [.ret p (some (.comma p set e))]
  | none => return [.ofExpr set, .ret p none]

/-- Pops and returns. A result that might throw is computed before. -/
def popAndReturn (p : Position) (e : Option Expr) : StateM Draft (List Stmt) := do
  match e.filter Expr.hasSideEffects with
  | some e =>
    let temp ← onLocals Locals.returnTempVar
    return [.ofExpr (.assign p (.var p temp) e), .ofExpr (← pop v p), .ret p (some (.var p temp))]
  | none => return [.ofExpr (← pop v p), .ret p e]

/-- A `finally` block that pops when it was entered by a `return`. -/
def guardCleanup (c : CleanupId) (b : Block) : StateM Draft Block := do
  match (← get).locals.earlyExit? c with
  | some flag =>
    if b.endsWithExit then return b
    else
      let guarded := Expr.binary b.pos .and (.var b.pos flag) (← pop v b.pos)
      return { b with stmts := b.stmts ++ [.ofExpr guarded] }
  | none => return b

/-- Resets the depth behind a statement that wraps what was caught. -/
def withReset (r : Region) (s : Stmt) (x : StateM Draft (List Stmt)) :
    StateM Draft (List Stmt) := do
  let ss ← x
  if r.inCatch && s.assignsWrapped wrap then return ss ++ [← resetDepth v s.pos] else return ss

/-- The same where only one statement fits. -/
def asBody (r : Region) (s : Stmt) (x : StateM Draft (List Stmt)) : StateM Draft Stmt :=
  return oneStmt s.pos (← withReset v wrap r s x)

mutual

/-- What a statement becomes in a function that keeps a frame. -/
def Stmt.framed : Stmt → Region → StateM Draft (List Stmt)
  | .expr p e, _ => return [.expr p (← locate e)]
  | .vars p ds, _ => return [.vars p (← locateDecls ds)]
  | .ret p e, r => do
    let e ← locate? e
    match r.cleanup with
    | some c => exitThrough c p e
    | none => popAndReturn v p e
  | .raise p e, _ => return [.raise p (← locate e)]
  | .branch p t yes no, r => do
    let t ← locate t
    let yes ← asBody v wrap r yes (yes.framed r)
    let no ← stmtFramed? no r
    return [.branch p t yes no]
  | .whileLoop p t b, r => do
    forget
    let t ← locate t
    let b ← asBody v wrap r b (b.framed r)
    return [.whileLoop p t b]
  | .doWhile p b t, r => do
    let b ← asBody v wrap r b (b.framed r)
    let t ← locate t
    return [.doWhile p b t]
  | .forLoop p init t incr b, r => do
    let init ← match init with
      | none => pure none
      | some (.vars ds) => pure (some (.vars (← locateDecls ds)))
      | some (.expr e) => pure (some (.expr (← locate e)))
    if t.isSome then forget
    let t ← locate? t
    if incr.isSome then forget
    let incr ← locate? incr
    let b ← asBody v wrap r b (b.framed r)
    return [.forLoop p init t incr b]
  | .forIn p k declared o b, r => do
    let o ← locate o
    let b ← asBody v wrap r b (b.framed r)
    return [.forIn p k declared o b]
  | .block p ⟨ss, q⟩, r => return [.block p ⟨← stmtsFramed ss r, q⟩]
  | .tryBlock p ⟨ss, q⟩ cs none, r => do
    let ss ← stmtsFramed ss r
    let cs ← catchesFramed cs r
    return [.tryBlock p ⟨ss, q⟩ cs none]
  | .tryBlock p ⟨ss, q⟩ cs (some ⟨fs, fq⟩), r => do
    match r.cleanup with
    | some _ =>
      let ss ← stmtsFramed ss r
      let cs ← catchesFramed cs r
      let fs ← stmtsFramed fs r
      return [.tryBlock p ⟨ss, q⟩ cs (some ⟨fs, fq⟩)]
    | none =>
      let c ← onLocals Locals.nextCleanup
      let inner := { r with cleanup := some c }
      let ss ← stmtsFramed ss inner
      let cs ← if cs.isEmpty then pure [← syntheticCatch v wrap p] else catchesFramed cs inner
      let fs ← stmtsFramed fs r
      let f ← guardCleanup v c ⟨fs, fq⟩
      return [.tryBlock p ⟨ss, q⟩ cs (some f)]
  | .labeled p l b, r => return [.labeled p l (← asBody v wrap r b (b.framed r))]
  | .breakTo p l, _ => return [.breakTo p l]
  | .continueTo p l, _ => return [.continueTo p l]
  | .switch p d cs, r => do
    let d ← locate d
    let cs ← casesFramed cs r
    return [.switch p d cs]
  | .empty p, _ => return [.empty p]

def stmtsFramed : List Stmt → Region → StateM Draft (List Stmt)
  | [], _ => return []
  | s :: ss, r => do
    let first ← withReset v wrap r s (s.framed r)
    let rest ← stmtsFramed ss r
    return first ++ rest

def stmtFramed? : Option Stmt → Region → StateM Draft (Option Stmt)
  | none, _ => return none
  | some s, r => return some (← asBody v wrap r s (s.framed r))

def catchesFramed : List Catch → Region → StateM Draft (List Catch)
  | [], _ => return []
  | ⟨s, sc, ⟨ss, q⟩, p⟩ :: cs, r => do
    let ss ← stmtsFramed ss { r with inCatch := true }
    let cs ← catchesFramed cs r
    return ⟨s, sc, ⟨ss, q⟩, p⟩ :: cs

def casesFramed : List SwitchCase → Region → StateM Draft (List SwitchCase)
  | [], _ => return []
  | ⟨t, ss⟩ :: cs, r => do
    let t ← locate? t
    let ss ← stmtsFramed ss r
    let cs ← casesFramed cs r
    return ⟨t, ss⟩ :: cs

end

/-- Puts the entry code behind a leading `var` statement. -/
def afterVars (entry : Stmt) : List Stmt → List Stmt
  | s :: ss => if s.isVars then s :: entry :: ss else entry :: s :: ss
  | [] => [entry]

/-- The body of a function that keeps a frame. -/
def Func.framedBody (f : Func) : StateM Draft (List Stmt) := do
  let entry ← push v f.name f.pos
  let ss ← stmtsFramed v wrap f.body.stmts {}
  let ss := afterVars entry ss
  if Block.endsWithExit ⟨ss, f.body.pos⟩ then return ss else return ss ++ [.ofExpr (← pop v f.pos)]

/-- A function that keeps a frame, and what that took. -/
def Func.framed (f : Func) (recorder : Option Recorder) (t : ScopeTable) :
    Func × Stats × ScopeTable :=
  let (ss, d) := (f.framedBody v wrap).run { locals := { table := t, scope := f.scope }, recorder }
  let ss := d.locals.flush f.pos ss
  let stats := d.stats + { instrumented := 1, earlyExitFlags := d.locals.earlyExits.length }
  ({ f with body := { f.body with stmts := ss } }, stats, d.locals.table)

end

end FrameLedger
