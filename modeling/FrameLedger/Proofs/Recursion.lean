import FrameLedger.Proofs.Environment
import FrameLedger.Proofs.Outcome
import FrameLedger.Proofs.Texts

/-!
# Evaluation without a bound

Evaluation as a recursion that nothing bounds: neither the turns of a loop nor the nesting of calls
are counted. `Task` lists what evaluation calls upon itself for, `Task.code` says what each task
does and which tasks it asks for on the way, and `Runs` is the least relation that the recursion
satisfies: a task ends when there is a finite derivation for it. `Converts` tells which values are
turned into text on the way, whether or not the task ends. `Comes` leaves aside what operations look
through, so that there is nothing it asks of the store.
-/

namespace FrameLedger

open Eval

/-- What evaluation calls upon itself for, by what it gives. -/
inductive Task : Type → Type where
  | eval (e : Expr) (env : FrameId) : Task Value
  | refer (e : Expr) (env : FrameId) : Task Reference
  | evalAll (es : List Expr) (env : FrameId) : Task (List Value)
  | evalProperties (ps : List Property) (env : FrameId) : Task (List (String × Value))
  | declare (ds : List VarDecl) (env : FrameId) : Task Unit
  | select (cs : List SwitchCase) (v : Value) (env : FrameId) : Task (Option Nat)
  | exec (s : Stmt) (label : Option String) (env : FrameId) : Task Flow
  | execAll (ss : List Stmt) (env : FrameId) : Task Flow
  /-- The turns of a `for` loop that has started. -/
  | turns (t incr : Option Expr) (b : Stmt) (label : Option String) (env : FrameId) : Task Flow
  /-- The turns of a loop over keys, for the keys that are left. -/
  | visit (k : SymbolId) (b : Stmt) (label : Option String) (env : FrameId)
      (ks : List String) : Task Flow
  | execCases (cs : List SwitchCase) (start : Nat) (env : FrameId) : Task Flow
  | call (callee : Value) (args : List Value) (pos : Position) : Task Value

/-- What a task does: operations that do not recurse, and tasks it asks for. `shown` are the values
that an operation turns into text. -/
inductive Code (α : Type) : Type 1 where
  | ret (r : Except Abrupt α)
  | perform {β : Type} (shown : Machine → List Value) (x : Eval β) (next : Except Abrupt β → Code α)
  | ask {β : Type} (t : Task β) (next : Except Abrupt β → Code α)

namespace Code

variable {α β : Type}

def bind : Code α → (α → Code β) → Code β
  | .ret (.ok a), f => f a
  | .ret (.error e), _ => .ret (.error e)
  | .perform shown x next, f => .perform shown x fun r => (next r).bind f
  | .ask t next, f => .ask t fun r => (next r).bind f

instance : Monad Code where
  pure a := .ret (.ok a)
  bind := bind

/-- How code ends, as a value. -/
def attempt : Code α → Code (Except Abrupt α)
  | .ret r => .ret (.ok r)
  | .perform shown x next => .perform shown x fun r => (next r).attempt
  | .ask t next => .ask t fun r => (next r).attempt

end Code

/-! ## What is turned into text -/

/-- The values that a snapshot shows: the locations of the frames up to the depth. -/
def Setting.shown (c : Setting) (h : Store) : List Value :=
  match c.probe with
  | none => []
  | some p =>
    match h.lookup Store.globals p.depth with
    | some (.number x) =>
      let live := List.range ((Binary64.ofFloat x).clampInt64 + 1).toNat
      let locations := (h.elements? (p.location.bind (h.lookup Store.globals))).getD #[]
      live.filterMap fun i => locations[i]?.filter (!·.isNullish)
    | _ => []

/-- Something is thrown that was not before. -/
def Eval.throws {α : Type} (x : Eval α) (m : Machine) : Bool :=
  match (x.go m).1 with
  | .error (.thrown ..) => true
  | _ => false

/-- The values that `+` turns into text. -/
def ArithOp.shown : ArithOp → Value → Value → List Value
  | .add, l, r => if l.isTextual || r.isTextual then [l, r] else []
  | _, _, _ => []

def EagerOp.shown : EagerOp → Value → Value → List Value
  | .member, l, _ => [l]
  | .arith op, l, r => op.shown l r
  | _, _, _ => []

/-- What is no length of an array stands in the message that says so. -/
def Reference.shown : Reference → Value → List Value
  | .property (.array _) key, v => if key = "length" && (arrayLength? v).isNone then [v] else []
  | _, _ => []

/-- The message of an error object. -/
def messageShown (args : List Value) : List Value := args.head?.toList.filter (· != .undefined)

/-- The flow behind a statement with a label. -/
def Flow.behind (l : String) : Flow → Flow
  | .breaks (some l') => if l' = l then .next else .breaks (some l')
  | flow => flow

/-! ## What tasks do -/

namespace Code

variable {α : Type} (c : Setting)

/-- An operation that turns these values into text; if it throws, also those a snapshot shows. -/
def act (vs : List Value) (x : Eval α) : Code α :=
  .perform (fun m => vs ++ if x.throws m then c.shown m.store else []) x .ret

def request (t : Task α) : Code α := .ask t .ret

def update (pos operandPos : Position) (env : FrameId) (r : Reference) (amount : Float) :
    Code (Float × Float) := do
  let old ← act c [] (read c operandPos env r)
  let new := old.toNumber + amount
  act c (r.shown (.number new)) (write c pos env r (.number new))
  return (old.toNumber, new)

def together (e : Store → List Event → Except Abrupt α → Store → Event) (x : Code α) : Code α := do
  let before ← act c [] (modifyGet fun m => (Ghost.of m, { m with trace := .of [] }))
  let outcome ← x.attempt
  act c [] (modify fun m => { m with
    trace := before.bind fun b => b.trace.bind fun past =>
      m.trace.map fun inside => past ++ [e b.store inside outcome m.store] })
  .ret outcome

def construct (pos : Position) (callee : Expr) (ctor : Value) (args : List Value) : Code Value := do
  match ctor with
  | .native k =>
    act c [] (tick c)
    act c (messageShown args) (makeError k args)
  | .function _ =>
    match ← request (.call ctor args pos) with
    | v@(.object _) | v@(.array _) => return v
    | _ => act c [] (onStore (·.newObject ⟨∅, some ctor⟩))
  | _ =>
    let name ← act c [] (ofDangling (callee.describe c.table))
    act c [] (raise c pos .typeError (name ++ " is not a constructor"))

/-- Code one call deeper. -/
def nested (x : Code α) : Code α := do
  act c [] (modify fun m => { m with callDepth := m.callDepth + 1 })
  let outcome ← x.attempt
  act c [] (modify fun m => { m with callDepth := m.callDepth - 1 })
  .ret outcome

def enter (f : Closure) (args : List Value) (pos : Position) : Code Value := do
  let m ← act c [] get
  if c.limits.calls ≤ m.callDepth then .ret (.error (.fault (.callDepth c.limits.calls)))
  else
    let env ← act c [] (prepare f args)
    match ← nested c (request (.execAll f.func.body.stmts env)) with
    | .next => return .undefined
    | .returns v => return v
    | .breaks _ | .continues _ => .ret (.error (.fault (.illegalJump .breakOrContinue pos)))

def invoke (callee : Value) (args : List Value) (pos : Position) : Code Value := do
  act c [] (tick c)
  match callee with
  | .native k => act c (messageShown args) (makeError k args)
  | .function r =>
    match (← act c [] store).closure? r with
    | some f => enter c f args pos
    | none => act c [] (raise c pos .typeError "function is not a function")
  | v =>
    let s ← act c [v] (text v)
    act c [] (raise c pos .typeError (s ++ " is not a function"))

def optional (e : Option Expr) (env : FrameId) : Code Value :=
  match e with
  | none => return .undefined
  | some e => request (.eval e env)

def holds (t : Option Expr) (env : FrameId) : Code Bool :=
  match t with
  | none => return true
  | some e => return (← request (.eval e env)).isTruthy

def start (init : Option ForInit) (env : FrameId) : Code Unit :=
  match init with
  | none => pure ()
  | some (.vars ds) => request (.declare ds env)
  | some (.expr e) => do
    let _ ← request (.eval e env)
    return ()

/-- A turn of a loop; the others are the given task. -/
def again (t : Task Flow) (turn : Code (Option Flow)) : Code Flow := do
  match ← turn with
  | none => request t
  | some flow => return flow

def handle (cs : List Catch) (outcome : Except Abrupt Flow) (env : FrameId) :
    Code (Except Abrupt Flow) :=
  match cs, outcome with
  | ⟨param, _, ⟨ss, _⟩, _⟩ :: _, .error (.thrown v _) =>
    attempt do
      let inner ← act c [] (onStore (·.newFrame env))
      act c [] (modifyStore (·.define inner param v))
      request (.execAll ss inner)
  | _, outcome => return outcome

def finish (cleanup : Option Block) (outcome : Except Abrupt Flow) (env : FrameId) : Code Flow :=
  match cleanup, outcome with
  | none, outcome => .ret outcome
  | some _, .error (.fault f) => .ret (.error (.fault f))
  | some ⟨ss, _⟩, outcome => do
    match ← request (.execAll ss env) with
    | .next => .ret outcome
    | flow => return flow

end Code

open Code

section

variable (c : Setting)

def Expr.code (env : FrameId) : Expr → Code Value
  | .var p s => act c [] (read c p env (.binding s))
  | .bare p name => act c [] (raiseUnbound c p name)
  | .member p q n => do
    let o ← request (.eval q env)
    let k ← act c [] (memberKey c n)
    act c [] (getProperty c p o k)
  | .index p a i => do
    let o ← request (.eval a env)
    let v ← request (.eval i env)
    let k ← act c [v] (text v)
    act c [] (getProperty c p o k)
  | .call p f as => do
    let callee ← request (.eval f env)
    let args ← request (.evalAll as env)
    if callee.isCallable then request (.call callee args p)
    else
      let name ← act c [] (ofDangling (f.describe c.table))
      act c [] (raise c p .typeError (name ++ " is not a function"))
  | .new p f as => do
    let ctor ← request (.eval f env)
    let args ← request (.evalAll as env)
    construct c p f ctor args
  | .prefixed p op x => do
    match op with
    | .inc =>
      let r ← request (.refer x env)
      return .number (← update c p x.pos env r 1).2
    | .dec =>
      let r ← request (.refer x env)
      return .number (← update c p x.pos env r (-1)).2
    | .typeof =>
      match x.symbol? with
      | some s => return .string (((← act c [] store).lookup env s).elim "undefined" Value.typeOf)
      | none => return .string (← request (.eval x env)).typeOf
    | .delete =>
      match x with
      | .var .. | .bare .. => return .bool false
      | .member .. | .index .. =>
        match ← request (.refer x env) with
        | .property o k => act c [] (deleteProperty o k)
        | .binding _ => pure ()
        return .bool true
      | _ =>
        let _ ← request (.eval x env)
        return .bool true
    | .neg => return .number (-(← request (.eval x env)).toNumber)
    | .plus => return .number (← request (.eval x env)).toNumber
    | .not => return .bool !(← request (.eval x env)).isTruthy
    | .void =>
      let _ ← request (.eval x env)
      return .undefined
  | .postfixed p op x => do
    let r ← request (.refer x env)
    match op with
    | .inc => return .number (← update c p x.pos env r 1).1
    | .dec => return .number (← update c p x.pos env r (-1)).1
  | .binary p op l r => do
    match op with
    | .assign =>
      let ref ← request (.refer l env)
      let v ← request (.eval r env)
      act c (ref.shown v) (write c p env ref v)
      return v
    | .assignWith op =>
      let ref ← request (.refer l env)
      let old ← act c [] (read c l.pos env ref)
      let new ← request (.eval r env)
      let v ← act c (op.shown old new) (arithmetic op old new)
      act c (ref.shown v) (write c p env ref v)
      return v
    | .comma =>
      let _ ← request (.eval l env)
      request (.eval r env)
    | .or =>
      let v ← request (.eval l env)
      if v.isTruthy then return v else request (.eval r env)
    | .and =>
      let v ← request (.eval l env)
      if v.isTruthy then request (.eval r env) else return v
    | .eager op =>
      let v ← request (.eval l env)
      let w ← request (.eval r env)
      act c (op.shown v w) (operate c p op v w)
  | .cond _ t yes no => do
    if (← request (.eval t env)).isTruthy then request (.eval yes env) else request (.eval no env)
  | .literal _ l => return l.value
  | .array _ es => do
    let vs ← request (.evalAll es env)
    act c [] (onStore (·.newArray vs.toArray))
  | .object _ ps => do
    let ps ← request (.evalProperties ps env)
    act c [] (onStore (·.newObject ⟨.ofList ps, none⟩))
  | .func _ f => do
    let v ← act c [] (closure f env)
    match f.name with
    | some s => act c [] (modifyStore (·.define env s v))
    | none => pure ()
    return v

def Expr.referenceCode (env : FrameId) : Expr → Code Reference
  | .var _ s => return .binding s
  | .member _ q n => do
    let o ← request (.eval q env)
    let k ← act c [] (memberKey c n)
    return .property o k
  | .index _ a i => do
    let o ← request (.eval a env)
    let v ← request (.eval i env)
    let k ← act c [v] (text v)
    return .property o k
  | .bare p name => act c [] (raiseUnbound c p name)
  | e => act c [] (raise c e.pos .referenceError "Invalid assignment target")

def Stmt.code (label : Option String) (env : FrameId) : Stmt → Code Flow
  | .expr _ e => do
    if e.isDeclaration then return .next
    else
      let _ ← request (.eval e env)
      return .next
  | .vars _ ds => do
    request (.declare ds env)
    return .next
  | .ret _ e =>
    return .returns (← Code.together c (fun _ inside _ _ => .result inside) (optional e env))
  | .raise p e => do
    let v ← request (.eval e env)
    act c [] (do recordThrow c; throw (.thrown v p))
  | .branch _ t yes no => do
    if (← request (.eval t env)).isTruthy then
      act c [] (tick c)
      request (.exec yes none env)
    else
      match no with
      | none => return .next
      | some s =>
        act c [] (tick c)
        request (.exec s none env)
  | .whileLoop p t b =>
    again (.exec (.whileLoop p t b) label env) do
      if (← request (.eval t env)).isTruthy then
        act c [] (tick c)
        return (← request (.exec b none env)).leaving? label
      else return some .next
  | .doWhile p b t =>
    again (.exec (.doWhile p b t) label env) do
      act c [] (tick c)
      match (← request (.exec b none env)).leaving? label with
      | some flow => return some flow
      | none => if (← request (.eval t env)).isTruthy then return none else return some .next
  | .forLoop _ init t incr b => do
    start init env
    request (.turns t incr b label env)
  | .forIn _ k _ o b => do
    let ks ← act c [] (keys (← request (.eval o env)))
    request (.visit k b label env ks)
  | .block _ ⟨ss, _⟩ => request (.execAll ss env)
  | .tryBlock _ ⟨ss, _⟩ cs cleanup => do
    let outcome ← (request (.execAll ss env)).attempt
    let outcome ← Code.handle c cs outcome env
    Code.finish cleanup outcome env
  | .labeled _ l b => do
    unless b.isLoop do act c [] (tick c)
    return (← request (.exec b (some l) env)).behind l
  | .breakTo _ l => return .breaks l
  | .continueTo _ l => return .continues l
  | .switch _ d cs => do
    let v ← request (.eval d env)
    match (← request (.select cs v env)) <|> cs.findIdx? (·.test.isNone) with
    | some start => request (.execCases cs start env)
    | none => return .next
  | .empty _ => return .next

/-- What a task does, down to the tasks it asks for. -/
def Task.code : {α : Type} → Task α → Code α
  | _, .eval e env => e.code c env
  | _, .refer e env => e.referenceCode c env
  | _, .evalAll [] _ => return []
  | _, .evalAll (e :: es) env => do
    let v ← request (.eval e env)
    let vs ← request (.evalAll es env)
    return v :: vs
  | _, .evalProperties [] _ => return []
  | _, .evalProperties (⟨k, e⟩ :: ps) env => do
    let v ← request (.eval e env)
    let vs ← request (.evalProperties ps env)
    return (k, v) :: vs
  | _, .declare [] _ => return ()
  | _, .declare (⟨s, some e, _⟩ :: ds) env => do
    let v ← request (.eval e env)
    act c [] (bindIn env env s v)
    request (.declare ds env)
  | _, .declare (⟨s, none, _⟩ :: ds) env => do
    act c [] (modifyStore (·.declare env s))
    request (.declare ds env)
  | _, .select [] _ _ => return none
  | _, .select (⟨none, _⟩ :: cs) v env => return (← request (.select cs v env)).map (· + 1)
  | _, .select (⟨some t, _⟩ :: cs) v env => do
    if (← request (.eval t env)).strictEquals v then return some 0
    else return (← request (.select cs v env)).map (· + 1)
  | _, .exec s label env => s.code c label env
  | _, .execAll [] _ => return .next
  | _, .execAll (s :: ss) env => do
    act c [] (tick c)
    match ← request (.exec s none env) with
    | .next => request (.execAll ss env)
    | flow => return flow
  | _, .turns t incr b label env =>
    again (.turns t incr b label env) do
      if ← holds t env then
        act c [] (tick c)
        match (← request (.exec b none env)).leaving? label with
        | some flow => return some flow
        | none =>
          let _ ← optional incr env
          return none
      else return some .next
  | _, .visit _ _ _ _ [] => return .next
  | _, .visit k b label env (key :: ks) =>
    again (.visit k b label env ks) do
      act c [] (bindIn env env k (.string key))
      act c [] (tick c)
      return (← request (.exec b none env)).leaving? label
  | _, .execCases [] _ _ => return .next
  | _, .execCases (_ :: cs) (n + 1) env => request (.execCases cs n env)
  | _, .execCases (⟨_, ss⟩ :: cs) 0 env => do
    match ← request (.execAll ss env) with
    | .next => request (.execCases cs 0 env)
    | .breaks none => return .next
    | flow => return flow
  | _, .call callee args pos => Code.together c (.call callee args) (invoke c callee args pos)

end

/-! ## Derivations -/

/-- Every frame comes after its parent, so that looking for a binding ends; closures are made in
frames. -/
structure Store.Grounded (h : Store) : Prop where
  parent_lt : ∀ f p, h.parent? f = some p → p.index < f.index
  has_env : ∀ r cl, h.closure? r = some cl → h.Has cl.env

/-- Code comes to an end. Derivations are finite, and so are the texts and the environments that
operations look through. -/
inductive Runs (c : Setting) : {α : Type} → Code α → Machine → Except Abrupt α × Machine → Prop
  | ret {α : Type} (r : Except Abrupt α) (m : Machine) : Runs c (.ret r) m (r, m)
  | perform {α β : Type} {shown : Machine → List Value} {x : Eval β}
      {next : Except Abrupt β → Code α} {m : Machine}
      {out : Except Abrupt α × Machine} (hm : m.store.Grounded)
        (hs : ∀ v ∈ shown m, ∃ s, m.store.HasText v s)
      (hx : Runs c (next (x.go m).1) (x.go m).2 out) : Runs c (.perform shown x next) m out
  | ask {α β : Type} {t : Task β} {next : Except Abrupt β → Code α} {m n : Machine}
      {r : Except Abrupt β}
      {out : Except Abrupt α × Machine} (ht : Runs c (t.code c) m (r, n))
        (hx : Runs c (next r) n out) :
      Runs c (.ask t next) m out

/-- What code comes to, operations taken as they are. -/
inductive Comes (c : Setting) : {α : Type} → Code α → Machine → Except Abrupt α × Machine → Prop
  | ret {α : Type} (r : Except Abrupt α) (m : Machine) : Comes c (.ret r) m (r, m)
  | perform {α β : Type} {shown : Machine → List Value} {x : Eval β}
      {next : Except Abrupt β → Code α} {m : Machine}
      {out : Except Abrupt α × Machine} (hx : Comes c (next (x.go m).1) (x.go m).2 out) :
      Comes c (.perform shown x next) m out
  | ask {α β : Type} {t : Task β} {next : Except Abrupt β → Code α} {m n : Machine}
      {r : Except Abrupt β}
      {out : Except Abrupt α × Machine} (ht : Comes c (t.code c) m (r, n))
        (hx : Comes c (next r) n out) :
      Comes c (.ask t next) m out

/-- On the way, code turns a value into text. -/
inductive Converts (c : Setting) : {α : Type} → Code α → Machine → Store → Value → Prop
  | here {α β : Type} {shown : Machine → List Value} {x : Eval β} {next : Except Abrupt β → Code α}
      {m : Machine}
      {v : Value} (hv : v ∈ shown m) : Converts c (.perform shown x next) m m.store v
  | later {α β : Type} {shown : Machine → List Value} {x : Eval β} {next : Except Abrupt β → Code α}
      {m : Machine}
      {h : Store} {v : Value} (hx : Converts c (next (x.go m).1) (x.go m).2 h v) :
      Converts c (.perform shown x next) m h v
  | inside {α β : Type} {t : Task β} {next : Except Abrupt β → Code α} {m : Machine} {h : Store}
      {v : Value}
      (ht : Converts c (t.code c) m h v) : Converts c (.ask t next) m h v
  | behind {α β : Type} {t : Task β} {next : Except Abrupt β → Code α} {m n : Machine}
      {r : Except Abrupt β}
      {h : Store} {v : Value} (ht : Runs c (t.code c) m (r, n)) (hx : Converts c (next r) n h v) :
      Converts c (.ask t next) m h v

section

variable {c : Setting} {α β : Type} {x : Code α} {m n : Machine} {r : Except Abrupt α} {h : Store}
  {v : Value}

theorem Runs.bind_error {e : Abrupt} (hx : Runs c x m (.error e, n)) (f : α → Code β) :
    Runs c (x >>= f) m (.error e, n) := by
  generalize hout : (Except.error e, n) = out at hx
  induction hx with
  | ret r m =>
    obtain ⟨rfl, rfl⟩ := Prod.mk.inj hout
    exact .ret _ _
  | perform hm hs _ ih => exact .perform hm hs (ih f hout)
  | ask ht _ _ ih => exact .ask ht (ih f hout)

theorem Runs.bind {a : α} {f : α → Code β} {out : Except Abrupt β × Machine}
    (hx : Runs c x m (.ok a, n)) (hf : Runs c (f a) n out) :
    Runs c (x >>= f) m out := by
  generalize hr : (Except.ok a, n) = r at hx
  induction hx with
  | ret r m =>
    obtain ⟨rfl, rfl⟩ := Prod.mk.inj hr
    exact hf
  | perform hm hs _ ih => exact .perform hm hs (ih hf hr)
  | ask ht _ _ ih => exact .ask ht (ih hf hr)

/-- Computations that come to what the parts of code do come to what the code does. -/
theorem Runs.go_bind {y : Eval α} {f : α → Code β} {g : α → Eval β} (hx : Runs c x m (y.go m))
    (hf : ∀ a k, y.go m = (.ok a, k) → Runs c (f a) k ((g a).go k)) :
    Runs c (x >>= f) m ((y >>= g).go m) := by
  rw [Eval.go_bind]
  generalize y.go m = r at hx hf
  obtain ⟨e | a, k⟩ := r
  · exact hx.bind_error f
  · exact hx.bind (hf a k rfl)

theorem Runs.attempt (hx : Runs c x m (r, n)) : Runs c x.attempt m (.ok r, n) := by
  generalize hout : (r, n) = out at hx
  induction hx with
  | ret r m =>
    obtain ⟨rfl, rfl⟩ := Prod.mk.inj hout
    exact .ret _ _
  | perform hm hs _ ih => exact .perform hm hs (ih hout)
  | ask ht _ _ ih => exact .ask ht (ih hout)

theorem Runs.together (e : Store → List Event → Except Abrupt α → Store → Event)
    (hm : m.store.Grounded) (hx : Runs c x { m with trace := .of [] } (r, n))
    (hn : n.store.Grounded) :
    Runs c (Code.together c e x) m
      (r, { n with trace := .of (m.trace.val ++ [e m.store n.trace.val r n.store]) }) := by
  refine .perform hm (by simp [throws]) (hx.attempt.bind (.perform hn (by simp [throws]) ?_))
  simp only [go_modify, Ghost.bind_eq, Ghost.map_eq, Ghost.val_of]
  exact .ret _ _

theorem Runs.nested (hm : m.store.Grounded)
    (hx : Runs c x { m with callDepth := m.callDepth + 1 } (r, n)) (hn : n.store.Grounded) :
    Runs c (Code.nested c x) m (r, { n with callDepth := n.callDepth - 1 }) :=
  .perform hm (by simp [throws]) (hx.attempt.bind (.perform hn (by simp [throws]) (.ret _ _)))

theorem Runs.comes {out : Except Abrupt α × Machine} (hx : Runs c x m out) : Comes c x m out := by
  induction hx with
  | ret r m => exact .ret r m
  | perform _ _ _ ih => exact .perform ih
  | ask _ _ iht ih => exact .ask iht ih

theorem Comes.bind_error {e : Abrupt} (hx : Comes c x m (.error e, n)) (f : α → Code β) :
    Comes c (x >>= f) m (.error e, n) := by
  generalize hout : (Except.error e, n) = out at hx
  induction hx with
  | ret r m =>
    obtain ⟨rfl, rfl⟩ := Prod.mk.inj hout
    exact .ret _ _
  | perform _ ih => exact .perform (ih f hout)
  | ask ht _ _ ih => exact .ask ht (ih f hout)

theorem Comes.bind {a : α} {f : α → Code β} {out : Except Abrupt β × Machine}
    (hx : Comes c x m (.ok a, n)) (hf : Comes c (f a) n out) :
    Comes c (x >>= f) m out := by
  generalize hr : (Except.ok a, n) = r at hx
  induction hx with
  | ret r m =>
    obtain ⟨rfl, rfl⟩ := Prod.mk.inj hr
    exact hf
  | perform _ ih => exact .perform (ih hf hr)
  | ask ht _ _ ih => exact .ask ht (ih hf hr)

theorem Comes.go_bind {y : Eval α} {f : α → Code β} {g : α → Eval β} (hx : Comes c x m (y.go m))
    (hf : ∀ a k, y.go m = (.ok a, k) → Comes c (f a) k ((g a).go k)) :
    Comes c (x >>= f) m ((y >>= g).go m) := by
  rw [Eval.go_bind]
  generalize y.go m = r at hx hf
  obtain ⟨e | a, k⟩ := r
  · exact hx.bind_error f
  · exact hx.bind (hf a k rfl)

theorem Comes.attempt (hx : Comes c x m (r, n)) : Comes c x.attempt m (.ok r, n) := by
  generalize hout : (r, n) = out at hx
  induction hx with
  | ret r m =>
    obtain ⟨rfl, rfl⟩ := Prod.mk.inj hout
    exact .ret _ _
  | perform _ ih => exact .perform (ih hout)
  | ask ht _ _ ih => exact .ask ht (ih hout)

theorem Comes.together (e : Store → List Event → Except Abrupt α → Store → Event)
    (hx : Comes c x { m with trace := .of [] } (r, n)) :
    Comes c (Code.together c e x) m
      (r, { n with trace := .of (m.trace.val ++ [e m.store n.trace.val r n.store]) }) := by
  refine .perform (hx.attempt.bind (.perform ?_))
  simp only [go_modify, Ghost.bind_eq, Ghost.map_eq, Ghost.val_of]
  exact .ret _ _

theorem Comes.nested (hx : Comes c x { m with callDepth := m.callDepth + 1 } (r, n)) :
    Comes c (Code.nested c x) m (r, { n with callDepth := n.callDepth - 1 }) :=
  .perform (hx.attempt.bind (.perform (.ret _ _)))

theorem Converts.bind_left (hx : Converts c x m h v) (f : α → Code β) :
    Converts c (x >>= f) m h v := by
  induction hx with
  | here hv => exact .here hv
  | later _ ih => exact .later (ih f)
  | inside ht => exact .inside ht
  | behind ht _ ih => exact .behind ht (ih f)

theorem Converts.bind_right {a : α} {f : α → Code β} (hx : Runs c x m (.ok a, n))
    (hf : Converts c (f a) n h v) :
    Converts c (x >>= f) m h v := by
  generalize hr : (Except.ok a, n) = r at hx
  induction hx with
  | ret r m =>
    obtain ⟨rfl, rfl⟩ := Prod.mk.inj hr
    exact hf
  | perform _ _ _ ih => exact .later (ih hf hr)
  | ask ht _ _ ih => exact .behind ht (ih hf hr)

theorem Converts.attempt (hx : Converts c x m h v) : Converts c x.attempt m h v := by
  induction hx with
  | here hv => exact .here hv
  | later _ ih => exact .later ih
  | inside ht => exact .inside ht
  | behind ht _ ih => exact .behind ht ih

theorem Converts.together {e : Store → List Event → Except Abrupt α → Store → Event}
    (hx : Converts c x { m with trace := .of [] } h v) : Converts c (Code.together c e x) m h v :=
  .later (hx.attempt.bind_left _)

theorem Converts.nested (hx : Converts c x { m with callDepth := m.callDepth + 1 } h v) :
    Converts c (Code.nested c x) m h v :=
  .later (hx.attempt.bind_left _)

end

end FrameLedger
