import Mathlib
import FrameLedger.Emulation.Pass

/-!
# What framed code looks like

The shape of code that keeps a frame, beside the code it was made from. `Expr.Framed`, `Stmt.Framed`
and `stmtsFramedAs` say which trees may stand for which; they leave open what the pass decides by
its own state: where a location is noted, under which symbols the frame is kept. Nested functions
are not looked into, the relation `Layout.pairs` says what became of them. Code that keeps no frame,
such as the global code, differs in nothing but its functions.
-/

namespace FrameLedger

/-- The symbols under which a function keeps its frame. -/
structure Own where
  index : SymbolId
  temp : Option SymbolId
  flags : List SymbolId

/-- What is the same for all code of a program. -/
structure Layout where
  vars : StackVars
  wrap : SymbolId
  /-- The symbols of the program itself are those below. -/
  base : Nat
  /-- Which of these the program binds only once and never assigns. -/
  kept : SymbolId → Prop
  /-- Which function became which. -/
  pairs : Func → Func → Prop
  /-- Which functions keep no frame although they have a body. -/
  exempt : Func → Prop
  /-- Which `try` statements there may be, by catch clauses and `finally` block. -/
  tries : Option Own → List Catch → Option Block → Prop

/-- A symbol that the program may bind and assign. -/
def Layout.Writes (L : Layout) (s : SymbolId) : Prop := s.index < L.base ∧ ¬ L.kept s

/-- What a piece of code is part of. -/
structure Site extends Layout where
  /-- `none` for code that keeps no frame. -/
  own : Option Own

/-- Where a statement stands in its function. -/
structure Place where
  /-- `none` where a `return` pops the frame itself; else the flag of the `finally` block ahead, if
  a `return` sets it. -/
  exit : Option (Option SymbolId) := none
  inCatch : Bool := false

def MemberName.Below (n : Nat) : MemberName → Prop
  | .symbol s => s.index < n
  | .property _ => True

namespace Site

variable (K : Site)

/-- An expression that may be assigned to. -/
def Target (e : Expr) : Prop := ∀ s, e.symbol? = some s → K.Writes s

/-- An expression that may note its location first, unless it is a declaration. -/
def Noted (framed : Expr → Prop) (e' : Expr) : Prop :=
  framed e' ∨ ∃ (own : Own) (r : Recorder) (e : Expr), K.own = some own ∧
    K.vars.location = some r.location ∧ framed e ∧ e.isDeclaration = false
      ∧ e' = r.noteBefore own.index e

/-- What a `return` becomes, once its result is framed. -/
def Returned (r : Place) (p : Position) (e : Option Expr) (ss : List Stmt) : Prop :=
  match K.own with
  | none => ss = [.ret p e]
  | some own =>
    match r.exit with
    | none =>
      (∃ e₁ temp, e = some e₁ ∧ own.temp = some temp ∧ ss = [.ofExpr (.assign p (.var p temp) e₁),
        .ofExpr (popCode K.vars own.index p), .ret p (some (.var p temp))])
      ∨ (∀ e₁, e = some e₁ → e₁.hasSideEffects = false)
        ∧ ss = [.ofExpr (popCode K.vars own.index p), .ret p e]
    | some none => False
    | some (some flag) => flag ∈ own.flags ∧
      ((∃ e₁, e = some e₁ ∧
        ss = [.ret p (some (.comma p (.assign p (.var p flag) (.bool p true)) e₁))])
      ∨ e = none ∧ ss = [.ofExpr (.assign p (.var p flag) (.bool p true)), .ret p none])

/-- The depth is reset behind a statement that wraps what was caught. -/
def Reset (r : Place) (s : Stmt) (framed : List Stmt → Prop) (ss : List Stmt) : Prop :=
  match K.own with
  | none => framed ss
  | some own =>
    if r.inCatch && s.assignsWrapped K.wrap then
      ∃ ss₁, framed ss₁ ∧ ss = ss₁ ++ [resetCode K.vars own.index s.pos]
    else framed ss

/-- The same where only one statement fits. -/
def Body (r : Place) (s : Stmt) (framed : List Stmt → Prop) (s' : Stmt) : Prop :=
  ∃ ss, K.Reset r s framed ss ∧ s' = oneStmt s.pos ss

/-- A `finally` block pops at its end if a `return` led to it. -/
def Guarded (flag : Option SymbolId) (b b' : Block) : Prop :=
  match K.own, flag with
  | some own, some s => s ∈ own.flags ∧
    if b.endsWithExit then b' = b
    else b' = { b with stmts := b.stmts ++
      [.ofExpr (.binary b.pos .and (.var b.pos s) (popCode K.vars own.index b.pos))] }
  | _, _ => b' = b

end Site

namespace Own

/-- The symbols of a frame. -/
def Uses (own : Own) (s : SymbolId) : Prop := s = own.index ∨ own.temp = some s ∨ s ∈ own.flags

end Own

/-- The symbols that hold the stack. -/
def StackVars.Uses (v : StackVars) (s : SymbolId) : Prop :=
  s = v.stack ∨ s = v.depth ∨ v.location = some s

section

variable (K : Site)

mutual

/-- What an expression becomes, apart from a location noted before all of it. -/
def Expr.Framed : Expr → Expr → Prop
  | .var p s, e' => s.index < K.base ∧ e' = .var p s
  | .bare p n, e' => e' = .bare p n
  | .member p q n, e' => n.Below K.base ∧ ∃ q', K.Noted q.Framed q' ∧ e' = .member p q' n
  | .index p a i, e' => ∃ a' i', K.Noted a.Framed a' ∧ K.Noted i.Framed i' ∧ e' = .index p a' i'
  | .call p f as, e' => ∃ f' as', f.Framed f' ∧ exprsFramed as as' ∧ e' = .call p f' as'
  | .new p f as, e' => ∃ f' as', K.Noted f.Framed f' ∧ exprsFramed as as' ∧ e' = .new p f' as'
  | .prefixed p op x, e' =>
    (op = .inc ∨ op = .dec → K.Target x) ∧
      ∃ x', (if op.usage = .value then K.Noted x.Framed x' else x.Framed x') ∧
        e' = .prefixed p op x'
  | .postfixed p op x, e' => K.Target x ∧ ∃ x', x.Framed x' ∧ e' = .postfixed p op x'
  | .binary p op l r, e' =>
    (op.isAssignment → K.Target l) ∧
      ∃ l' r', (if op.isAssignment then l.Framed l' else K.Noted l.Framed l')
      ∧ K.Noted r.Framed r' ∧ e' = .binary p op l' r'
  | .cond p c t f, e' =>
    ∃ c' t' f', K.Noted c.Framed c' ∧ K.Noted t.Framed t' ∧ K.Noted f.Framed f' ∧
      e' = .cond p c' t' f'
  | .literal p l, e' => e' = .literal p l
  | .array p es, e' => ∃ es', exprsFramed es es' ∧ e' = .array p es'
  | .object p ps, e' => ∃ ps', propertiesFramed ps ps' ∧ e' = .object p ps'
  | .func p f, e' => (∀ s, f.name = some s → K.Writes s) ∧ ∃ f', K.pairs f f' ∧ e' = .func p f'

def exprsFramed : List Expr → List Expr → Prop
  | [], es' => es' = []
  | e :: es, es' => ∃ e' rest, K.Noted e.Framed e' ∧ exprsFramed es rest ∧ es' = e' :: rest

def propertiesFramed : List Property → List Property → Prop
  | [], ps' => ps' = []
  | ⟨k, e⟩ :: ps, ps' =>
    ∃ e' rest, K.Noted e.Framed e' ∧ propertiesFramed ps rest ∧ ps' = ⟨k, e'⟩ :: rest

end

def exprFramed? : Option Expr → Option Expr → Prop
  | none, e' => e' = none
  | some e, e' => ∃ e₁, K.Noted (e.Framed K) e₁ ∧ e' = some e₁

def declsFramed : List VarDecl → List VarDecl → Prop
  | [], ds' => ds' = []
  | ⟨s, e, p⟩ :: ds, ds' =>
    K.Writes s ∧ ∃ e' rest, exprFramed? K e e' ∧ declsFramed ds rest ∧ ds' = ⟨s, e', p⟩ :: rest

def forInitFramed : Option ForInit → Option ForInit → Prop
  | none, i' => i' = none
  | some (.vars ds), i' => ∃ ds', declsFramed K ds ds' ∧ i' = some (.vars ds')
  | some (.expr e), i' => ∃ e', K.Noted (e.Framed K) e' ∧ i' = some (.expr e')

mutual

/-- What a statement becomes, apart from a reset behind it. -/
def Stmt.Framed : Stmt → Place → List Stmt → Prop
  | .expr p e, _, ss' => ∃ e', K.Noted (e.Framed K) e' ∧ ss' = [.expr p e']
  | .vars p ds, _, ss' => ∃ ds', declsFramed K ds ds' ∧ ss' = [.vars p ds']
  | .ret p e, r, ss' => ∃ e', exprFramed? K e e' ∧ K.Returned r p e' ss'
  | .raise p e, _, ss' => ∃ e', K.Noted (e.Framed K) e' ∧ ss' = [.raise p e']
  | .branch p t yes no, r, ss' =>
    ∃ t' yes' no', K.Noted (t.Framed K) t' ∧ K.Body r yes (yes.Framed r) yes' ∧
      stmtFramedAs? no r no'
      ∧ ss' = [.branch p t' yes' no']
  | .whileLoop p t b, r, ss' =>
    ∃ t' b', K.Noted (t.Framed K) t' ∧ K.Body r b (b.Framed r) b' ∧ ss' = [.whileLoop p t' b']
  | .doWhile p b t, r, ss' =>
    ∃ b' t', K.Body r b (b.Framed r) b' ∧ K.Noted (t.Framed K) t' ∧ ss' = [.doWhile p b' t']
  | .forLoop p init t incr b, r, ss' =>
    ∃ init' t' incr' b', forInitFramed K init init' ∧ exprFramed? K t t' ∧ exprFramed? K incr incr'
      ∧ K.Body r b (b.Framed r) b' ∧ ss' = [.forLoop p init' t' incr' b']
  | .forIn p k declared o b, r, ss' =>
    K.Writes k ∧ ∃ o' b', K.Noted (o.Framed K) o' ∧ K.Body r b (b.Framed r) b'
      ∧ ss' = [.forIn p k declared o' b']
  | .block p ⟨ss, q⟩, r, ss' => ∃ ss₁, stmtsFramedAs ss r ss₁ ∧ ss' = [.block p ⟨ss₁, q⟩]
  | .tryBlock p ⟨ss, q⟩ cs none, r, ss' =>
    K.tries K.own cs none ∧ ∃ ss₁ cs', stmtsFramedAs ss r ss₁ ∧ catchesFramedAs cs r cs'
      ∧ ss' = [.tryBlock p ⟨ss₁, q⟩ cs' none]
  | .tryBlock p ⟨ss, q⟩ cs (some ⟨fs, fq⟩), r, ss' =>
    K.tries K.own cs (some ⟨fs, fq⟩) ∧
      ∃ ss₁ cs' fs' f', stmtsFramedAs fs r fs' ∧ ss' = [.tryBlock p ⟨ss₁, q⟩ cs' (some f')] ∧
      match K.own, r.exit with
      | some own, none =>
        ∃ flag, stmtsFramedAs ss { r with exit := some flag } ss₁ ∧ K.Guarded flag ⟨fs', fq⟩ f' ∧
          match cs with
          | [] => ∃ e sc, K.base ≤ e.index ∧ ¬ K.vars.Uses e ∧ ¬ own.Uses e
            ∧ cs' = [rethrowCode K.vars K.wrap own.index e sc p]
          | _ :: _ => catchesFramedAs cs { r with exit := some flag } cs'
      | _, _ => stmtsFramedAs ss r ss₁ ∧ catchesFramedAs cs r cs' ∧ f' = ⟨fs', fq⟩
  | .labeled p l b, r, ss' => ∃ b', K.Body r b (b.Framed r) b' ∧ ss' = [.labeled p l b']
  | .breakTo p l, _, ss' => ss' = [.breakTo p l]
  | .continueTo p l, _, ss' => ss' = [.continueTo p l]
  | .switch p d cs, r, ss' =>
    ∃ d' cs', K.Noted (d.Framed K) d' ∧ casesFramedAs cs r cs' ∧ ss' = [.switch p d' cs']
  | .empty p, _, ss' => ss' = [.empty p]
termination_by structural s => s

def stmtsFramedAs : List Stmt → Place → List Stmt → Prop
  | [], _, ss' => ss' = []
  | s :: ss, r, ss' =>
    ∃ first rest, K.Reset r s (s.Framed r) first ∧ stmtsFramedAs ss r rest ∧ ss' = first ++ rest
termination_by structural ss => ss

def stmtFramedAs? : Option Stmt → Place → Option Stmt → Prop
  | none, _, s' => s' = none
  | some s, r, s' => ∃ s₁, K.Body r s (s.Framed r) s₁ ∧ s' = some s₁
termination_by structural s => s

def catchesFramedAs : List Catch → Place → List Catch → Prop
  | [], _, cs' => cs' = []
  | ⟨s, sc, ⟨ss, q⟩, p⟩ :: cs, r, cs' =>
    K.Writes s ∧ ∃ ss' rest, stmtsFramedAs ss { r with inCatch := true } ss'
      ∧ catchesFramedAs cs r rest ∧ cs' = ⟨s, sc, ⟨ss', q⟩, p⟩ :: rest
termination_by structural cs => cs

def casesFramedAs : List SwitchCase → Place → List SwitchCase → Prop
  | [], _, cs' => cs' = []
  | ⟨t, ss⟩ :: cs, r, cs' =>
    ∃ t' ss' rest, exprFramed? K t t' ∧ stmtsFramedAs ss r ss' ∧ casesFramedAs cs r rest
      ∧ cs' = ⟨t', ss'⟩ :: rest
termination_by structural cs => cs

end

end

/-- A name stays the name that it is. -/
theorem Expr.Framed.symbol?_eq {K : Site} {e e' : Expr} (h : e.Framed K e') :
    e'.symbol? = e.symbol? := by
  cases e with
  | var p s =>
    obtain ⟨-, rfl⟩ := h
    rfl
  | _ =>
    simp only [Expr.Framed] at h
    grind [Expr.symbol?]

theorem Expr.Framed.symbol_lt {K : Site} {e e' : Expr} (h : e.Framed K e') {s : SymbolId}
    (hs : e.symbol? = some s) :
    s.index < K.base := by
  cases e with
  | var p t =>
    obtain rfl := Option.some.inj hs
    exact h.1
  | _ => cases hs

/-- The body of a function that keeps a frame: its variables are declared in front, the push stands
behind a leading `var` statement, and a pop at the end unless the end is not reached. -/
def assembled (v : StackVars) (f : Func) (index : SymbolId) (declared : List SymbolId)
    (ss : List Stmt) :
    List Stmt :=
  let ss := afterVars (pushCode v index f.name f.pos) ss
  let ss := if Block.endsWithExit ⟨ss, f.body.pos⟩ then ss
    else ss ++ [.ofExpr (popCode v index f.pos)]
  mergeVars f.pos (declared.map fun s => ⟨s, none, f.pos⟩) ss

/-- The symbols of a frame are none of the program's, and differ from each other and from those that
hold the stack. -/
structure Own.Apart (own : Own) (v : StackVars) (base : Nat) (declared : List SymbolId) : Prop where
  mem : ∀ s, own.Uses s → s ∈ declared
  fresh : ∀ s ∈ declared, base ≤ s.index ∧ ¬ v.Uses s
  temp_ne : own.temp ≠ some own.index
  index_not_mem : own.index ∉ own.flags
  temp_not_mem : ∀ s, own.temp = some s → s ∉ own.flags

/-- What becomes of a function: it gets a frame, or, if it has no body or is exempt, only the
functions in it change. -/
structure Func.FramedAs (L : Layout) (f f' : Func) : Prop where
  name : f'.name = f.name
  params : f'.params = f.params
  name_lt : ∀ s, f.name = some s → s.index < L.base
  params_write : ∀ s ∈ f.params, L.Writes s
  body :
    ((f.body.stmts = [] ∨ L.exempt f) ∧ stmtsFramedAs ⟨L, none⟩ f.body.stmts {} f'.body.stmts)
    ∨ ∃ own declared ss, own.Apart L.vars L.base declared
      ∧ stmtsFramedAs ⟨L, some own⟩ f.body.stmts {} ss
      ∧ f'.body.stmts = assembled L.vars f own.index declared ss

end FrameLedger
