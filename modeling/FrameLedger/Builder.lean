import FrameLedger.Program

/-!
# Putting a program together

A builder holds the program so far, the position new nodes take and the scope new names are declared
in. Names are declared in the order in which nodes are made, which fixes the numbers of symbols and
scopes. `function` and `catchClause` open a scope for the time their body is made.
-/

namespace FrameLedger

structure Builder where
  program : Program
  pos : Position
  scope : ScopeId

namespace Builder

/-- An empty program; nodes are attributed to line `1` of the file. -/
def start (file : String) : Builder := ⟨.empty, ⟨file, 1⟩, ScopeTable.program⟩

variable {m : Type → Type} [Monad m] [MonadStateOf Builder m]

def getPos : m Position := return (← get).pos

/-- Runs an operation of the scope table. -/
def onTable {α : Type} (f : ScopeTable → α × ScopeTable) : m α :=
  modifyGet fun b =>
    let (a, t) := f b.program.table
    (a, { b with program := { b.program with table := t } })

def declareIn (sc : ScopeId) (ident : String) : m SymbolId := onTable (·.declare sc ident)

def declareGlobal (ident : String) : m SymbolId := declareIn ScopeTable.program ident

def declareLocal (ident : String) : m SymbolId := do declareIn (← get).scope ident

def lookup (ident : String) : m (Option SymbolId) := do
  let b ← get
  return b.program.table.lookup b.scope ident

/-- The symbol an identifier stands for here; one that stands for nothing is declared globally. -/
def resolve (ident : String) : m SymbolId := do
  match ← lookup ident with
  | some s => return s
  | none => declareGlobal ident

def rootName (ident : String) : m (Option SymbolId) := return (← get).program.table.rootName ident

def modifyProgram (f : Program → Program) : m Unit :=
  modify fun b => { b with program := f b.program }

def indexFunction (key : String) (s : SymbolId) : m Unit :=
  modifyProgram fun p => { p with indexed := p.indexed.insert key s }

def markImmortal (s : SymbolId) : m Unit :=
  modifyProgram fun p => { p with immortal := p.immortal.insert s () }

/-- Appends a statement to the global code. -/
def push (s : Stmt) : m Unit :=
  modifyProgram fun p => { p with code := { p.code with stmts := p.code.stmts ++ [s] } }

variable {α : Type}

/-- Makes nodes at another position. -/
def withPos (p : Position) (x : m α) : m α := do
  let old ← getPos
  modify fun b => { b with pos := p }
  let a ← x
  modify fun b => { b with pos := old }
  return a

/-- Makes nodes inside another scope. -/
def withScope (sc : ScopeId) (x : m α) : m α := do
  let old := (← get).scope
  modify fun b => { b with scope := sc }
  let a ← x
  modify fun b => { b with scope := old }
  return a

/-- A function whose name is declared in the current scope and whose parameters in its own. -/
def function (name : Option String) (params : List String) (body : List SymbolId → m (List Stmt)) :
    m Func := do
  let pos ← getPos
  let name ← name.mapM declareLocal
  let scope ← onTable (·.newScope .function (← get).scope)
  let params ← params.mapM (declareIn scope)
  let stmts ← withScope scope (body params)
  return ⟨name, params, ⟨stmts, pos⟩, scope, pos⟩

/-- A named function as a statement, with the symbol of its name. -/
def functionDecl (name : String) (params : List String) (body : List SymbolId → m (List Stmt)) :
    m (SymbolId × Stmt) := do
  let f ← function (some name) params body
  let s ← declareLocal name
  return (s, .ofExpr (.func f.pos f))

def catchClause (param : String) (body : SymbolId → m (List Stmt)) : m Catch := do
  let pos ← getPos
  let scope ← onTable (·.newScope .catch (← get).scope)
  let param ← declareIn scope param
  let stmts ← withScope scope (body param)
  return ⟨param, scope, ⟨stmts, pos⟩, pos⟩

/-- Declares `function wrap(e) { return e; }` and enters it under `wrapKey`. -/
def defineWrap : m SymbolId := do
  let (s, decl) ← functionDecl "wrap" ["e"] fun params => do
    let pos ← getPos
    return [.ret pos (params.head?.map (.var pos))]
  push decl
  indexFunction wrapKey s
  return s

end Builder

end FrameLedger
