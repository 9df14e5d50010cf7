import FrameLedger.Tree.Basic

/-!
# Names a body declares

Before a body runs, every `var` in it is bound, however deep it stands outside of nested functions,
and so is every named function among its own statements.
-/

namespace FrameLedger

mutual

/-- The names that `var` declares in a statement. -/
def Stmt.declared : Stmt → List SymbolId
  | .vars _ ds => ds.map (·.name)
  | .branch _ _ yes no => yes.declared ++ stmtDeclared? no
  | .whileLoop _ _ b | .doWhile _ b _ | .labeled _ _ b => b.declared
  | .forLoop _ (some (.vars ds)) _ _ b => ds.map (·.name) ++ b.declared
  | .forLoop _ _ _ _ b => b.declared
  | .forIn _ k declared _ b => (if declared then [k] else []) ++ b.declared
  | .block _ ⟨ss, _⟩ => stmtsDeclared ss
  | .tryBlock _ ⟨ss, _⟩ cs f => stmtsDeclared ss ++ (catchesDeclared cs ++ blockDeclared? f)
  | .switch _ _ cs => casesDeclared cs
  | .expr .. | .ret .. | .raise .. | .breakTo .. | .continueTo .. | .empty .. => []

def stmtsDeclared : List Stmt → List SymbolId
  | [] => []
  | s :: ss => s.declared ++ stmtsDeclared ss

def stmtDeclared? : Option Stmt → List SymbolId
  | none => []
  | some s => s.declared

def blockDeclared? : Option Block → List SymbolId
  | none => []
  | some ⟨ss, _⟩ => stmtsDeclared ss

def catchesDeclared : List Catch → List SymbolId
  | [] => []
  | ⟨_, _, ⟨ss, _⟩, _⟩ :: cs => stmtsDeclared ss ++ catchesDeclared cs

def casesDeclared : List SwitchCase → List SymbolId
  | [] => []
  | ⟨_, ss⟩ :: cs => stmtsDeclared ss ++ casesDeclared cs

end

/-- The function a statement declares, with its name. -/
def Stmt.declaration? : Stmt → Option (SymbolId × Func)
  | .expr _ (.func _ f) => f.name.map (·, f)
  | _ => none

end FrameLedger
