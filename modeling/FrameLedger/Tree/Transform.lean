import FrameLedger.Tree.Basic

/-!
# Transformations of whole trees

`traverseVars` renames variable references and nothing else: what is declared, assigned by a loop
over keys or written after a dot keeps its symbol. `mapFuncs` replaces functions, inner ones before
those around them, in the order in which they are evaluated.
-/

namespace FrameLedger

section

variable {m : Type → Type} [Monad m] (f : SymbolId → m SymbolId)

mutual

def Expr.traverseVars : Expr → m Expr
  | .var p s => return .var p (← f s)
  | .bare p n => return .bare p n
  | .member p q n => return .member p (← q.traverseVars) n
  | .index p a i => return .index p (← a.traverseVars) (← i.traverseVars)
  | .call p g as => return .call p (← g.traverseVars) (← exprsTraverseVars as)
  | .new p g as => return .new p (← g.traverseVars) (← exprsTraverseVars as)
  | .prefixed p op x => return .prefixed p op (← x.traverseVars)
  | .postfixed p op x => return .postfixed p op (← x.traverseVars)
  | .binary p op l r => return .binary p op (← l.traverseVars) (← r.traverseVars)
  | .cond p c t e => return .cond p (← c.traverseVars) (← t.traverseVars) (← e.traverseVars)
  | .literal p l => return .literal p l
  | .array p es => return .array p (← exprsTraverseVars es)
  | .object p ps => return .object p (← propertiesTraverseVars ps)
  | .func p g => return .func p (← g.traverseVars)

def exprsTraverseVars : List Expr → m (List Expr)
  | [] => return []
  | e :: es => return (← e.traverseVars) :: (← exprsTraverseVars es)

def exprTraverseVars? : Option Expr → m (Option Expr)
  | none => return none
  | some e => return some (← e.traverseVars)

def propertiesTraverseVars : List Property → m (List Property)
  | [] => return []
  | ⟨k, e⟩ :: ps => return ⟨k, ← e.traverseVars⟩ :: (← propertiesTraverseVars ps)

def Func.traverseVars : Func → m Func
  | ⟨n, ps, b, sc, p⟩ => return ⟨n, ps, ← b.traverseVars, sc, p⟩

def Block.traverseVars : Block → m Block
  | ⟨ss, p⟩ => return ⟨← stmtsTraverseVars ss, p⟩

def blockTraverseVars? : Option Block → m (Option Block)
  | none => return none
  | some b => return some (← b.traverseVars)

def declsTraverseVars : List VarDecl → m (List VarDecl)
  | [] => return []
  | ⟨s, e, p⟩ :: ds => return ⟨s, ← exprTraverseVars? e, p⟩ :: (← declsTraverseVars ds)

def forInitTraverseVars : Option ForInit → m (Option ForInit)
  | none => return none
  | some (.vars ds) => return some (.vars (← declsTraverseVars ds))
  | some (.expr e) => return some (.expr (← e.traverseVars))

def catchesTraverseVars : List Catch → m (List Catch)
  | [] => return []
  | ⟨s, sc, b, p⟩ :: cs => return ⟨s, sc, ← b.traverseVars, p⟩ :: (← catchesTraverseVars cs)

def casesTraverseVars : List SwitchCase → m (List SwitchCase)
  | [] => return []
  | ⟨t, ss⟩ :: cs =>
    return ⟨← exprTraverseVars? t, ← stmtsTraverseVars ss⟩ :: (← casesTraverseVars cs)

def stmtsTraverseVars : List Stmt → m (List Stmt)
  | [] => return []
  | s :: ss => return (← s.traverseVars) :: (← stmtsTraverseVars ss)

def stmtTraverseVars? : Option Stmt → m (Option Stmt)
  | none => return none
  | some s => return some (← s.traverseVars)

def Stmt.traverseVars : Stmt → m Stmt
  | .expr p e => return .expr p (← e.traverseVars)
  | .vars p ds => return .vars p (← declsTraverseVars ds)
  | .ret p e => return .ret p (← exprTraverseVars? e)
  | .raise p e => return .raise p (← e.traverseVars)
  | .branch p c t e =>
    return .branch p (← c.traverseVars) (← t.traverseVars) (← stmtTraverseVars? e)
  | .whileLoop p c b => return .whileLoop p (← c.traverseVars) (← b.traverseVars)
  | .doWhile p b c => return .doWhile p (← b.traverseVars) (← c.traverseVars)
  | .forLoop p i c n b =>
    return .forLoop p (← forInitTraverseVars i) (← exprTraverseVars? c) (← exprTraverseVars? n)
      (← b.traverseVars)
  | .forIn p k d o b => return .forIn p k d (← o.traverseVars) (← b.traverseVars)
  | .block p b => return .block p (← b.traverseVars)
  | .tryBlock p b cs c =>
    return .tryBlock p (← b.traverseVars) (← catchesTraverseVars cs) (← blockTraverseVars? c)
  | .labeled p l b => return .labeled p l (← b.traverseVars)
  | .breakTo p l => return .breakTo p l
  | .continueTo p l => return .continueTo p l
  | .switch p d cs => return .switch p (← d.traverseVars) (← casesTraverseVars cs)
  | .empty p => return .empty p

end

end

section

variable {m : Type → Type} [Monad m] (f : Func → m Func)

mutual

def Expr.mapFuncs : Expr → m Expr
  | .var p s => return .var p s
  | .bare p n => return .bare p n
  | .member p q n => return .member p (← q.mapFuncs) n
  | .index p a i => return .index p (← a.mapFuncs) (← i.mapFuncs)
  | .call p g as => return .call p (← g.mapFuncs) (← exprsMapFuncs as)
  | .new p g as => return .new p (← g.mapFuncs) (← exprsMapFuncs as)
  | .prefixed p op x => return .prefixed p op (← x.mapFuncs)
  | .postfixed p op x => return .postfixed p op (← x.mapFuncs)
  | .binary p op l r => return .binary p op (← l.mapFuncs) (← r.mapFuncs)
  | .cond p c t e => return .cond p (← c.mapFuncs) (← t.mapFuncs) (← e.mapFuncs)
  | .literal p l => return .literal p l
  | .array p es => return .array p (← exprsMapFuncs es)
  | .object p ps => return .object p (← propertiesMapFuncs ps)
  | .func p g => return .func p (← g.mapFuncs)

def exprsMapFuncs : List Expr → m (List Expr)
  | [] => return []
  | e :: es => return (← e.mapFuncs) :: (← exprsMapFuncs es)

def exprMapFuncs? : Option Expr → m (Option Expr)
  | none => return none
  | some e => return some (← e.mapFuncs)

def propertiesMapFuncs : List Property → m (List Property)
  | [] => return []
  | ⟨k, e⟩ :: ps => return ⟨k, ← e.mapFuncs⟩ :: (← propertiesMapFuncs ps)

def Func.mapFuncs : Func → m Func
  | ⟨n, ps, b, sc, p⟩ => do f ⟨n, ps, ← b.mapFuncs, sc, p⟩

def Block.mapFuncs : Block → m Block
  | ⟨ss, p⟩ => return ⟨← stmtsMapFuncs ss, p⟩

def blockMapFuncs? : Option Block → m (Option Block)
  | none => return none
  | some b => return some (← b.mapFuncs)

def declsMapFuncs : List VarDecl → m (List VarDecl)
  | [] => return []
  | ⟨s, e, p⟩ :: ds => return ⟨s, ← exprMapFuncs? e, p⟩ :: (← declsMapFuncs ds)

def forInitMapFuncs : Option ForInit → m (Option ForInit)
  | none => return none
  | some (.vars ds) => return some (.vars (← declsMapFuncs ds))
  | some (.expr e) => return some (.expr (← e.mapFuncs))

def catchesMapFuncs : List Catch → m (List Catch)
  | [] => return []
  | ⟨s, sc, b, p⟩ :: cs => return ⟨s, sc, ← b.mapFuncs, p⟩ :: (← catchesMapFuncs cs)

def casesMapFuncs : List SwitchCase → m (List SwitchCase)
  | [] => return []
  | ⟨t, ss⟩ :: cs => return ⟨← exprMapFuncs? t, ← stmtsMapFuncs ss⟩ :: (← casesMapFuncs cs)

def stmtsMapFuncs : List Stmt → m (List Stmt)
  | [] => return []
  | s :: ss => return (← s.mapFuncs) :: (← stmtsMapFuncs ss)

def stmtMapFuncs? : Option Stmt → m (Option Stmt)
  | none => return none
  | some s => return some (← s.mapFuncs)

def Stmt.mapFuncs : Stmt → m Stmt
  | .expr p e => return .expr p (← e.mapFuncs)
  | .vars p ds => return .vars p (← declsMapFuncs ds)
  | .ret p e => return .ret p (← exprMapFuncs? e)
  | .raise p e => return .raise p (← e.mapFuncs)
  | .branch p c t e => return .branch p (← c.mapFuncs) (← t.mapFuncs) (← stmtMapFuncs? e)
  | .whileLoop p c b => return .whileLoop p (← c.mapFuncs) (← b.mapFuncs)
  | .doWhile p b c => return .doWhile p (← b.mapFuncs) (← c.mapFuncs)
  | .forLoop p i c n b =>
    return .forLoop p (← forInitMapFuncs i) (← exprMapFuncs? c) (← exprMapFuncs? n) (← b.mapFuncs)
  | .forIn p k d o b => return .forIn p k d (← o.mapFuncs) (← b.mapFuncs)
  | .block p b => return .block p (← b.mapFuncs)
  | .tryBlock p b cs c =>
    return .tryBlock p (← b.mapFuncs) (← catchesMapFuncs cs) (← blockMapFuncs? c)
  | .labeled p l b => return .labeled p l (← b.mapFuncs)
  | .breakTo p l => return .breakTo p l
  | .continueTo p l => return .continueTo p l
  | .switch p d cs => return .switch p (← d.mapFuncs) (← casesMapFuncs cs)
  | .empty p => return .empty p

end

end

end FrameLedger
