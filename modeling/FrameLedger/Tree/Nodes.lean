import FrameLedger.Tree.Basic

/-!
# Nodes of a tree

`Block.nodes` lists every block, statement, expression and function of a block, itself first and
nested functions included. What is asked of a whole tree is asked of this list: how many functions
it has, which symbols occur in it, which variables it refers to.

A child is listed where it is evaluated: the body of `do … while` before its test, for instance.
-/

namespace FrameLedger

inductive Node where
  | block (b : Block)
  | stmt (s : Stmt)
  | expr (e : Expr)
  | func (f : Func)

mutual

def Expr.nodes : Expr → List Node
  | e@(.var ..) | e@(.bare ..) | e@(.literal ..) => [.expr e]
  | e@(.member _ q _) => .expr e :: q.nodes
  | e@(.index _ a i) => .expr e :: (a.nodes ++ i.nodes)
  | e@(.call _ f as) => .expr e :: (f.nodes ++ exprsNodes as)
  | e@(.new _ f as) => .expr e :: (f.nodes ++ exprsNodes as)
  | e@(.prefixed _ _ x) => .expr e :: x.nodes
  | e@(.postfixed _ _ x) => .expr e :: x.nodes
  | e@(.binary _ _ l r) => .expr e :: (l.nodes ++ r.nodes)
  | e@(.cond _ c t f) => .expr e :: (c.nodes ++ (t.nodes ++ f.nodes))
  | e@(.array _ es) => .expr e :: exprsNodes es
  | e@(.object _ ps) => .expr e :: propertiesNodes ps
  | e@(.func _ f) => .expr e :: f.nodes

def exprsNodes : List Expr → List Node
  | [] => []
  | e :: es => e.nodes ++ exprsNodes es

def exprNodes? : Option Expr → List Node
  | none => []
  | some e => e.nodes

def propertiesNodes : List Property → List Node
  | [] => []
  | ⟨_, e⟩ :: ps => e.nodes ++ propertiesNodes ps

def Func.nodes : Func → List Node
  | f@⟨_, _, b, _, _⟩ => .func f :: b.nodes

def Block.nodes : Block → List Node
  | b@⟨ss, _⟩ => .block b :: stmtsNodes ss

def blockNodes? : Option Block → List Node
  | none => []
  | some b => b.nodes

def declsNodes : List VarDecl → List Node
  | [] => []
  | ⟨_, e, _⟩ :: ds => exprNodes? e ++ declsNodes ds

def forInitNodes : Option ForInit → List Node
  | none => []
  | some (.vars ds) => declsNodes ds
  | some (.expr e) => e.nodes

def catchesNodes : List Catch → List Node
  | [] => []
  | ⟨_, _, b, _⟩ :: cs => b.nodes ++ catchesNodes cs

def casesNodes : List SwitchCase → List Node
  | [] => []
  | ⟨t, ss⟩ :: cs => exprNodes? t ++ (stmtsNodes ss ++ casesNodes cs)

def stmtsNodes : List Stmt → List Node
  | [] => []
  | s :: ss => s.nodes ++ stmtsNodes ss

def stmtNodes? : Option Stmt → List Node
  | none => []
  | some s => s.nodes

def Stmt.nodes : Stmt → List Node
  | s@(.expr _ e) => .stmt s :: e.nodes
  | s@(.vars _ ds) => .stmt s :: declsNodes ds
  | s@(.ret _ e) => .stmt s :: exprNodes? e
  | s@(.raise _ e) => .stmt s :: e.nodes
  | s@(.branch _ c t e) => .stmt s :: (c.nodes ++ (t.nodes ++ stmtNodes? e))
  | s@(.whileLoop _ c b) => .stmt s :: (c.nodes ++ b.nodes)
  | s@(.doWhile _ b c) => .stmt s :: (b.nodes ++ c.nodes)
  | s@(.forLoop _ i c n b) =>
    .stmt s :: (forInitNodes i ++ (exprNodes? c ++ (exprNodes? n ++ b.nodes)))
  | s@(.forIn _ _ _ o b) => .stmt s :: (o.nodes ++ b.nodes)
  | s@(.block _ b) => .stmt s :: b.nodes
  | s@(.tryBlock _ b cs f) => .stmt s :: (b.nodes ++ (catchesNodes cs ++ blockNodes? f))
  | s@(.labeled _ _ b) => .stmt s :: b.nodes
  | s@(.switch _ d cs) => .stmt s :: (d.nodes ++ casesNodes cs)
  | s@(.breakTo ..) | s@(.continueTo ..) | s@(.empty ..) => [.stmt s]

end

namespace Node

/-- The symbol of a variable reference. -/
def var? : Node → Option SymbolId
  | .expr e => e.symbol?
  | _ => none

def func? : Node → Option Func
  | .func f => some f
  | _ => none

/-- The symbols a node itself names, those of its children left out. -/
def symbols : Node → List SymbolId
  | .expr (.var _ s) => [s]
  | .expr (.member _ _ (.symbol s)) => [s]
  | .stmt (.vars _ ds) => ds.map (·.name)
  | .stmt (.forLoop _ (some (.vars ds)) _ _ _) => ds.map (·.name)
  | .stmt (.forIn _ k _ _ _) => [k]
  | .stmt (.tryBlock _ _ cs _) => cs.map (·.param)
  | .func f => f.name.toList ++ f.params
  | _ => []

end Node

/-- Every variable reference, nested functions included. -/
def Block.vars (b : Block) : List SymbolId := b.nodes.filterMap Node.var?

/-- Every function, an enclosing one before those it encloses. -/
def Block.funcs (b : Block) : List Func := b.nodes.filterMap Node.func?

namespace Census

end Census

end FrameLedger
