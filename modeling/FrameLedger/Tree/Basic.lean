import FrameLedger.Operator
import FrameLedger.Position
import FrameLedger.ScopeTable

/-!
# Trees

Statements and expressions of a JavaScript-shaped language whose variables are symbols of a scope
table. Every node carries its position; functions, blocks, declarators and catch clauses carry one
of their own besides.
-/

namespace FrameLedger

inductive Literal where
  | number (x : Float)
  | string (s : String)
  | bool (b : Bool)
  | null
  | undefined
deriving DecidableEq, Inhabited

/-- What stands after a dot: a symbol, of which the identifier counts, or the text of a property. -/
inductive MemberName where
  | symbol (s : SymbolId)
  | property (p : String)
deriving DecidableEq, Inhabited

mutual

inductive Expr where
  | var (pos : Position) (s : SymbolId)
  /-- A name that no symbol stands behind. -/
  | bare (pos : Position) (name : String)
  | member (pos : Position) (object : Expr) (name : MemberName)
  | index (pos : Position) (array index : Expr)
  | call (pos : Position) (callee : Expr) (args : List Expr)
  | new (pos : Position) (ctor : Expr) (args : List Expr)
  | prefixed (pos : Position) (op : PrefixOp) (operand : Expr)
  | postfixed (pos : Position) (op : PostfixOp) (operand : Expr)
  | binary (pos : Position) (op : BinaryOp) (left right : Expr)
  | cond (pos : Position) (test yes no : Expr)
  | literal (pos : Position) (l : Literal)
  | array (pos : Position) (elements : List Expr)
  | object (pos : Position) (properties : List Property)
  | func (pos : Position) (f : Func)

structure Property where
  key : String
  value : Expr

structure Func where
  name : Option SymbolId
  params : List SymbolId
  body : Block
  /-- Holds the parameters and locals. -/
  scope : ScopeId
  pos : Position

structure Block where
  stmts : List Stmt
  pos : Position

structure VarDecl where
  name : SymbolId
  init : Option Expr
  pos : Position

inductive ForInit where
  | vars (decls : List VarDecl)
  | expr (e : Expr)

structure Catch where
  param : SymbolId
  /-- Holds the parameter. -/
  scope : ScopeId
  body : Block
  pos : Position

/-- A case without a test is the default case. -/
structure SwitchCase where
  test : Option Expr
  body : List Stmt

inductive Stmt where
  | expr (pos : Position) (e : Expr)
  | vars (pos : Position) (decls : List VarDecl)
  | ret (pos : Position) (value : Option Expr)
  | raise (pos : Position) (value : Expr)
  | branch (pos : Position) (test : Expr) (yes : Stmt) (no : Option Stmt)
  | whileLoop (pos : Position) (test : Expr) (body : Stmt)
  | doWhile (pos : Position) (body : Stmt) (test : Expr)
  | forLoop (pos : Position) (init : Option ForInit) (test incr : Option Expr) (body : Stmt)
  /-- `for (key in object)`, with `var` before the key when it is declared there. -/
  | forIn (pos : Position) (key : SymbolId) (declared : Bool) (object : Expr) (body : Stmt)
  | block (pos : Position) (b : Block)
  | tryBlock (pos : Position) (body : Block) (catches : List Catch) (cleanup : Option Block)
  | labeled (pos : Position) (label : String) (body : Stmt)
  | breakTo (pos : Position) (label : Option String)
  | continueTo (pos : Position) (label : Option String)
  | switch (pos : Position) (discriminant : Expr) (cases : List SwitchCase)
  | empty (pos : Position)

end

namespace Expr

def pos : Expr → Position
  | .var p .. | .bare p .. | .member p .. | .index p .. | .call p .. | .new p .. | .prefixed p ..
  | .postfixed p .. | .binary p .. | .cond p .. | .literal p .. | .array p .. | .object p ..
  | .func p .. => p

def number (p : Position) (x : Float) : Expr := .literal p (.number x)

def string (p : Position) (s : String) : Expr := .literal p (.string s)

def bool (p : Position) (b : Bool) : Expr := .literal p (.bool b)

def null (p : Position) : Expr := .literal p .null

def assign (p : Position) (target value : Expr) : Expr := .binary p .assign target value

def comma (p : Position) (first second : Expr) : Expr := .binary p .comma first second

/-- The symbol of a variable reference. -/
def symbol? : Expr → Option SymbolId
  | .var _ s => some s
  | _ => none

/-- A named function standing as a statement is a declaration. -/
def isDeclaration : Expr → Bool
  | .func _ f => f.name.isSome
  | _ => false

end Expr

namespace Stmt

def pos : Stmt → Position
  | .expr p .. | .vars p .. | .ret p .. | .raise p .. | .branch p .. | .whileLoop p ..
  | .doWhile p ..
  | .forLoop p .. | .forIn p .. | .block p .. | .tryBlock p .. | .labeled p .. | .breakTo p ..
  | .continueTo p .. | .switch p .. | .empty p => p

/-- An expression statement at the position of its expression. -/
def ofExpr (e : Expr) : Stmt := .expr e.pos e

def ofStmts (p : Position) (stmts : List Stmt) : Stmt := .block p ⟨stmts, p⟩

def isExit : Stmt → Bool
  | .ret .. | .raise .. => true
  | _ => false

def isVars : Stmt → Bool
  | .vars .. => true
  | _ => false

def isLoop : Stmt → Bool
  | .whileLoop .. | .doWhile .. | .forLoop .. | .forIn .. => true
  | _ => false

end Stmt

namespace Block

def isEmpty (b : Block) : Bool := b.stmts.isEmpty

/-- Whether the last statement is a `return` or a `throw`. A final `if` whose branches all return
does not count. -/
def endsWithExit (b : Block) : Bool := b.stmts.getLast?.any Stmt.isExit

end Block

end FrameLedger
