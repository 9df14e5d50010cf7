import FrameLedger.Print.Basic
import FrameLedger.Program

/-!
# Printed trees

Statements take a line each, nested ones are indented. An expression is put in parentheses where it
binds looser than its place asks for.

The functions on trees print a dangling symbol as nothing; `Program.print` and its companions refuse
to print one.
-/

namespace FrameLedger

namespace Print

def within (least prec : Nat) (s : String) : String := if prec < least then "(" ++ s ++ ")" else s

def parens (s : String) : String := "(" ++ s ++ ")"

def isCall : Expr → Bool
  | .call .. => true
  | _ => false

def isBlock : Stmt → Bool
  | .block .. => true
  | _ => false

def isBranch : Stmt → Bool
  | .branch .. => true
  | _ => false

/-- A sign does not touch an operand that starts with the same sign. -/
def prefixed (op : PrefixOp) (operand : String) : String :=
  let apart :=
    match op with
    | .typeof | .delete | .void => true
    | .neg | .dec => operand.startsWith "-"
    | .plus | .inc => operand.startsWith "+"
    | .not => false
  op.symbol ++ (if apart then " " else "") ++ operand

def binary (op : BinaryOp) (l r : String) : String :=
  match op with
  | .comma => l ++ ", " ++ r
  | op => l ++ " " ++ op.symbol ++ " " ++ r

/-- A statement must not start like a block or a declaration. -/
def exprStmt (s : String) : String :=
  if s.startsWith "\x7b" || s.startsWith "function" then "(" ++ s ++ ");" else s ++ ";"

def jump (keyword : String) (label : Option String) : String :=
  keyword ++ (match label with | some l => " " ++ l | none => "") ++ ";"

section

variable (st : PrintStyle) (t : ScopeTable)

/-- What separates a body from the header before it. -/
def beforeBody (body : Stmt) (level : Nat) : String :=
  if isBlock body then " " else "\n" ++ st.indent (level + 1)

def bodyLevel (body : Stmt) (level : Nat) : Nat := if isBlock body then level else level + 1

/-- What separates `else` or `while` from the body before it. -/
def afterBody (body : Stmt) (level : Nat) : String :=
  if isBlock body then " " else "\n" ++ st.indent level

/-- Braces around lines that end with a line break each. -/
def braces (lines : String) (level : Nat) : String :=
  if lines.isEmpty then "\x7b\x7d" else "\x7b\n" ++ lines ++ st.indent level ++ "\x7d"

def funcHead (name : Option SymbolId) (params : List SymbolId) : String :=
  "function " ++ ((name.map (st.name t)).getD "") ++
    parens (commaSep (params.map (st.name t))) ++ " "

mutual

def expr : Expr → Nat → String
  | .var _ s, _ => st.name t s
  | .bare _ p, _ => p
  | .member _ q (.symbol s), n => within Prec.member q.prec (expr q n) ++ "." ++ st.name t s
  | .member _ q (.property p), n => within Prec.member q.prec (expr q n) ++ "." ++ p
  | .index _ a i, n => within Prec.member a.prec (expr a n) ++ "[" ++ expr i n ++ "]"
  | .call _ f as, n => within Prec.member f.prec (expr f n) ++ parens (commaSep (args as n))
  | .new _ f as, n =>
    "new " ++ (if isCall f then parens (expr f n) else within Prec.member f.prec (expr f n))
      ++ parens (commaSep (args as n))
  | .prefixed _ op e, n => prefixed op (within Prec.unary e.prec (expr e n))
  | .postfixed _ op e, n => within Prec.update e.prec (expr e n) ++ op.symbol
  | .binary _ op l r, n =>
    binary op (within op.operandPrec.1 l.prec (expr l n))
      (within op.operandPrec.2 r.prec (expr r n))
  | .cond _ c y z, n =>
    within (Prec.conditional + 1) c.prec (expr c n) ++ " ? " ++ within Prec.assign y.prec (expr y n)
      ++ " : " ++ within Prec.assign z.prec (expr z n)
  | .literal _ l, _ => literal l
  | .array _ es, n => "[" ++ commaSep (args es n) ++ "]"
  | .object _ ps, n => "\x7b" ++ commaSep (properties ps n) ++ "\x7d"
  | .func _ f, n => func f n

def args : List Expr → Nat → List String
  | [], _ => []
  | e :: es, n => within Prec.assign e.prec (expr e n) :: args es n

def properties : List Property → Nat → List String
  | [], _ => []
  | ⟨k, e⟩ :: ps, n =>
    (propertyKey k ++ ": " ++ within Prec.assign e.prec (expr e n)) :: properties ps n

def func : Func → Nat → String
  | ⟨name, params, b, _, _⟩, n => funcHead st t name params ++ block b n

def block : Block → Nat → String
  | ⟨ss, _⟩, n => braces st (lines ss (n + 1)) n

/-- Each statement on its own lines. -/
def lines : List Stmt → Nat → String
  | [], _ => ""
  | s :: ss, n => st.indent n ++ stmt s n ++ "\n" ++ lines ss n

def decls : List VarDecl → Nat → List String
  | [], _ => []
  | ⟨x, none, _⟩ :: ds, n => st.name t x :: decls ds n
  | ⟨x, some e, _⟩ :: ds, n =>
    (st.name t x ++ " = " ++ within Prec.assign e.prec (expr e n)) :: decls ds n

def forInit : Option ForInit → Nat → String
  | none, _ => ""
  | some (.vars ds), n => "var " ++ commaSep (decls ds n)
  | some (.expr e), n => expr e n

/-- An optional expression behind a blank. -/
def clause : Option Expr → Nat → String
  | none, _ => ""
  | some e, n => " " ++ expr e n

def catches : List Catch → Nat → String
  | [], _ => ""
  | ⟨x, _, b, _⟩ :: cs, n => " catch (" ++ st.name t x ++ ") " ++ block b n ++ catches cs n

def cleanup : Option Block → Nat → String
  | none, _ => ""
  | some b, n => " finally " ++ block b n

def cases : List SwitchCase → Nat → String
  | [], _ => ""
  | ⟨none, ss⟩ :: cs, n => st.indent n ++ "default:\n" ++ lines ss (n + 1) ++ cases cs n
  | ⟨some e, ss⟩ :: cs, n =>
    st.indent n ++ "case " ++ expr e n ++ ":\n" ++ lines ss (n + 1) ++ cases cs n

/-- A statement at the current place, without the final line break. -/
def stmt : Stmt → Nat → String
  | .expr _ e, n => if e.isDeclaration then expr e n else exprStmt (expr e n)
  | .vars _ ds, n => "var " ++ commaSep (decls ds n) ++ ";"
  | .ret _ e, n => "return" ++ clause e n ++ ";"
  | .raise _ e, n => "throw " ++ expr e n ++ ";"
  | .branch _ c y none, n =>
    "if (" ++ expr c n ++ ")" ++ beforeBody st y n ++ stmt y (bodyLevel y n)
  | .branch _ c y (some z), n =>
    "if (" ++ expr c n ++ ")" ++ beforeBody st y n ++ stmt y (bodyLevel y n) ++
      afterBody st y n ++ "else" ++ (if isBranch z then " " else beforeBody st z n)
      ++ stmt z (if isBranch z then n else bodyLevel z n)
  | .whileLoop _ c b, n =>
    "while (" ++ expr c n ++ ")" ++ beforeBody st b n ++ stmt b (bodyLevel b n)
  | .doWhile _ b c, n =>
    "do" ++ beforeBody st b n ++ stmt b (bodyLevel b n) ++ afterBody st b n
      ++ "while (" ++ expr c n ++ ");"
  | .forLoop _ i c s b, n =>
    "for (" ++ forInit i n ++ ";" ++ clause c n ++ ";" ++ clause s n ++ ")"
      ++ beforeBody st b n ++ stmt b (bodyLevel b n)
  | .forIn _ k declared o b, n =>
    "for (" ++ (if declared then "var " else "") ++ st.name t k ++ " in " ++ expr o n ++ ")"
      ++ beforeBody st b n ++ stmt b (bodyLevel b n)
  | .block _ b, n => block b n
  | .tryBlock _ b cs f, n => "try " ++ block b n ++ catches cs n ++ cleanup f n
  | .labeled _ l b, n => l ++ ": " ++ stmt b n
  | .breakTo _ l, _ => jump "break" l
  | .continueTo _ l, _ => jump "continue" l
  | .switch _ d cs, n =>
    "switch (" ++ expr d n ++ ") \x7b\n" ++ cases cs (n + 1) ++ st.indent n ++ "\x7d"
  | .empty _, _ => ";"

end

end

end Print

/-- Statements, one after another. -/
def printStmts (st : PrintStyle) (t : ScopeTable) (ss : List Stmt) : Except Dangling String := do
  t.check (stmtsNodes ss)
  return Print.lines st t ss 0

def Program.print (st : PrintStyle) (p : Program) : Except Dangling String :=
  printStmts st p.table p.code.stmts

def Func.print (st : PrintStyle) (t : ScopeTable) (f : Func) : Except Dangling String := do
  t.check f.nodes
  return Print.func st t f 0 ++ "\n"

def Expr.print (st : PrintStyle) (t : ScopeTable) (e : Expr) : Except Dangling String := do
  t.check e.nodes
  return Print.expr st t e 0

end FrameLedger
