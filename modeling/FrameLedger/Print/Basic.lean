import FrameLedger.Number.Text
import FrameLedger.Tree.Basic

/-!
# Words of the printed language

How names, literals and property keys are written, and how strongly each kind of expression binds.
-/

namespace FrameLedger

structure PrintStyle where
  /-- Spaces per level of nesting. -/
  indentSize : Nat := 2
  /-- Whether names that may change are printed by their short identifiers. -/
  shortIdents : Bool := false
deriving DecidableEq, Inhabited

namespace PrintStyle

def indent (st : PrintStyle) (level : Nat) : String := "".pushn ' ' (level * st.indentSize)

/-- The printed name of a symbol, empty for a dangling one. -/
def name (st : PrintStyle) (t : ScopeTable) (s : SymbolId) : String :=
  match t.symbol? s with
  | some y => if st.shortIdents && y.obfuscatable then y.shortIdent else y.ident
  | none => ""

end PrintStyle

namespace Print

def escapeChar (c : Char) : List Char :=
  match c with
  | '\\' => ['\\', '\\']
  | '"' => ['\\', '"']
  | '\n' => ['\\', 'n']
  | '\t' => ['\\', 't']
  | '\r' => ['\\', 'r']
  | c => [c]

def quote (s : String) : String := "\"" ++ String.ofList (s.toList.flatMap escapeChar) ++ "\""

def isIdentStart (c : Char) : Bool := c.isAlpha || c == '_' || c == '$'

def isIdentPart (c : Char) : Bool := c.isAlphanum || c == '_' || c == '$'

/-- A key that is no identifier is quoted. Letters and digits are those of ASCII. -/
def propertyKey (key : String) : String :=
  match key.toList with
  | c :: cs => if isIdentStart c && cs.all isIdentPart then key else quote key
  | [] => quote key

def literal : Literal → String
  | .number x => displayNumber x
  | .string s => quote s
  | .bool b => if b then "true" else "false"
  | .null => "null"
  | .undefined => "undefined"

def commaSep (parts : List String) : String := ", ".intercalate parts

end Print

namespace Prec

def comma : Nat := 1
def assign : Nat := 2
def conditional : Nat := 3
def unary : Nat := 15
def update : Nat := 16
def member : Nat := 18
def primary : Nat := 20

end Prec

def EagerOp.prec : EagerOp → Nat
  | .eq | .notEq | .strictEq | .strictNotEq => 9
  | .compare _ | .instanceOf | .member => 10
  | .arith .add | .arith .sub => 12
  | .arith .mul | .arith .div | .arith .mod => 13

def BinaryOp.prec : BinaryOp → Nat
  | .comma => Prec.comma
  | .assign | .assignWith _ => Prec.assign
  | .or => 4
  | .and => 5
  | .eager op => op.prec

/-- The least binding strength an operator asks of its left and its right operand. Assignments group
to the right, commas to either side, all else to the left. -/
def BinaryOp.operandPrec (op : BinaryOp) : Nat × Nat :=
  match op with
  | .comma => (Prec.comma, Prec.comma)
  | .assign | .assignWith _ => (Prec.conditional + 1, Prec.assign)
  | op => (op.prec, op.prec + 1)

/-- How strongly an expression binds. A function binds no stronger than an assignment, a negative
number no stronger than a sign. -/
def Expr.prec : Expr → Nat
  | .var .. | .bare .. | .array .. | .object .. => Prec.primary
  | .member .. | .index .. | .call .. | .new .. => Prec.member
  | .prefixed .. => Prec.unary
  | .postfixed .. => Prec.update
  | .binary _ op _ _ => op.prec
  | .cond .. => Prec.conditional
  | .literal _ (.number x) => if x < 0 then Prec.unary else Prec.primary
  | .literal .. => Prec.primary
  | .func .. => Prec.assign

end FrameLedger
