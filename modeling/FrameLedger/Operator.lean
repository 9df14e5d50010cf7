/-!
# Operators

Binary operators are grouped by how they treat their operands: assignments write to the left one,
`,` `&&` `||` decide for themselves whether the right one is evaluated, and eager operators take
both values.
-/

namespace FrameLedger

inductive PrefixOp where
  | inc
  | dec
  | neg
  | plus
  | not
  | typeof
  | delete
  | void
deriving DecidableEq, Inhabited

namespace PrefixOp

def all : List PrefixOp := [.inc, .dec, .neg, .plus, .not, .typeof, .delete, .void]

def modifiesOperand : PrefixOp → Bool
  | .inc | .dec | .delete => true
  | _ => false

def symbol : PrefixOp → String
  | .inc => "++"
  | .dec => "--"
  | .neg => "-"
  | .plus => "+"
  | .not => "!"
  | .typeof => "typeof"
  | .delete => "delete"
  | .void => "void"

end PrefixOp

inductive PostfixOp where
  | inc
  | dec
deriving DecidableEq, Inhabited

namespace PostfixOp

def all : List PostfixOp := [.inc, .dec]

def symbol : PostfixOp → String
  | .inc => "++"
  | .dec => "--"

end PostfixOp

inductive ArithOp where
  | add
  | sub
  | mul
  | div
  | mod
deriving DecidableEq, Inhabited

namespace ArithOp

def all : List ArithOp := [.add, .sub, .mul, .div, .mod]

def symbol : ArithOp → String
  | .add => "+"
  | .sub => "-"
  | .mul => "*"
  | .div => "/"
  | .mod => "%"

end ArithOp

inductive Comparison where
  | lt
  | le
  | gt
  | ge
deriving DecidableEq, Inhabited

namespace Comparison

def all : List Comparison := [.lt, .le, .gt, .ge]

def symbol : Comparison → String
  | .lt => "<"
  | .le => "<="
  | .gt => ">"
  | .ge => ">="

end Comparison

/-- Operators on two evaluated operands. -/
inductive EagerOp where
  | eq
  | notEq
  | strictEq
  | strictNotEq
  | compare (c : Comparison)
  | instanceOf
  | member
  | arith (op : ArithOp)
deriving DecidableEq, Inhabited

namespace EagerOp

def all : List EagerOp :=
  [.eq, .notEq, .strictEq, .strictNotEq] ++ Comparison.all.map .compare ++ [.instanceOf, .member]
    ++ ArithOp.all.map .arith

def symbol : EagerOp → String
  | .eq => "=="
  | .notEq => "!="
  | .strictEq => "==="
  | .strictNotEq => "!=="
  | .compare c => c.symbol
  | .instanceOf => "instanceof"
  | .member => "in"
  | .arith op => op.symbol

end EagerOp

inductive BinaryOp where
  | assign
  | assignWith (op : ArithOp)
  | comma
  | or
  | and
  | eager (op : EagerOp)
deriving DecidableEq, Inhabited

namespace BinaryOp

/-- All operators, loosest first. -/
def all : List BinaryOp :=
  .assign :: ArithOp.all.map .assignWith ++ [.comma, .or, .and] ++ EagerOp.all.map .eager

def isAssignment : BinaryOp → Bool
  | .assign | .assignWith _ => true
  | _ => false

/-- The operator a compound assignment applies. -/
def compound? : BinaryOp → Option ArithOp
  | .assignWith op => some op
  | _ => none

def symbol : BinaryOp → String
  | .assign => "="
  | .assignWith op => op.symbol ++ "="
  | .comma => ","
  | .or => "||"
  | .and => "&&"
  | .eager op => op.symbol

end BinaryOp

end FrameLedger
