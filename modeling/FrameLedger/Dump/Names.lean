import FrameLedger.Operator

/-!
# Names of operators in dumps
-/

namespace FrameLedger

namespace Dump

def prefixName : PrefixOp → String
  | .inc => "Inc"
  | .dec => "Dec"
  | .neg => "Neg"
  | .plus => "Plus"
  | .not => "Not"
  | .typeof => "Typeof"
  | .delete => "Delete"
  | .void => "Void"

def postfixName : PostfixOp → String
  | .inc => "Inc"
  | .dec => "Dec"

def arithName : ArithOp → String
  | .add => "Add"
  | .sub => "Sub"
  | .mul => "Mul"
  | .div => "Div"
  | .mod => "Mod"

def comparisonName : Comparison → String
  | .lt => "Lt"
  | .le => "Le"
  | .gt => "Gt"
  | .ge => "Ge"

def eagerName : EagerOp → String
  | .eq => "Eq"
  | .notEq => "NotEq"
  | .strictEq => "StrictEq"
  | .strictNotEq => "StrictNotEq"
  | .compare c => comparisonName c
  | .instanceOf => "InstanceOf"
  | .member => "In"
  | .arith op => arithName op

def binaryName : BinaryOp → String
  | .assign => "Assign"
  | .assignWith op => arithName op ++ "Assign"
  | .comma => "Comma"
  | .or => "Or"
  | .and => "And"
  | .eager op => eagerName op

def prefixOp? (s : String) : Option PrefixOp := PrefixOp.all.find? (prefixName · == s)

def postfixOp? (s : String) : Option PostfixOp := PostfixOp.all.find? (postfixName · == s)

def binaryOp? (s : String) : Option BinaryOp := BinaryOp.all.find? (binaryName · == s)

end Dump

end FrameLedger
