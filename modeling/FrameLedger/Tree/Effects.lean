import FrameLedger.Tree.Basic

/-!
# Side effects

A conservative test: an expression without side effects writes nothing, calls nothing and, as long
as its variables are bound, throws nothing. Reading a variable and making a function count as pure;
reading a property does not, since it throws on `null`.
-/

namespace FrameLedger

mutual

def Expr.hasSideEffects : Expr → Bool
  | .literal .. | .func .. | .var .. | .bare .. => false
  | .member .. | .index .. | .call .. | .new .. | .postfixed .. => true
  | .prefixed _ op e => op.modifiesOperand || e.hasSideEffects
  | .binary _ op l r =>
    op.isAssignment || op == .eager .instanceOf || op == .eager .member
      || l.hasSideEffects || r.hasSideEffects
  | .cond _ c t e => c.hasSideEffects || t.hasSideEffects || e.hasSideEffects
  | .array _ es => anySideEffects es
  | .object _ ps => anyPropertySideEffects ps

def anySideEffects : List Expr → Bool
  | [] => false
  | e :: es => e.hasSideEffects || anySideEffects es

def anyPropertySideEffects : List Property → Bool
  | [] => false
  | ⟨_, e⟩ :: ps => e.hasSideEffects || anyPropertySideEffects ps

end

end FrameLedger
