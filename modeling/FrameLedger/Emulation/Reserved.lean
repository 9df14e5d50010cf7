import FrameLedger.StackVars
import FrameLedger.Tree.Transform

/-!
# Reserved names

References to the reserved names of the stack become references to the variables that hold it.
-/

namespace FrameLedger

/-- The variable that stands in for a reserved symbol. -/
def StackVars.replacement? (v : StackVars) (t : ScopeTable) (s : SymbolId) : Option SymbolId :=
  (t.roleOf? s).bind v.forRole

/-- The variable that stands in for a symbol if it is reserved, and is counted then. -/
def StackVars.substituteVar (v : StackVars) (t : ScopeTable) (s : SymbolId) : StateM Nat SymbolId :=
  match v.replacement? t s with
  | some s' => do
    modify (· + 1)
    return s'
  | none => return s

/-- Looks for a variable reference. The search ends at the first. -/
def Block.refersTo (b : Block) (s : SymbolId) : Bool :=
  (b.traverseVars fun x => if x = s then none else some x).isNone

namespace Program

/-- Whether some variable reference is to the reserved name of a role. -/
def references (p : Program) (r : StackRole) : Bool :=
  (p.table.rootName r.reserved).any p.code.refersTo

/-- Puts variables in for the references to reserved names, and says how many there were. -/
def substitute (p : Program) (v : StackVars) : Program × Nat :=
  let (code, n) := (p.code.traverseVars (v.substituteVar p.table)).run 0
  ({ p with code }, n)

end Program

end FrameLedger
