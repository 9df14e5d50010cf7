import FrameLedger.Program

/-!
# Variables of the kept stack

A program that keeps its own stack of frames does so in two or three variables of the program scope:
the functions of the active frames, the index of the innermost one, and where each frame was last.
Code that was written before these variables exist refers to them by reserved names of the root
scope.
-/

namespace FrameLedger

inductive StackRole where
  | stack
  | depth
  | location
deriving DecidableEq, Inhabited

namespace StackRole

def all : List StackRole := [.stack, .depth, .location]

/-- The reserved name in the root scope. -/
def reserved : StackRole → String
  | .stack => "$stack"
  | .depth => "$stackDepth"
  | .location => "$location"

/-- The identifier a variable gets if it is free. -/
def ident : StackRole → String
  | .stack => "$es_stack"
  | .depth => "$es_stackDepth"
  | .location => "$es_location"

end StackRole

/-- The role a symbol is reserved for. -/
def ScopeTable.roleOf? (t : ScopeTable) (s : SymbolId) : Option StackRole :=
  StackRole.all.find? fun r => t.rootName r.reserved == some s

structure StackVars where
  stack : SymbolId
  /-- Holds `-1` while there is no frame. -/
  depth : SymbolId
  location : Option SymbolId
deriving DecidableEq, Inhabited

/-- Puts declarators behind those of a leading `var` statement, or makes one. -/
def mergeVars (pos : Position) (ds : List VarDecl) : List Stmt → List Stmt
  | .vars p es :: ss => .vars p (es ++ ds) :: ss
  | ss => .vars pos ds :: ss

namespace StackVars

def allocate (withLocation : Bool) (t : ScopeTable) : StackVars × ScopeTable :=
  let declare (r : StackRole) (t : ScopeTable) :=
    t.declareUnique ScopeTable.program r.ident r.reserved
  let (stack, t) := declare .stack t
  let (depth, t) := declare .depth t
  if withLocation then
    let (location, t) := declare .location t
    (⟨stack, depth, some location⟩, t)
  else (⟨stack, depth, none⟩, t)

def forRole (v : StackVars) : StackRole → Option SymbolId
  | .stack => some v.stack
  | .depth => some v.depth
  | .location => v.location

/-- Declarators that make an empty stack. -/
def decls (v : StackVars) : List VarDecl :=
  let p := Position.synthetic
  [⟨v.stack, some (.array p []), p⟩, ⟨v.depth, some (.number p (-1)), p⟩]
    ++ v.location.toList.map fun s => ⟨s, some (.array p []), p⟩

def declareIn (v : StackVars) (b : Block) : Block :=
  { b with stmts := mergeVars .synthetic v.decls b.stmts }

end StackVars

end FrameLedger
