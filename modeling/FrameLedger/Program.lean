import FrameLedger.Tree.Nodes

/-!
# Programs

A program is its global code with the scope table its symbols live in, the functions a runtime finds
by key, and the immortal functions, which may run before anything else is defined.

Nothing keeps the symbols of a tree inside its table. A symbol outside is *dangling*: it has no
identifier, and whatever asks for one cannot be answered.
-/

namespace FrameLedger

def version : String := "0.1.0"

/-- The version of the tree's shape, stored with a dump. -/
def treeVersion : Nat := 1

/-- The key of the function that turns a thrown value into an exception object. -/
def wrapKey : String := "Exceptions.wrap"

structure Program where
  code : Block
  table : ScopeTable
  indexed : SortedMap String SymbolId
  immortal : SortedSet SymbolId

namespace Program

def empty : Program := ⟨⟨[], .synthetic⟩, .initial, ∅, ∅⟩

def wrap? (p : Program) : Option SymbolId := p.indexed.get? wrapKey

def isImmortal (p : Program) (f : Func) : Bool := f.name.any p.immortal.contains

end Program

/-- A symbol that the table has no record of. -/
structure Dangling where
  symbol : SymbolId
deriving DecidableEq, Inhabited

namespace ScopeTable

def ident (t : ScopeTable) (s : SymbolId) : Except Dangling String :=
  match t.ident? s with
  | some x => .ok x
  | none => .error ⟨s⟩

/-- Succeeds when every symbol that occurs in the nodes is in the table. -/
def check (t : ScopeTable) (ns : List Node) : Except Dangling Unit :=
  match (ns.flatMap Node.symbols).find? fun s => t.symbols.size ≤ s.index with
  | some s => .error ⟨s⟩
  | none => .ok ()

end ScopeTable

end FrameLedger
