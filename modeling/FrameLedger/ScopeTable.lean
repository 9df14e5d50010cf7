import FrameLedger.SortedMap

/-!
# Scopes and symbols

A name of a tree is a symbol of the program's scope table: two symbols of the same identifier in
different scopes are different names. Scope `0` is the root, which holds the names every environment
provides; scope `1` is the program scope below it; function and catch scopes nest below that one.

`declare` reuses the symbol of an identifier, `declareUnique` never does: it takes the first of `x`,
`x_1`, `x_2`, … that is free in the scope.
-/

namespace FrameLedger

structure SymbolId where
  index : Nat
deriving DecidableEq, Inhabited

structure ScopeId where
  index : Nat
deriving DecidableEq, Inhabited

namespace SymbolId

instance : Ord SymbolId := ⟨compareOn index⟩

instance : Std.TransOrd SymbolId := inferInstanceAs (Std.TransCmp (compareOn index))

instance : Std.LawfulEqOrd SymbolId where
  eq_of_compare {a b} h := by
    cases a; cases b
    exact congrArg mk (Std.LawfulEqOrd.eq_of_compare h)

def text (s : SymbolId) : String := "#" ++ toString s.index

end SymbolId

inductive ScopeKind where
  | root
  | program
  | function
  | catch
deriving DecidableEq, Inhabited

namespace ScopeKind

def all : List ScopeKind := [.root, .program, .function, .catch]

def name : ScopeKind → String
  | .root => "Root"
  | .program => "Program"
  | .function => "Function"
  | .catch => "Catch"

def ofName? (s : String) : Option ScopeKind := all.find? (·.name == s)

end ScopeKind

structure Symbol where
  ident : String
  /-- The name a later renaming would prefer. -/
  shortIdent : String
  scope : ScopeId
  /-- Whether a renaming may change the name. -/
  obfuscatable : Bool
deriving DecidableEq, Inhabited

structure Scope where
  kind : ScopeKind
  parent : Option ScopeId
  names : SortedMap String SymbolId
deriving DecidableEq, Inhabited

structure ScopeTable where
  scopes : Array Scope
  symbols : Array Symbol
deriving DecidableEq, Inhabited

/-- The names every environment provides. They are never renamed. -/
def rootNames : List String :=
  ["$stack", "$stackDepth", "$location", "Error", "TypeError", "ReferenceError", "RangeError"]

namespace ScopeTable

def root : ScopeId := ⟨0⟩

def program : ScopeId := ⟨1⟩

/-- The `k`-th identifier tried for a fresh `ident`. -/
def candidate (ident : String) : Nat → String
  | 0 => ident
  | k + 1 => ident ++ "_" ++ toString (k + 1)

/-- The first candidate that `names` does not hold. Among one more candidates than names there is
always one. -/
def freshIdent (names : SortedMap String SymbolId) (ident : String) : String :=
  let n := names.entries.length
  candidate ident (((List.range (n + 1)).find? fun k => !names.contains (candidate ident k)).getD
    (n + 1))

variable (t : ScopeTable)

def symbol? (s : SymbolId) : Option Symbol := t.symbols[s.index]?

def ident? (s : SymbolId) : Option String := (t.symbol? s).map (·.ident)

def scope? (sc : ScopeId) : Option Scope := t.scopes[sc.index]?

def kind? (sc : ScopeId) : Option ScopeKind := (t.scope? sc).map (·.kind)

def parent? (sc : ScopeId) : Option ScopeId := (t.scope? sc).bind (·.parent)

/-- The names declared directly in a scope. -/
def namesIn (sc : ScopeId) : SortedMap String SymbolId := ((t.scope? sc).map (·.names)).getD ∅

def findIn (sc : ScopeId) (ident : String) : Option SymbolId := (t.namesIn sc).get? ident

def lookupWithin (ident : String) : Nat → ScopeId → Option SymbolId
  | 0, _ => none
  | fuel + 1, sc =>
    match t.findIn sc ident with
    | some s => some s
    | none => (t.parent? sc).bind (lookupWithin ident fuel)

/-- Resolves an identifier from a scope outward. A chain of parents visits each scope once. -/
def lookup (sc : ScopeId) (ident : String) : Option SymbolId :=
  t.lookupWithin ident (t.scopes.size + 1) sc

def rootName (ident : String) : Option SymbolId := t.findIn root ident

/-- Symbols declared directly in a scope, in identifier order. -/
def symbolsIn (sc : ScopeId) : List SymbolId := (t.namesIn sc).values

def symbolCount : Nat := t.symbols.size

def addScope (kind : ScopeKind) (parent : Option ScopeId) : ScopeId × ScopeTable :=
  (⟨t.scopes.size⟩, { t with scopes := t.scopes.push ⟨kind, parent, ∅⟩ })

def newScope (kind : ScopeKind) (parent : ScopeId) : ScopeId × ScopeTable :=
  t.addScope kind (some parent)

/-- Appends a symbol and enters it under its identifier in its scope. A table is taken to have fewer
than `2^32` symbols, so that their numbers fit into 32 bits. -/
def addSymbol (s : Symbol) : SymbolId × ScopeTable :=
  let id : SymbolId := ⟨t.symbols.size⟩
  let enter (sc : Scope) : Scope := { sc with names := sc.names.insert s.ident id }
  (id, { scopes := t.scopes.modify s.scope.index enter, symbols := t.symbols.push s })

def declare (sc : ScopeId) (ident : String) : SymbolId × ScopeTable :=
  match t.findIn sc ident with
  | some s => (s, t)
  | none => t.addSymbol ⟨ident, ident, sc, true⟩

def declareUnique (sc : ScopeId) (ident shortIdent : String) : SymbolId × ScopeTable :=
  t.addSymbol ⟨freshIdent (t.namesIn sc) ident, shortIdent, sc, true⟩

def empty : ScopeTable := ⟨#[], #[]⟩

/-- The root scope with its names, and an empty program scope. -/
def initial : ScopeTable :=
  let t := (empty.addScope .root none).2
  let t := rootNames.foldl (fun t x => (t.addSymbol ⟨x, x, root, false⟩).2) t
  (t.newScope .program root).2

end ScopeTable

end FrameLedger
