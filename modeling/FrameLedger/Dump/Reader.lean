import FrameLedger.Dump.Writer
import FrameLedger.Json.Reader

/-!
# Reading dumps

Reads what `Versioned.dump` writes, and more: records may be arrays of their fields, fields may
stand in any order, unknown ones are ignored and optional ones may be missing. Numbers of symbols
and scopes are not checked against the table.
-/

namespace FrameLedger

namespace Dump

namespace Read

variable {α : Type}

/-- A field that has to be there. -/
def field (j : Option Json) (f : Json → Option α) : Option α := j.bind f

/-- A field that may be missing. -/
def optional (j : Option Json) (f : Json → Option α) : Option (Option α) :=
  (j.getD .null).optional? f

def position (j : Json) : Option Position :=
  match j.record? ["file", "line"] with
  | some [file, line] => return ⟨← field file Json.string?, ← field line Json.word?⟩
  | _ => none

def symbolId (j : Json) : Option SymbolId := j.word?.map SymbolId.mk

def scopeId (j : Json) : Option ScopeId := j.word?.map ScopeId.mk

def literal (j : Json) : Option Literal :=
  match j.plainCase? with
  | some "Null" => some .null
  | some "Undefined" => some .undefined
  | _ =>
    match j.case? with
    | some ("Number", j) => j.float?.map .number
    | some ("String", j) => j.string?.map .string
    | some ("Bool", j) => j.bool?.map .bool
    | _ => none

def memberName (j : Json) : Option MemberName :=
  match j.case? with
  | some ("Symbol", j) => (symbolId j).map .symbol
  | some ("Property", j) => j.string?.map .property
  | _ => none

/-- A name, behind a dot or alone. -/
def nameRef (p : Position) (qualifier : Option Expr) (name : MemberName) : Expr :=
  match qualifier, name with
  | some q, n => .member p q n
  | none, .symbol s => .var p s
  | none, .property n => .bare p n

/-- What a node is and where it stands. -/
def node (j : Json) (f : Position → Json → Option α) : Option α :=
  match j.record? ["kind", "info"] with
  | some [some kind, some info] => do f (← position info) kind
  | _ => none

mutual

def expr : Nat → Json → Option Expr
  | 0, _ => none
  | n + 1, j => node j fun p kind => do
    let (name, j) ← kind.case?
    match name with
    | "NameRef" =>
      match j.record? ["qualifier", "name"] with
      | some [q, name] => return nameRef p (← optional q (expr n)) (← field name memberName)
      | _ => none
    | "ArrayAccess" =>
      match j.record? ["array", "index"] with
      | some [a, i] => return .index p (← field a (expr n)) (← field i (expr n))
      | _ => none
    | "Invocation" =>
      match j.record? ["callee", "args"] with
      | some [f, as] => return .call p (← field f (expr n)) (← field as (Json.list? (expr n)))
      | _ => none
    | "New" =>
      match j.record? ["ctor", "args"] with
      | some [f, as] => return .new p (← field f (expr n)) (← field as (Json.list? (expr n)))
      | _ => none
    | "Prefix" =>
      match j.record? ["op", "operand"] with
      | some [op, x] =>
        return .prefixed p (← prefixOp? (← field op Json.plainCase?)) (← field x (expr n))
      | _ => none
    | "Postfix" =>
      match j.record? ["op", "operand"] with
      | some [op, x] =>
        return .postfixed p (← postfixOp? (← field op Json.plainCase?)) (← field x (expr n))
      | _ => none
    | "Binary" =>
      match j.record? ["op", "left", "right"] with
      | some [op, l, r] =>
        return .binary p (← binaryOp? (← field op Json.plainCase?)) (← field l (expr n))
          (← field r (expr n))
      | _ => none
    | "Conditional" =>
      match j.record? ["cond", "then_expr", "else_expr"] with
      | some [c, t, e] =>
        return .cond p (← field c (expr n)) (← field t (expr n)) (← field e (expr n))
      | _ => none
    | "Literal" => return .literal p (← literal j)
    | "ArrayLiteral" => return .array p (← j.list? (expr n))
    | "ObjectLiteral" => return .object p (← j.list? (property n))
    | "Function" => return .func p (← func n j)
    | _ => none

def property : Nat → Json → Option Property
  | 0, _ => none
  | n + 1, j =>
    match j.record? ["key", "value"] with
    | some [k, e] => return ⟨← field k Json.string?, ← field e (expr n)⟩
    | _ => none

def func : Nat → Json → Option Func
  | 0, _ => none
  | n + 1, j =>
    match j.record? ["name", "params", "body", "scope", "info"] with
    | some [name, params, b, sc, p] =>
      return ⟨← optional name symbolId, ← field params (Json.list? symbolId), ← field b (block n),
        ← field sc scopeId, ← field p position⟩
    | _ => none

def block : Nat → Json → Option Block
  | 0, _ => none
  | n + 1, j =>
    match j.record? ["statements", "info"] with
    | some [ss, p] => return ⟨← field ss (Json.list? (stmt n)), ← field p position⟩
    | _ => none

def varDecl : Nat → Json → Option VarDecl
  | 0, _ => none
  | n + 1, j =>
    match j.record? ["name", "init", "info"] with
    | some [s, e, p] => return ⟨← field s symbolId, ← optional e (expr n), ← field p position⟩
    | _ => none

def forInit : Nat → Json → Option ForInit
  | 0, _ => none
  | n + 1, j =>
    match j.case? with
    | some ("Vars", j) => return .vars (← j.list? (varDecl n))
    | some ("Expr", j) => return .expr (← expr n j)
    | _ => none

def catchClause : Nat → Json → Option Catch
  | 0, _ => none
  | n + 1, j =>
    match j.record? ["param", "scope", "body", "info"] with
    | some [s, sc, b, p] =>
      return ⟨← field s symbolId, ← field sc scopeId, ← field b (block n), ← field p position⟩
    | _ => none

def switchCase : Nat → Json → Option SwitchCase
  | 0, _ => none
  | n + 1, j =>
    match j.record? ["test", "body"] with
    | some [t, ss] => return ⟨← optional t (expr n), ← field ss (Json.list? (stmt n))⟩
    | _ => none

def stmt : Nat → Json → Option Stmt
  | 0, _ => none
  | n + 1, j => node j fun p kind => do
    if kind.plainCase? = some "Empty" then return .empty p
    let (name, j) ← kind.case?
    match name with
    | "Expr" => return .expr p (← expr n j)
    | "Vars" => return .vars p (← j.list? (varDecl n))
    | "Return" => return .ret p (← j.optional? (expr n))
    | "Throw" => return .raise p (← expr n j)
    | "If" =>
      match j.record? ["cond", "then_branch", "else_branch"] with
      | some [c, t, e] =>
        return .branch p (← field c (expr n)) (← field t (stmt n)) (← optional e (stmt n))
      | _ => none
    | "While" =>
      match j.record? ["cond", "body"] with
      | some [c, b] => return .whileLoop p (← field c (expr n)) (← field b (stmt n))
      | _ => none
    | "DoWhile" =>
      match j.record? ["body", "cond"] with
      | some [b, c] => return .doWhile p (← field b (stmt n)) (← field c (expr n))
      | _ => none
    | "For" =>
      match j.record? ["init", "cond", "incr", "body"] with
      | some [i, c, incr, b] =>
        return .forLoop p (← optional i (forInit n)) (← optional c (expr n))
          (← optional incr (expr n)) (← field b (stmt n))
      | _ => none
    | "ForIn" =>
      match j.record? ["key", "declared", "object", "body"] with
      | some [k, d, o, b] =>
        return .forIn p (← field k symbolId) (← field d Json.bool?) (← field o (expr n))
          (← field b (stmt n))
      | _ => none
    | "Block" => return .block p (← block n j)
    | "Try" =>
      match j.record? ["try_block", "catches", "finally"] with
      | some [b, cs, f] =>
        return .tryBlock p (← field b (block n)) (← field cs (Json.list? (catchClause n)))
          (← optional f (block n))
      | _ => none
    | "Labeled" =>
      match j.record? ["label", "body"] with
      | some [l, b] => return .labeled p (← field l Json.string?) (← field b (stmt n))
      | _ => none
    | "Break" => return .breakTo p (← j.optional? Json.string?)
    | "Continue" => return .continueTo p (← j.optional? Json.string?)
    | "Switch" =>
      match j.record? ["discriminant", "cases"] with
      | some [d, cs] =>
        return .switch p (← field d (expr n)) (← field cs (Json.list? (switchCase n)))
      | _ => none
    | _ => none

end

/-- Symbols by key; of a repeated key the last counts. -/
def symbolMap : Json → Option (SortedMap String SymbolId)
  | .object fs => return .ofList (← fs.mapM fun (k, j) => return (k, ← symbolId j))
  | _ => none

def scopeKind (j : Json) : Option ScopeKind := j.plainCase?.bind ScopeKind.ofName?

def scope (j : Json) : Option Scope :=
  match j.record? ["kind", "parent", "names"] with
  | some [k, p, ns] => return ⟨← field k scopeKind, ← optional p scopeId, ← field ns symbolMap⟩
  | _ => none

def symbol (j : Json) : Option Symbol :=
  match j.record? ["ident", "short_ident", "scope", "obfuscatable"] with
  | some [i, s, sc, o] =>
    return ⟨← field i Json.string?, ← field s Json.string?, ← field sc scopeId,
      ← field o Json.bool?⟩
  | _ => none

def table (j : Json) : Option ScopeTable :=
  match j.record? ["scopes", "symbols"] with
  | some [scs, ss] =>
    return ⟨(← field scs (Json.list? scope)).toArray, (← field ss (Json.list? symbol)).toArray⟩
  | _ => none

def symbolSet (j : Json) : Option (SortedSet SymbolId) := do
  return .ofList ((← j.list? symbolId).map (·, ()))

end Read

end Dump

namespace Versioned

/-- The outermost record has to be an object. A value of depth `d` holds no tree of more than `d`
levels. -/
def ofJson? (j : Json) : Option Versioned :=
  match j, j.record?
      ["ast_version", "global_block", "scopes", "indexed_functions", "immortal_functions"] with
  | .object _, some [v, b, t, ix, im] => do
    let version ← Dump.Read.field v Json.word?
    let code ← Dump.Read.field b (Dump.Read.block j.depth)
    let table ← Dump.Read.field t Dump.Read.table
    let indexed ← Dump.Read.field ix Dump.Read.symbolMap
    let immortal ← Dump.Read.field im Dump.Read.symbolSet
    return ⟨version, ⟨code, table, indexed, immortal⟩⟩
  | _, _ => none

def load? (text : String) : Option Versioned := (Json.parse? text).bind ofJson?

end Versioned

end FrameLedger
