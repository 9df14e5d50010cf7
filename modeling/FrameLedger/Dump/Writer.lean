import FrameLedger.Dump.Names
import FrameLedger.Json.Printer
import FrameLedger.Number.Text
import FrameLedger.Program

/-!
# Writing dumps

A dump holds a program as a JSON text: records are objects, cases are objects of one field named for
the case, symbols and scopes are their numbers, what is missing is null.
-/

namespace FrameLedger

namespace Dump

def tagged (name : String) (j : Json) : Json := .object [(name, j)]

def position (p : Position) : Json := .object [("file", .string p.file), ("line", .ofNat p.line)]

/-- A node of a tree: what it is and where it stands. -/
def node (p : Position) (kind : Json) : Json := .object [("kind", kind), ("info", position p)]

def symbolId (s : SymbolId) : Json := .ofNat s.index

def scopeId (s : ScopeId) : Json := .ofNat s.index

/-- A number that is not finite has no text. -/
def float (x : Float) : Json := .ofOption .number (number? x)

def literal : Literal → Json
  | .number x => tagged "Number" (float x)
  | .string s => tagged "String" (.string s)
  | .bool b => tagged "Bool" (.bool b)
  | .null => .string "Null"
  | .undefined => .string "Undefined"

def memberName : MemberName → Json
  | .symbol s => tagged "Symbol" (symbolId s)
  | .property p => tagged "Property" (.string p)

/-- A name, behind a dot or alone. -/
def nameRef (qualifier : Json) (name : MemberName) : Json :=
  tagged "NameRef" (.object [("qualifier", qualifier), ("name", memberName name)])

mutual

def expr : Expr → Json
  | .var p s => node p (nameRef .null (.symbol s))
  | .bare p n => node p (nameRef .null (.property n))
  | .member p q n => node p (nameRef (expr q) n)
  | .index p a i => node p (tagged "ArrayAccess" (.object [("array", expr a), ("index", expr i)]))
  | .call p f as =>
    node p (tagged "Invocation" (.object [("callee", expr f), ("args", .array (exprs as))]))
  | .new p f as => node p (tagged "New" (.object [("ctor", expr f), ("args", .array (exprs as))]))
  | .prefixed p op x =>
    node p (tagged "Prefix" (.object [("op", .string (prefixName op)), ("operand", expr x)]))
  | .postfixed p op x =>
    node p (tagged "Postfix" (.object [("op", .string (postfixName op)), ("operand", expr x)]))
  | .binary p op l r =>
    node p (tagged "Binary"
      (.object [("op", .string (binaryName op)), ("left", expr l), ("right", expr r)]))
  | .cond p c t e =>
    node p (tagged "Conditional"
      (.object [("cond", expr c), ("then_expr", expr t), ("else_expr", expr e)]))
  | .literal p l => node p (tagged "Literal" (literal l))
  | .array p es => node p (tagged "ArrayLiteral" (.array (exprs es)))
  | .object p ps => node p (tagged "ObjectLiteral" (.array (properties ps)))
  | .func p f => node p (tagged "Function" (func f))

def exprs : List Expr → List Json
  | [] => []
  | e :: es => expr e :: exprs es

def expr? : Option Expr → Json
  | none => .null
  | some e => expr e

def properties : List Property → List Json
  | [] => []
  | ⟨k, e⟩ :: ps => .object [("key", .string k), ("value", expr e)] :: properties ps

def func : Func → Json
  | ⟨n, ps, b, sc, p⟩ =>
    .object [("name", .ofOption symbolId n), ("params", .array (ps.map symbolId)),
      ("body", block b), ("scope", scopeId sc), ("info", position p)]

def block : Block → Json
  | ⟨ss, p⟩ => .object [("statements", .array (stmts ss)), ("info", position p)]

def block? : Option Block → Json
  | none => .null
  | some b => block b

def decls : List VarDecl → List Json
  | [] => []
  | ⟨s, e, p⟩ :: ds =>
    .object [("name", symbolId s), ("init", expr? e), ("info", position p)] :: decls ds

def forInit : Option ForInit → Json
  | none => .null
  | some (.vars ds) => tagged "Vars" (.array (decls ds))
  | some (.expr e) => tagged "Expr" (expr e)

def catches : List Catch → List Json
  | [] => []
  | ⟨s, sc, b, p⟩ :: cs =>
    .object [("param", symbolId s), ("scope", scopeId sc), ("body", block b), ("info", position p)]
      :: catches cs

def cases : List SwitchCase → List Json
  | [] => []
  | ⟨t, ss⟩ :: cs => .object [("test", expr? t), ("body", .array (stmts ss))] :: cases cs

def stmts : List Stmt → List Json
  | [] => []
  | s :: ss => stmt s :: stmts ss

def stmt? : Option Stmt → Json
  | none => .null
  | some s => stmt s

def stmt : Stmt → Json
  | .expr p e => node p (tagged "Expr" (expr e))
  | .vars p ds => node p (tagged "Vars" (.array (decls ds)))
  | .ret p e => node p (tagged "Return" (expr? e))
  | .raise p e => node p (tagged "Throw" (expr e))
  | .branch p c t e =>
    node p (tagged "If"
      (.object [("cond", expr c), ("then_branch", stmt t), ("else_branch", stmt? e)]))
  | .whileLoop p c b => node p (tagged "While" (.object [("cond", expr c), ("body", stmt b)]))
  | .doWhile p b c => node p (tagged "DoWhile" (.object [("body", stmt b), ("cond", expr c)]))
  | .forLoop p i c n b =>
    node p (tagged "For"
      (.object [("init", forInit i), ("cond", expr? c), ("incr", expr? n), ("body", stmt b)]))
  | .forIn p k d o b =>
    node p (tagged "ForIn"
      (.object [("key", symbolId k), ("declared", .bool d), ("object", expr o), ("body", stmt b)]))
  | .block p b => node p (tagged "Block" (block b))
  | .tryBlock p b cs f =>
    node p (tagged "Try"
      (.object [("try_block", block b), ("catches", .array (catches cs)), ("finally", block? f)]))
  | .labeled p l b => node p (tagged "Labeled" (.object [("label", .string l), ("body", stmt b)]))
  | .breakTo p l => node p (tagged "Break" (.ofOption .string l))
  | .continueTo p l => node p (tagged "Continue" (.ofOption .string l))
  | .switch p d cs =>
    node p (tagged "Switch" (.object [("discriminant", expr d), ("cases", .array (cases cs))]))
  | .empty p => node p (.string "Empty")

end

/-- Symbols by key. -/
def symbolMap (m : SortedMap String SymbolId) : Json :=
  .object (m.entries.map fun (k, s) => (k, symbolId s))

def scope (s : Scope) : Json :=
  .object [("kind", .string s.kind.name), ("parent", .ofOption scopeId s.parent),
    ("names", symbolMap s.names)]

def symbol (s : Symbol) : Json :=
  .object [("ident", .string s.ident), ("short_ident", .string s.shortIdent),
    ("scope", scopeId s.scope), ("obfuscatable", .bool s.obfuscatable)]

def table (t : ScopeTable) : Json :=
  .object
    [("scopes", .array (t.scopes.toList.map scope)),
    ("symbols", .array (t.symbols.toList.map symbol))]

end Dump

/-- A program with the version of its shape. -/
structure Versioned where
  version : Nat
  program : Program

namespace Versioned

def toJson (v : Versioned) : Json :=
  .object [("ast_version", .ofNat v.version), ("global_block", Dump.block v.program.code),
    ("scopes", Dump.table v.program.table), ("indexed_functions", Dump.symbolMap v.program.indexed),
    ("immortal_functions", .array (v.program.immortal.keys.map Dump.symbolId))]

def dump (v : Versioned) : String := v.toJson.pretty

end Versioned

end FrameLedger
