import FrameLedger.Proofs.Erasing

/-!
# Where the code for leaving a function stands

`Func.standings` lists the statements of a function, each with the `try` statements around it and
its neighbours in its own statement list. A `try` statement with a `finally` block is outermost
unless it stands in the `try` block or in a catch body of another one. `Exits.Placed` says of a
function and what it becomes that flags, pops, resets and added catch clauses are where this makes
them necessary, and nowhere else.
-/

namespace FrameLedger

/-- The parts of a `try` statement. -/
inductive TryPart where
  | body
  | handler
  | cleanup
deriving DecidableEq

/-- A `try` statement around another statement. -/
structure Layer where
  /-- How many outermost ones come before it. -/
  number : Nat
  hasCleanup : Bool
  part : TryPart
deriving DecidableEq

/-- The `try` block and the catch bodies of a `try` statement with a `finally` block. -/
def Layer.shelters (l : Layer) : Bool := l.hasCleanup && l.part != .cleanup

namespace Stmt

def isReturn : Stmt → Bool
  | .ret .. => true
  | _ => false

def catches : Stmt → List Catch
  | .tryBlock _ _ cs _ => cs
  | _ => []

def cleanup? : Stmt → Option Block
  | .tryBlock _ _ _ f => f
  | _ => none

end Stmt

mutual

/-- Whether there is a `return` in a statement, outside of nested functions. -/
def Stmt.hasReturn : Stmt → Bool
  | .ret .. => true
  | .branch _ _ yes no => yes.hasReturn || stmtHasReturn? no
  | .whileLoop _ _ b | .doWhile _ b _ | .forLoop _ _ _ _ b | .forIn _ _ _ _ b | .labeled _ _ b =>
    b.hasReturn
  | .block _ ⟨ss, _⟩ => stmtsHaveReturn ss
  | .tryBlock _ ⟨ss, _⟩ cs f => stmtsHaveReturn ss || (catchesHaveReturn cs || blockHasReturn? f)
  | .switch _ _ cs => casesHaveReturn cs
  | .expr .. | .vars .. | .raise .. | .breakTo .. | .continueTo .. | .empty .. => false

def stmtsHaveReturn : List Stmt → Bool
  | [] => false
  | s :: ss => s.hasReturn || stmtsHaveReturn ss

def stmtHasReturn? : Option Stmt → Bool
  | none => false
  | some s => s.hasReturn

def blockHasReturn? : Option Block → Bool
  | none => false
  | some ⟨ss, _⟩ => stmtsHaveReturn ss

def catchesHaveReturn : List Catch → Bool
  | [] => false
  | ⟨_, _, ⟨ss, _⟩, _⟩ :: cs => stmtsHaveReturn ss || catchesHaveReturn cs

def casesHaveReturn : List SwitchCase → Bool
  | [] => false
  | ⟨_, ss⟩ :: cs => stmtsHaveReturn ss || casesHaveReturn cs

end

/-- Whether there is a `return` in the `try` block or a catch body. -/
def Stmt.returnsThrough : Stmt → Bool
  | .tryBlock _ b cs _ => stmtsHaveReturn b.stmts || catchesHaveReturn cs
  | _ => false

/-- A statement and where it stands in its function. -/
structure Standing where
  /-- How many outermost `try` statements with a `finally` block come before it. -/
  number : Nat
  /-- The `try` statements around it, from the outside in. -/
  around : List Layer
  /-- Its neighbours in its own statement list. -/
  before : Option Stmt
  stmt : Stmt
  after : Option Stmt

namespace Standing

variable (a : Standing)

/-- The outermost `try` statement with a `finally` block that has the statement in its `try` block
or in a catch body. -/
def region? : Option Nat := (a.around.find? Layer.shelters).map (·.number)

def inCatch : Bool := a.around.any (·.part == .handler)

/-- A `try` statement with a `finally` block, not sheltered by another one. -/
def isOutermost : Bool := a.stmt.cleanup?.isSome && a.region?.isNone

def isFlagged : Bool := a.isOutermost && a.stmt.returnsThrough

/-- An outermost one without catch clauses. -/
def lacksCatch : Bool := a.isOutermost && a.stmt.catches.isEmpty

/-- `x = wrap(…)` in a catch body, however deep. -/
def needsReset (wrap : SymbolId) : Bool := a.inCatch && a.stmt.assignsWrapped wrap

end Standing

/-- The statements of a stretch of a function, given how many outermost `try` statements come
before. -/
def Roster : Type := Nat → List Standing

namespace Roster

def nil : Roster := fun _ => []

def one (around : List Layer) (before : Option Stmt) (s : Stmt) (after : Option Stmt) : Roster :=
  fun n => [⟨n, around, before, s, after⟩]

/-- What follows counts the outermost ones in front of it. -/
instance : Append Roster := ⟨fun f g n => f n ++ g (n + (f n).countP Standing.isOutermost)⟩

end Roster

mutual

/-- The statement, unless it is a block or declares variables, and those in it. -/
def Stmt.standings (around : List Layer) (before after : Option Stmt) : Stmt → Roster
  | .vars .. => .nil
  | .block _ ⟨ss, _⟩ => stmtsStandings around none none ss
  | s@(.expr ..) | s@(.ret ..) | s@(.raise ..) | s@(.breakTo ..) | s@(.continueTo ..)
  | s@(.empty ..) =>
    .one around before s after
  | s@(.branch _ _ yes no) =>
    .one around before s after ++ (yes.standings around none none ++ stmtStandings? around no)
  | s@(.whileLoop _ _ b) | s@(.doWhile _ b _) | s@(.forLoop _ _ _ _ b) | s@(.forIn _ _ _ _ b)
  | s@(.labeled _ _ b) => .one around before s after ++ b.standings around none none
  | s@(.tryBlock _ ⟨ss, _⟩ cs f) => fun n =>
    (Roster.one around before s after ++
      (stmtsStandings (around ++ [⟨n, f.isSome, .body⟩]) none none ss ++
        (catchesStandings (around ++ [⟨n, f.isSome, .handler⟩]) cs ++
          blockStandings? (around ++ [⟨n, f.isSome, .cleanup⟩]) f))) n
  | s@(.switch _ _ cs) => .one around before s after ++ casesStandings around cs

/-- The same of a statement list, with `last` behind it. -/
def stmtsStandings (around : List Layer) (before last : Option Stmt) : List Stmt → Roster
  | [] => .nil
  | s :: ss =>
    s.standings around before (ss.head?.or last) ++ stmtsStandings around (some s) last ss

def stmtStandings? (around : List Layer) : Option Stmt → Roster
  | none => .nil
  | some s => s.standings around none none

def blockStandings? (around : List Layer) : Option Block → Roster
  | none => .nil
  | some ⟨ss, _⟩ => stmtsStandings around none none ss

def catchesStandings (around : List Layer) : List Catch → Roster
  | [] => .nil
  | ⟨_, _, ⟨ss, _⟩, _⟩ :: cs => stmtsStandings around none none ss ++ catchesStandings around cs

def casesStandings (around : List Layer) : List SwitchCase → Roster
  | [] => .nil
  | ⟨_, ss⟩ :: cs => stmtsStandings around none none ss ++ casesStandings around cs

end

/-- The statements of a function, in the order of its text. -/
def Func.standings (f : Func) : List Standing := stmtsStandings [] none none f.body.stmts 0

/-- The symbols from number `lo` on that a renaming would like to call `short`. -/
def ScopeTable.namedSince (t : ScopeTable) (lo : Nat) (short : String) : List SymbolId :=
  (((t.symbols.toList.drop lo).zipIdx lo).filter (·.1.shortIdent == short)).map fun x => ⟨x.2⟩

section

variable (v : StackVars) (new : SymbolId → Bool)

namespace Stmt

def isReset : Stmt → Bool
  | .expr _ e => e.isReset v new
  | _ => false

/-- Frame code: what a frame is kept by, what is stored in its variables, and what is thrown on. -/
def isAdded : Stmt → Bool
  | .raise _ (.var _ s) => new s
  | s => s.isUpkeep v new || (s.aside? new).isSome

/-- The flag that a statement sets. -/
def flag? : Stmt → Option SymbolId
  | .expr _ (.binary _ .assign (.var _ f) (.literal _ (.bool true))) => if new f then some f
      else none
  | _ => none

end Stmt

/-- The flags that are set on the way to the value of an expression. -/
def Expr.exiting : Expr → List SymbolId
  | .binary p .comma l r => (Stmt.flag? new (.expr p l)).toList ++ r.exiting
  | _ => []

/-- The flags that a `return` sets: in front of its result, or in the statement before if it has
none. -/
def Standing.exiting (a : Standing) : List SymbolId :=
  match a.stmt with
  | .ret _ (some e) => e.exiting new
  | .ret _ none => (a.before.bind (Stmt.flag? new)).toList
  | _ => []

end

/-- The symbols that the code for leaving a function uses. -/
structure Exits where
  vars : StackVars
  wrap : SymbolId
  /-- The symbols that were added for the function are numbered from here on. -/
  base : Nat
  index : SymbolId
  /-- The flags, each behind the number of its `try` statement. -/
  flags : List (Nat × SymbolId)

namespace Exits

variable (E : Exits)

def new (s : SymbolId) : Bool := E.base ≤ s.index

/-- What was not added to a function. -/
def keeps (b : Standing) : Bool := !b.stmt.isAdded E.vars E.new

/-- What becomes of a statement, with regard to leaving the function. -/
structure Places (a b : Standing) : Prop where
  number : b.number = a.number
  around : b.around = a.around
  pos : b.stmt.pos = a.stmt.pos
  isReturn : b.stmt.isReturn = a.stmt.isReturn
  hasCleanup : b.stmt.cleanup?.isSome = a.stmt.cleanup?.isSome
  /-- A reset follows it or does not. -/
  reset : if a.needsReset E.wrap then b.after = some (resetCode E.vars E.index a.stmt.pos)
    else b.after.any (Stmt.isReset E.vars E.new) = false
  /-- A `return` that leaves a region sets the flag of the outermost `try` statement and no
  other. -/
  exits : a.stmt.isReturn = true → ∀ n, a.region? = some n → ∃ flag, (n, flag) ∈ E.flags ∧
    b.exiting E.new = [flag]
  /-- Any other `return` stands behind a pop and sets no flag. -/
  pops : a.stmt.isReturn = true → a.region? = none →
    b.before = some (.ofExpr (popCode E.vars E.index a.stmt.pos)) ∧ b.exiting E.new = []
  catches : if a.lacksCatch then
      ∃ e sc, E.new e = true ∧ b.stmt.catches = [rethrowCode E.vars E.wrap E.index e sc a.stmt.pos]
    else b.stmt.catches.map (·.param) = a.stmt.catches.map (·.param)
  /-- The `finally` block pops if its flag is set, unless its end is not reached. -/
  guard : a.isOutermost = true → ∀ flag, (a.number, flag) ∈ E.flags →
    ∀ f, b.stmt.cleanup? = some f →
    f.endsWithExit = true ∨ f.stmts.getLast? = some (.ofExpr (.binary f.pos .and (.var f.pos flag)
      (popCode E.vars E.index f.pos)))

/-- Where a function that got a frame is left, table by table. -/
structure Placed (f f' : Func) (t' : ScopeTable) : Prop where
  index_new : E.new E.index = true
  /-- The outermost `try` statements are told apart by their numbers. -/
  numbered : (f.standings.filter Standing.isOutermost).map (·.number) =
    List.range (f.standings.countP Standing.isOutermost)
  /-- Every flag that was added belongs to one of those that a `return` leaves through, and none to
  two. -/
  flags_added : E.flags.map (·.2) = t'.namedSince E.base "exitingEarly"
  flags_nodup : (E.flags.map (·.2)).Nodup
  flagged : E.flags.map (·.1) = (f.standings.filter Standing.isFlagged).map (·.number)
  standings : List.Forall₂ E.Places f.standings (f'.standings.filter E.keeps)
  /-- There is no other reset. -/
  resets : f'.standings.countP (·.stmt.isReset E.vars E.new) =
    f.standings.countP (·.needsReset E.wrap) + f.standings.countP Standing.lacksCatch

end Exits

end FrameLedger
