import FrameLedger.Emulation.Reserved
import FrameLedger.Tree.Nodes
import Mathlib.Control.Basic

/-!
# Variable references as they are met

A tree is gone through one variable reference after another. Where what becomes of a reference does
not depend on the effects, a tree is renamed (`mapVars`) and the effects are those of its
references, one after another (`Block.renames`). So substitution comes to a renaming and a
count, and the search for a reference to whether it is one of them.
-/

namespace FrameLedger

section

variable (ρ : SymbolId → SymbolId)

mutual

def Expr.mapVars : Expr → Expr
  | .var p s => .var p (ρ s)
  | .bare p n => .bare p n
  | .member p q n => .member p q.mapVars n
  | .index p a i => .index p a.mapVars i.mapVars
  | .call p f as => .call p f.mapVars (exprsMapVars as)
  | .new p f as => .new p f.mapVars (exprsMapVars as)
  | .prefixed p op x => .prefixed p op x.mapVars
  | .postfixed p op x => .postfixed p op x.mapVars
  | .binary p op l r => .binary p op l.mapVars r.mapVars
  | .cond p c t f => .cond p c.mapVars t.mapVars f.mapVars
  | .literal p l => .literal p l
  | .array p es => .array p (exprsMapVars es)
  | .object p ps => .object p (propertiesMapVars ps)
  | .func p f => .func p f.mapVars

def exprsMapVars : List Expr → List Expr
  | [] => []
  | e :: es => e.mapVars :: exprsMapVars es

def exprMapVars? : Option Expr → Option Expr
  | none => none
  | some e => some e.mapVars

def propertiesMapVars : List Property → List Property
  | [] => []
  | ⟨k, e⟩ :: ps => ⟨k, e.mapVars⟩ :: propertiesMapVars ps

def Func.mapVars : Func → Func
  | ⟨n, ps, b, sc, p⟩ => ⟨n, ps, b.mapVars, sc, p⟩

def Block.mapVars : Block → Block
  | ⟨ss, p⟩ => ⟨stmtsMapVars ss, p⟩

def blockMapVars? : Option Block → Option Block
  | none => none
  | some b => some b.mapVars

def declsMapVars : List VarDecl → List VarDecl
  | [] => []
  | ⟨s, e, p⟩ :: ds => ⟨s, exprMapVars? e, p⟩ :: declsMapVars ds

def forInitMapVars : Option ForInit → Option ForInit
  | none => none
  | some (.vars ds) => some (.vars (declsMapVars ds))
  | some (.expr e) => some (.expr e.mapVars)

def catchesMapVars : List Catch → List Catch
  | [] => []
  | ⟨s, sc, b, p⟩ :: cs => ⟨s, sc, b.mapVars, p⟩ :: catchesMapVars cs

def casesMapVars : List SwitchCase → List SwitchCase
  | [] => []
  | ⟨t, ss⟩ :: cs => ⟨exprMapVars? t, stmtsMapVars ss⟩ :: casesMapVars cs

def stmtsMapVars : List Stmt → List Stmt
  | [] => []
  | s :: ss => s.mapVars :: stmtsMapVars ss

def stmtMapVars? : Option Stmt → Option Stmt
  | none => none
  | some s => some s.mapVars

def Stmt.mapVars : Stmt → Stmt
  | .expr p e => .expr p e.mapVars
  | .vars p ds => .vars p (declsMapVars ds)
  | .ret p e => .ret p (exprMapVars? e)
  | .raise p e => .raise p e.mapVars
  | .branch p c t e => .branch p c.mapVars t.mapVars (stmtMapVars? e)
  | .whileLoop p c b => .whileLoop p c.mapVars b.mapVars
  | .doWhile p b c => .doWhile p b.mapVars c.mapVars
  | .forLoop p i c n b => .forLoop p (forInitMapVars i) (exprMapVars? c) (exprMapVars? n) b.mapVars
  | .forIn p k d o b => .forIn p k d o.mapVars b.mapVars
  | .block p b => .block p b.mapVars
  | .tryBlock p b cs f => .tryBlock p b.mapVars (catchesMapVars cs) (blockMapVars? f)
  | .labeled p l b => .labeled p l b.mapVars
  | .breakTo p l => .breakTo p l
  | .continueTo p l => .continueTo p l
  | .switch p d cs => .switch p d.mapVars (casesMapVars cs)
  | .empty p => .empty p

end

end

section

variable {m : Type → Type} [Monad m] {α β : Type} (f : SymbolId → m Unit)

/-- The effects of the variable references among nodes come one after another, and then the
result. -/
def Renames (x : m α) (ns : List Node) (y : α) : Prop :=
  x = do
    forM (ns.filterMap Node.var?) f
    return y

namespace Renames

variable {f} {x : m α} {k : α → m β} {g : α → β} {y : α} {z : β} {n : Node} {as bs : List Node}

/-- A node that is no reference has no effect. -/
theorem skip (h : n.var? = none) (hx : Renames f x as y) : Renames f x (n :: as) y := by
  rw [Renames, List.filterMap_cons_none h]
  exact hx

variable [LawfulMonad m]

theorem pure : Renames f (Pure.pure y : m α) [] y :=
  (pure_bind (m := m) () fun _ => Pure.pure y).symm

theorem bind (hx : Renames f x as y) (hk : Renames f (k y) bs z) :
    Renames f (x >>= k) (as ++ bs) z := by
  rw [Renames] at hx hk ⊢
  rw [hx, List.filterMap_append, List.forM_append, bind_assoc, bind_assoc]
  exact bind_congr fun _ => (pure_bind _ _).trans hk

theorem last (hx : Renames f x as y) : Renames f (x >>= fun a => Pure.pure (g a)) as (g y) := by
  rw [Renames] at hx ⊢
  rw [hx, bind_assoc]
  exact bind_congr fun _ => pure_bind _ _

end Renames

variable {f} [LawfulMonad m] {ρ : SymbolId → SymbolId}

mutual

theorem Expr.renames : ∀ e : Expr, Renames f (e.traverseVars fun s => do f s; return ρ s) e.nodes
    (e.mapVars ρ)
  | .var p s => by
    have hvar : (Expr.var p s).nodes.filterMap Node.var? = [s] := rfl
    simp [Renames, Expr.traverseVars, Expr.mapVars, hvar]
  | .bare _ _ | .literal _ _ => .skip rfl .pure
  | .member _ q _ => .skip rfl q.renames.last
  | .index _ a i => .skip rfl (a.renames.bind i.renames.last)
  | .call _ g as => .skip rfl (g.renames.bind (exprsRenames as).last)
  | .new _ g as => .skip rfl (g.renames.bind (exprsRenames as).last)
  | .prefixed _ _ x => .skip rfl x.renames.last
  | .postfixed _ _ x => .skip rfl x.renames.last
  | .binary _ _ l r => .skip rfl (l.renames.bind r.renames.last)
  | .cond _ c t e => .skip rfl (c.renames.bind (t.renames.bind e.renames.last))
  | .array _ es => .skip rfl (exprsRenames es).last
  | .object _ ps => .skip rfl (propertiesRenames ps).last
  | .func _ g => .skip rfl g.renames.last

theorem exprsRenames : ∀ es : List Expr,
    Renames f (exprsTraverseVars (fun s => do f s; return ρ s) es) (exprsNodes es)
      (exprsMapVars ρ es)
  | [] => .pure
  | e :: es => e.renames.bind (exprsRenames es).last

theorem exprRenames? : ∀ e : Option Expr,
    Renames f (exprTraverseVars? (fun s => do f s; return ρ s) e) (exprNodes? e) (exprMapVars? ρ e)
  | none => .pure
  | some e => e.renames.last

theorem propertiesRenames : ∀ ps : List Property, Renames f
    (propertiesTraverseVars (fun s => do f s; return ρ s) ps) (propertiesNodes ps)
      (propertiesMapVars ρ ps)
  | [] => .pure
  | ⟨_, e⟩ :: ps => e.renames.bind (propertiesRenames ps).last

theorem Func.renames : ∀ g : Func, Renames f (g.traverseVars fun s => do f s; return ρ s) g.nodes
    (g.mapVars ρ)
  | ⟨_, _, b, _, _⟩ => .skip rfl b.renames.last

theorem Block.renames : ∀ b : Block, Renames f (b.traverseVars fun s => do f s; return ρ s) b.nodes
    (b.mapVars ρ)
  | ⟨ss, _⟩ => .skip rfl (stmtsRenames ss).last

theorem blockRenames? : ∀ b : Option Block,
    Renames f (blockTraverseVars? (fun s => do f s; return ρ s) b) (blockNodes? b)
      (blockMapVars? ρ b)
  | none => .pure
  | some b => b.renames.last

theorem declsRenames : ∀ ds : List VarDecl,
    Renames f (declsTraverseVars (fun s => do f s; return ρ s) ds) (declsNodes ds)
      (declsMapVars ρ ds)
  | [] => .pure
  | ⟨_, e, _⟩ :: ds => (exprRenames? e).bind (declsRenames ds).last

theorem forInitRenames : ∀ i : Option ForInit,
    Renames f (forInitTraverseVars (fun s => do f s; return ρ s) i) (forInitNodes i)
      (forInitMapVars ρ i)
  | none => .pure
  | some (.vars ds) => (declsRenames ds).last
  | some (.expr e) => e.renames.last

theorem catchesRenames : ∀ cs : List Catch,
    Renames f (catchesTraverseVars (fun s => do f s; return ρ s) cs) (catchesNodes cs)
      (catchesMapVars ρ cs)
  | [] => .pure
  | ⟨_, _, b, _⟩ :: cs => b.renames.bind (catchesRenames cs).last

theorem casesRenames : ∀ cs : List SwitchCase,
    Renames f (casesTraverseVars (fun s => do f s; return ρ s) cs) (casesNodes cs)
      (casesMapVars ρ cs)
  | [] => .pure
  | ⟨t, ss⟩ :: cs => (exprRenames? t).bind ((stmtsRenames ss).bind (casesRenames cs).last)

theorem stmtsRenames : ∀ ss : List Stmt,
    Renames f (stmtsTraverseVars (fun s => do f s; return ρ s) ss) (stmtsNodes ss)
      (stmtsMapVars ρ ss)
  | [] => .pure
  | s :: ss => s.renames.bind (stmtsRenames ss).last

theorem stmtRenames? : ∀ s : Option Stmt,
    Renames f (stmtTraverseVars? (fun s => do f s; return ρ s) s) (stmtNodes? s) (stmtMapVars? ρ s)
  | none => .pure
  | some s => s.renames.last

theorem Stmt.renames : ∀ s : Stmt, Renames f (s.traverseVars fun s => do f s; return ρ s) s.nodes
    (s.mapVars ρ)
  | .expr _ e | .raise _ e => .skip rfl e.renames.last
  | .vars _ ds => .skip rfl (declsRenames ds).last
  | .ret _ e => .skip rfl (exprRenames? e).last
  | .branch _ c t e => .skip rfl (c.renames.bind (t.renames.bind (stmtRenames? e).last))
  | .whileLoop _ c b => .skip rfl (c.renames.bind b.renames.last)
  | .doWhile _ b c => .skip rfl (b.renames.bind c.renames.last)
  | .forLoop _ i c n b =>
    .skip rfl
      ((forInitRenames i).bind ((exprRenames? c).bind ((exprRenames? n).bind b.renames.last)))
  | .forIn _ _ _ o b => .skip rfl (o.renames.bind b.renames.last)
  | .block _ b => .skip rfl b.renames.last
  | .tryBlock _ b cs c =>
    .skip rfl (b.renames.bind ((catchesRenames cs).bind (blockRenames? c).last))
  | .labeled _ _ b => .skip rfl b.renames.last
  | .breakTo _ _ | .continueTo _ _ | .empty _ => .skip rfl .pure
  | .switch _ d cs => .skip rfl (d.renames.bind (casesRenames cs).last)

end

end

/-! ## Substitution and search -/

theorem StackVars.substituteVar_eq (v : StackVars) (t : ScopeTable) :
    v.substituteVar t = fun s => do
      modify fun n => if (v.replacement? t s).isSome then n + 1 else n
      return (v.replacement? t s).getD s := by
  funext s
  rw [substituteVar]
  cases v.replacement? t s <;> rfl

/-- Counting one after another comes to a count. -/
theorem forM_count (q : SymbolId → Bool) (ss : List SymbolId) (n : Nat) :
    (forM ss fun s => (modify fun n => if q s then n + 1 else n : StateM Nat Unit)).run n =
      ((), n + ss.countP q) := by
  induction ss generalizing n with
  | nil => rfl
  | cons s ss ih =>
    refine (ih _).trans (Prod.ext rfl ?_)
    cases hs : q s with
    | true => simp [hs, Nat.add_right_comm, Nat.add_assoc]
    | false => simp [hs]

/-- A search fails one after another until it fails. -/
theorem forM_search (s : SymbolId) (ss : List SymbolId) :
    (forM ss fun x => if x = s then none else some ()) = if s ∈ ss then none else some () := by
  induction ss with
  | nil => rfl
  | cons x ss ih =>
    by_cases hx : x = s
    · simp [hx]
    · simp [hx, ih, Ne.symm hx]

theorem Block.refersTo_eq (b : Block) (s : SymbolId) : b.refersTo s = b.vars.contains s := by
  have hsearch : (fun x => if x = s then none else some x) = fun x =>
      (do (if x = s then none else some ()); return id x : Option SymbolId) := by
    funext x
    split <;> rfl
  rw [refersTo, hsearch, b.renames, ← Block.vars, forM_search, List.contains_eq_mem]
  by_cases hs : s ∈ b.vars <;> simp [hs]

namespace Program

theorem references_eq (p : Program) (r : StackRole) :
    p.references r = (p.table.rootName r.reserved).any p.code.vars.contains := by
  rw [references]
  exact congrArg (Option.any · _) (funext p.code.refersTo_eq)

theorem substitute_eq (p : Program) (v : StackVars) :
    p.substitute v = ({ p with code := p.code.mapVars fun s => (v.replacement? p.table s).getD s },
      p.code.vars.countP fun s => (v.replacement? p.table s).isSome) := by
  rw [substitute, StackVars.substituteVar_eq, p.code.renames, StateT.run_bind, ← Block.vars,
    forM_count]
  rw [Nat.zero_add]
  rfl

end Program

end FrameLedger
