import FrameLedger.Proofs.Occurrences
import FrameLedger.Proofs.Renaming

/-!
# What redirected code names

`mapVars` changes which variables are referred to and nothing else: `Block.occurrences_mapVars`.
-/

namespace FrameLedger

section

variable (ρ : SymbolId → SymbolId)

def Part.mapVars : Part → Part
  | .reference s => .reference (ρ s)
  | .func f => .func (f.mapVars ρ)
  | .member s => .member s
  | .declarator s => .declarator s
  | .binder s => .binder s
  | .clause sc => .clause sc

def Stand.mapVars (w : Stand) : Stand := ⟨w.func.map (Func.mapVars ρ), w.scope⟩

def Occurrence.mapVars (o : Occurrence) : Occurrence := ⟨o.stand.mapVars ρ, o.part.mapVars ρ⟩

theorem MemberName.occurrences_mapVars (n : MemberName) (w : Stand) :
    n.occurrences (w.mapVars ρ) = (n.occurrences w).map (Occurrence.mapVars ρ) := by
  cases n <;> rfl

mutual

theorem Expr.occurrences_mapVars : ∀ (e : Expr) (w : Stand),
    (e.mapVars ρ).occurrences (w.mapVars ρ) = (e.occurrences w).map (Occurrence.mapVars ρ)
  | .var _ _, w | .bare .., w | .literal .., w => rfl
  | .member p q n, w => by
    simp only [Expr.mapVars, Expr.occurrences, List.map_append, n.occurrences_mapVars,
      q.occurrences_mapVars]
  | .index p a i, w => by
    simp only [Expr.mapVars, Expr.occurrences, List.map_append, a.occurrences_mapVars,
      i.occurrences_mapVars]
  | .call p f as, w => by
    simp only [Expr.mapVars, Expr.occurrences, List.map_append, f.occurrences_mapVars,
      exprsOccurrences_mapVars as]
  | .new p f as, w => by
    simp only [Expr.mapVars, Expr.occurrences, List.map_append, f.occurrences_mapVars,
      exprsOccurrences_mapVars as]
  | .prefixed p op x, w => by simp only [Expr.mapVars, Expr.occurrences, x.occurrences_mapVars]
  | .postfixed p op x, w => by simp only [Expr.mapVars, Expr.occurrences, x.occurrences_mapVars]
  | .binary p op l r, w => by
    simp only [Expr.mapVars, Expr.occurrences, List.map_append, l.occurrences_mapVars,
      r.occurrences_mapVars]
  | .cond p c t e, w => by
    simp only [Expr.mapVars, Expr.occurrences, List.map_append, c.occurrences_mapVars,
      t.occurrences_mapVars, e.occurrences_mapVars]
  | .array p es, w => by simp only [Expr.mapVars, Expr.occurrences, exprsOccurrences_mapVars es]
  | .object p ps, w => by
    simp only [Expr.mapVars, Expr.occurrences, propertiesOccurrences_mapVars ps]
  | .func p f, w => by simp only [Expr.mapVars, Expr.occurrences, f.occurrences_mapVars]

theorem exprsOccurrences_mapVars : ∀ (es : List Expr) (w : Stand),
    exprsOccurrences (exprsMapVars ρ es) (w.mapVars ρ) =
      (exprsOccurrences es w).map (Occurrence.mapVars ρ)
  | [], w => rfl
  | e :: es, w => by
    simp only [exprsMapVars, exprsOccurrences, List.map_append, e.occurrences_mapVars,
      exprsOccurrences_mapVars es]

theorem exprOccurrences?_mapVars : ∀ (e : Option Expr) (w : Stand),
    exprOccurrences? (exprMapVars? ρ e) (w.mapVars ρ) =
      (exprOccurrences? e w).map (Occurrence.mapVars ρ)
  | none, w => rfl
  | some e, w => by simp only [exprMapVars?, exprOccurrences?, e.occurrences_mapVars]

theorem propertiesOccurrences_mapVars : ∀ (ps : List Property) (w : Stand),
    propertiesOccurrences (propertiesMapVars ρ ps) (w.mapVars ρ) =
      (propertiesOccurrences ps w).map (Occurrence.mapVars ρ)
  | [], w => rfl
  | ⟨k, e⟩ :: ps, w => by
    simp only [propertiesMapVars, propertiesOccurrences, List.map_append, e.occurrences_mapVars,
      propertiesOccurrences_mapVars ps]

theorem Func.occurrences_mapVars : ∀ (f : Func) (w : Stand),
    (f.mapVars ρ).occurrences (w.mapVars ρ) = (f.occurrences w).map (Occurrence.mapVars ρ)
  | ⟨n, ps, b, sc, p⟩, w => by
    have hb := b.occurrences_mapVars ⟨some ⟨n, ps, b, sc, p⟩, sc⟩
    simp only [Stand.mapVars, Option.map_some, Func.mapVars] at hb
    simp only [Func.mapVars, Func.occurrences, List.map_cons, List.map_append, List.map_map, hb]
    rfl

theorem Block.occurrences_mapVars : ∀ (b : Block) (w : Stand),
    (b.mapVars ρ).occurrences (w.mapVars ρ) = (b.occurrences w).map (Occurrence.mapVars ρ)
  | ⟨ss, p⟩, w => by simp only [Block.mapVars, Block.occurrences, stmtsOccurrences_mapVars ss]

theorem blockOccurrences?_mapVars : ∀ (b : Option Block) (w : Stand),
    blockOccurrences? (blockMapVars? ρ b) (w.mapVars ρ) =
      (blockOccurrences? b w).map (Occurrence.mapVars ρ)
  | none, w => rfl
  | some b, w => by simp only [blockMapVars?, blockOccurrences?, b.occurrences_mapVars]

theorem declsOccurrences_mapVars : ∀ (ds : List VarDecl) (w : Stand),
    declsOccurrences (declsMapVars ρ ds) (w.mapVars ρ) =
      (declsOccurrences ds w).map (Occurrence.mapVars ρ)
  | [], w => rfl
  | ⟨s, e, p⟩ :: ds, w => by
    simp only [declsMapVars, declsOccurrences, List.map_cons, List.map_append,
      exprOccurrences?_mapVars e, declsOccurrences_mapVars ds]
    rfl

theorem forInitOccurrences_mapVars : ∀ (x : Option ForInit) (w : Stand),
    forInitOccurrences (forInitMapVars ρ x) (w.mapVars ρ) =
      (forInitOccurrences x w).map (Occurrence.mapVars ρ)
  | none, w => rfl
  | some (.vars ds), w => by
    simp only [forInitMapVars, forInitOccurrences, declsOccurrences_mapVars ds]
  | some (.expr e), w => by simp only [forInitMapVars, forInitOccurrences, e.occurrences_mapVars]

theorem catchesOccurrences_mapVars : ∀ (cs : List Catch) (w : Stand),
    catchesOccurrences (catchesMapVars ρ cs) (w.mapVars ρ) =
      (catchesOccurrences cs w).map (Occurrence.mapVars ρ)
  | [], w => rfl
  | ⟨s, sc, b, p⟩ :: cs, w => by
    have hb := b.occurrences_mapVars { w with scope := sc }
    simp only [Stand.mapVars] at hb
    have hcs := catchesOccurrences_mapVars cs w
    simp only [Stand.mapVars] at hcs
    simp only [catchesMapVars, catchesOccurrences, List.map_cons, List.map_append, Stand.mapVars,
      hb, hcs]
    rfl

theorem casesOccurrences_mapVars : ∀ (cs : List SwitchCase) (w : Stand),
    casesOccurrences (casesMapVars ρ cs) (w.mapVars ρ) =
      (casesOccurrences cs w).map (Occurrence.mapVars ρ)
  | [], w => rfl
  | ⟨t, ss⟩ :: cs, w => by
    simp only [casesMapVars, casesOccurrences, List.map_append, exprOccurrences?_mapVars t,
      stmtsOccurrences_mapVars ss, casesOccurrences_mapVars cs]

theorem stmtsOccurrences_mapVars : ∀ (ss : List Stmt) (w : Stand),
    stmtsOccurrences (stmtsMapVars ρ ss) (w.mapVars ρ) =
      (stmtsOccurrences ss w).map (Occurrence.mapVars ρ)
  | [], w => rfl
  | s :: ss, w => by
    simp only [stmtsMapVars, stmtsOccurrences, List.map_append, s.occurrences_mapVars,
      stmtsOccurrences_mapVars ss]

theorem stmtOccurrences?_mapVars : ∀ (s : Option Stmt) (w : Stand),
    stmtOccurrences? (stmtMapVars? ρ s) (w.mapVars ρ) =
      (stmtOccurrences? s w).map (Occurrence.mapVars ρ)
  | none, w => rfl
  | some s, w => by simp only [stmtMapVars?, stmtOccurrences?, s.occurrences_mapVars]

theorem Stmt.occurrences_mapVars : ∀ (s : Stmt) (w : Stand),
    (s.mapVars ρ).occurrences (w.mapVars ρ) = (s.occurrences w).map (Occurrence.mapVars ρ)
  | .expr p e, w => by simp only [Stmt.mapVars, Stmt.occurrences, e.occurrences_mapVars]
  | .vars p ds, w => by simp only [Stmt.mapVars, Stmt.occurrences, declsOccurrences_mapVars ds]
  | .ret p e, w => by simp only [Stmt.mapVars, Stmt.occurrences, exprOccurrences?_mapVars e]
  | .raise p e, w => by simp only [Stmt.mapVars, Stmt.occurrences, e.occurrences_mapVars]
  | .branch p c yes no, w => by
    simp only [Stmt.mapVars, Stmt.occurrences, List.map_append, c.occurrences_mapVars,
      yes.occurrences_mapVars, stmtOccurrences?_mapVars no]
  | .whileLoop p c b, w => by
    simp only [Stmt.mapVars, Stmt.occurrences, List.map_append, c.occurrences_mapVars,
      b.occurrences_mapVars]
  | .doWhile p b c, w => by
    simp only [Stmt.mapVars, Stmt.occurrences, List.map_append, c.occurrences_mapVars,
      b.occurrences_mapVars]
  | .forLoop p x c n b, w => by
    simp only [Stmt.mapVars, Stmt.occurrences, List.map_append, forInitOccurrences_mapVars x,
      exprOccurrences?_mapVars c, exprOccurrences?_mapVars n, b.occurrences_mapVars]
  | .forIn p k d o b, w => by
    simp only [Stmt.mapVars, Stmt.occurrences, List.map_cons, List.map_append,
      o.occurrences_mapVars, b.occurrences_mapVars]
    rfl
  | .block p b, w => by simp only [Stmt.mapVars, Stmt.occurrences, b.occurrences_mapVars]
  | .tryBlock p b cs f, w => by
    simp only [Stmt.mapVars, Stmt.occurrences, List.map_append, b.occurrences_mapVars,
      catchesOccurrences_mapVars cs, blockOccurrences?_mapVars f]
  | .labeled p l b, w => by simp only [Stmt.mapVars, Stmt.occurrences, b.occurrences_mapVars]
  | .breakTo .., w | .continueTo .., w | .empty .., w => rfl
  | .switch p d cs, w => by
    simp only [Stmt.mapVars, Stmt.occurrences, List.map_append, d.occurrences_mapVars,
      casesOccurrences_mapVars cs]

end

/-- Nothing else is declared. -/
theorem declarators_mapVars (os : List Occurrence) :
    declarators (os.map (Occurrence.mapVars ρ)) = declarators os := by
  rw [declarators, List.filterMap_map]
  refine List.filterMap_congr fun o _ => ?_
  obtain ⟨w, part⟩ := o
  cases part <;> rfl

end

end FrameLedger
