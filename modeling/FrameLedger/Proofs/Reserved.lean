import FrameLedger.Proofs.Renaming
import FrameLedger.Proofs.Drafting

/-!
# Code without reserved names

`Block.mapVars_eq`: a renaming that moves none of the variables a tree refers to leaves the tree as
it is. So does the pass when it redirects the reserved names, if the program does not refer to them.
-/

namespace FrameLedger

section

variable {ρ : SymbolId → SymbolId}

/-- A node whose own reference is not moved. -/
def Node.Fixed (ρ : SymbolId → SymbolId) (n : Node) : Prop := ∀ s, n.var? = some s → ρ s = s

mutual

theorem Expr.mapVars_eq : ∀ e : Expr, (∀ n ∈ e.nodes, n.Fixed ρ) → e.mapVars ρ = e
  | .var p s, h => by rw [Expr.mapVars, h _ List.mem_cons_self s rfl]
  | .bare p n, _ => by rw [Expr.mapVars]
  | .member p q n, h => by rw [Expr.mapVars, q.mapVars_eq (List.forall_mem_cons.1 h).2]
  | .index p a i, h => by
    obtain ⟨ha, hi⟩ := List.forall_mem_append.1 (List.forall_mem_cons.1 h).2
    rw [Expr.mapVars, a.mapVars_eq ha, i.mapVars_eq hi]
  | .call p f as, h => by
    obtain ⟨hf, has⟩ := List.forall_mem_append.1 (List.forall_mem_cons.1 h).2
    rw [Expr.mapVars, f.mapVars_eq hf, exprsMapVars_eq as has]
  | .new p f as, h => by
    obtain ⟨hf, has⟩ := List.forall_mem_append.1 (List.forall_mem_cons.1 h).2
    rw [Expr.mapVars, f.mapVars_eq hf, exprsMapVars_eq as has]
  | .prefixed p op x, h => by rw [Expr.mapVars, x.mapVars_eq (List.forall_mem_cons.1 h).2]
  | .postfixed p op x, h => by rw [Expr.mapVars, x.mapVars_eq (List.forall_mem_cons.1 h).2]
  | .binary p op l r, h => by
    obtain ⟨hl, hr⟩ := List.forall_mem_append.1 (List.forall_mem_cons.1 h).2
    rw [Expr.mapVars, l.mapVars_eq hl, r.mapVars_eq hr]
  | .cond p c t e, h => by
    obtain ⟨hc, hrest⟩ := List.forall_mem_append.1 (List.forall_mem_cons.1 h).2
    obtain ⟨ht, he⟩ := List.forall_mem_append.1 hrest
    rw [Expr.mapVars, c.mapVars_eq hc, t.mapVars_eq ht, e.mapVars_eq he]
  | .literal p l, _ => by rw [Expr.mapVars]
  | .array p es, h => by rw [Expr.mapVars, exprsMapVars_eq es (List.forall_mem_cons.1 h).2]
  | .object p ps, h => by rw [Expr.mapVars, propertiesMapVars_eq ps (List.forall_mem_cons.1 h).2]
  | .func p f, h => by rw [Expr.mapVars, f.mapVars_eq (List.forall_mem_cons.1 h).2]

theorem exprsMapVars_eq : ∀ es : List Expr, (∀ n ∈ exprsNodes es, n.Fixed ρ) →
    exprsMapVars ρ es = es
  | [], _ => by rw [exprsMapVars]
  | e :: es, h => by
    obtain ⟨he, hes⟩ := List.forall_mem_append.1 h
    rw [exprsMapVars, e.mapVars_eq he, exprsMapVars_eq es hes]

theorem exprMapVars?_eq : ∀ e : Option Expr, (∀ n ∈ exprNodes? e, n.Fixed ρ) → exprMapVars? ρ e = e
  | none, _ => by rw [exprMapVars?]
  | some e, h => by rw [exprMapVars?, e.mapVars_eq h]

theorem propertiesMapVars_eq : ∀ ps : List Property, (∀ n ∈ propertiesNodes ps, n.Fixed ρ) →
    propertiesMapVars ρ ps = ps
  | [], _ => by rw [propertiesMapVars]
  | ⟨k, e⟩ :: ps, h => by
    obtain ⟨he, hps⟩ := List.forall_mem_append.1 h
    rw [propertiesMapVars, e.mapVars_eq he, propertiesMapVars_eq ps hps]

theorem Func.mapVars_eq : ∀ f : Func, (∀ n ∈ f.nodes, n.Fixed ρ) → f.mapVars ρ = f
  | ⟨n, ps, b, sc, p⟩, h => by rw [Func.mapVars, b.mapVars_eq (List.forall_mem_cons.1 h).2]

theorem Block.mapVars_eq : ∀ b : Block, (∀ n ∈ b.nodes, n.Fixed ρ) → b.mapVars ρ = b
  | ⟨ss, p⟩, h => by rw [Block.mapVars, stmtsMapVars_eq ss (List.forall_mem_cons.1 h).2]

theorem blockMapVars?_eq : ∀ b : Option Block, (∀ n ∈ blockNodes? b, n.Fixed ρ) →
    blockMapVars? ρ b = b
  | none, _ => by rw [blockMapVars?]
  | some b, h => by rw [blockMapVars?, b.mapVars_eq h]

theorem declsMapVars_eq : ∀ ds : List VarDecl, (∀ n ∈ declsNodes ds, n.Fixed ρ) →
    declsMapVars ρ ds = ds
  | [], _ => by rw [declsMapVars]
  | ⟨s, e, p⟩ :: ds, h => by
    obtain ⟨he, hds⟩ := List.forall_mem_append.1 h
    rw [declsMapVars, exprMapVars?_eq e he, declsMapVars_eq ds hds]

theorem forInitMapVars_eq : ∀ i : Option ForInit, (∀ n ∈ forInitNodes i, n.Fixed ρ) →
    forInitMapVars ρ i = i
  | none, _ => by rw [forInitMapVars]
  | some (.vars ds), h => by rw [forInitMapVars, declsMapVars_eq ds h]
  | some (.expr e), h => by rw [forInitMapVars, e.mapVars_eq h]

theorem catchesMapVars_eq : ∀ cs : List Catch, (∀ n ∈ catchesNodes cs, n.Fixed ρ) →
    catchesMapVars ρ cs = cs
  | [], _ => by rw [catchesMapVars]
  | ⟨s, sc, b, p⟩ :: cs, h => by
    obtain ⟨hb, hcs⟩ := List.forall_mem_append.1 h
    rw [catchesMapVars, b.mapVars_eq hb, catchesMapVars_eq cs hcs]

theorem casesMapVars_eq : ∀ cs : List SwitchCase, (∀ n ∈ casesNodes cs, n.Fixed ρ) →
    casesMapVars ρ cs = cs
  | [], _ => by rw [casesMapVars]
  | ⟨t, ss⟩ :: cs, h => by
    obtain ⟨ht, hrest⟩ := List.forall_mem_append.1 h
    obtain ⟨hss, hcs⟩ := List.forall_mem_append.1 hrest
    rw [casesMapVars, exprMapVars?_eq t ht, stmtsMapVars_eq ss hss, casesMapVars_eq cs hcs]

theorem stmtsMapVars_eq : ∀ ss : List Stmt, (∀ n ∈ stmtsNodes ss, n.Fixed ρ) →
    stmtsMapVars ρ ss = ss
  | [], _ => by rw [stmtsMapVars]
  | s :: ss, h => by
    obtain ⟨hs, hss⟩ := List.forall_mem_append.1 h
    rw [stmtsMapVars, s.mapVars_eq hs, stmtsMapVars_eq ss hss]

theorem stmtMapVars?_eq : ∀ s : Option Stmt, (∀ n ∈ stmtNodes? s, n.Fixed ρ) → stmtMapVars? ρ s = s
  | none, _ => by rw [stmtMapVars?]
  | some s, h => by rw [stmtMapVars?, s.mapVars_eq h]

theorem Stmt.mapVars_eq : ∀ s : Stmt, (∀ n ∈ s.nodes, n.Fixed ρ) → s.mapVars ρ = s
  | .expr p e, h => by rw [Stmt.mapVars, e.mapVars_eq (List.forall_mem_cons.1 h).2]
  | .vars p ds, h => by rw [Stmt.mapVars, declsMapVars_eq ds (List.forall_mem_cons.1 h).2]
  | .ret p e, h => by rw [Stmt.mapVars, exprMapVars?_eq e (List.forall_mem_cons.1 h).2]
  | .raise p e, h => by rw [Stmt.mapVars, e.mapVars_eq (List.forall_mem_cons.1 h).2]
  | .branch p c yes no, h => by
    obtain ⟨hc, hrest⟩ := List.forall_mem_append.1 (List.forall_mem_cons.1 h).2
    obtain ⟨hyes, hno⟩ := List.forall_mem_append.1 hrest
    rw [Stmt.mapVars, c.mapVars_eq hc, yes.mapVars_eq hyes, stmtMapVars?_eq no hno]
  | .whileLoop p c b, h => by
    obtain ⟨hc, hb⟩ := List.forall_mem_append.1 (List.forall_mem_cons.1 h).2
    rw [Stmt.mapVars, c.mapVars_eq hc, b.mapVars_eq hb]
  | .doWhile p b c, h => by
    obtain ⟨hb, hc⟩ := List.forall_mem_append.1 (List.forall_mem_cons.1 h).2
    rw [Stmt.mapVars, b.mapVars_eq hb, c.mapVars_eq hc]
  | .forLoop p i c n b, h => by
    obtain ⟨hi, hrest⟩ := List.forall_mem_append.1 (List.forall_mem_cons.1 h).2
    obtain ⟨hc, hrest⟩ := List.forall_mem_append.1 hrest
    obtain ⟨hn, hb⟩ := List.forall_mem_append.1 hrest
    rw [Stmt.mapVars, forInitMapVars_eq i hi, exprMapVars?_eq c hc, exprMapVars?_eq n hn,
      b.mapVars_eq hb]
  | .forIn p k d o b, h => by
    obtain ⟨ho, hb⟩ := List.forall_mem_append.1 (List.forall_mem_cons.1 h).2
    rw [Stmt.mapVars, o.mapVars_eq ho, b.mapVars_eq hb]
  | .block p b, h => by rw [Stmt.mapVars, b.mapVars_eq (List.forall_mem_cons.1 h).2]
  | .tryBlock p b cs f, h => by
    obtain ⟨hb, hrest⟩ := List.forall_mem_append.1 (List.forall_mem_cons.1 h).2
    obtain ⟨hcs, hf⟩ := List.forall_mem_append.1 hrest
    rw [Stmt.mapVars, b.mapVars_eq hb, catchesMapVars_eq cs hcs, blockMapVars?_eq f hf]
  | .labeled p l b, h => by rw [Stmt.mapVars, b.mapVars_eq (List.forall_mem_cons.1 h).2]
  | .breakTo p l, _ => by rw [Stmt.mapVars]
  | .continueTo p l, _ => by rw [Stmt.mapVars]
  | .switch p d cs, h => by
    obtain ⟨hd, hcs⟩ := List.forall_mem_append.1 (List.forall_mem_cons.1 h).2
    rw [Stmt.mapVars, d.mapVars_eq hd, casesMapVars_eq cs hcs]
  | .empty p, _ => by rw [Stmt.mapVars]

end

theorem declsMapVars_append (b a : List VarDecl) :
    declsMapVars ρ (a ++ b) = declsMapVars ρ a ++ declsMapVars ρ b := by
  induction a with
  | nil => rfl
  | cons d a ih =>
    obtain ⟨s, e, p⟩ := d
    rw [List.cons_append, declsMapVars, declsMapVars, ih, List.cons_append]

/-- The declarators that make the stack refer to nothing. -/
theorem StackVars.declsMapVars_decls (v : StackVars) : declsMapVars ρ v.decls = v.decls := by
  rw [decls]
  rcases v.location with _ | s <;> rfl

end

/-! ## The variables of the stack -/

namespace ScopeTable

theorem rootName_addSymbol_of_ne {t : ScopeTable} {x : Symbol} (h : x.scope ≠ root)
    (ident : String) :
    (t.addSymbol x).2.rootName ident = t.rootName ident := by
  have hne : x.scope.index ≠ root.index := fun heq => h (by
    rw [show x.scope = ⟨x.scope.index⟩ from rfl, heq])
  simp only [rootName, findIn, namesIn, scope?, addSymbol, Array.getElem?_modify, if_neg hne]

/-- The variables of the stack get the next numbers. -/
theorem allocate_eq (withLocation : Bool) (t : ScopeTable) :
    (StackVars.allocate withLocation t).1 = ⟨⟨t.symbols.size⟩, ⟨t.symbols.size + 1⟩,
      if withLocation then some ⟨t.symbols.size + 2⟩ else none⟩ := by
  cases withLocation <;> simp [StackVars.allocate, declareUnique]

theorem size_allocate (withLocation : Bool) (t : ScopeTable) :
    (StackVars.allocate withLocation t).2.symbols.size =
      t.symbols.size + if withLocation then 3 else 2 := by
  cases withLocation <;> simp [StackVars.allocate, declareUnique]

theorem rootName_allocate (withLocation : Bool) (t : ScopeTable) (ident : String) :
    (StackVars.allocate withLocation t).2.rootName ident = t.rootName ident := by
  have hne : program ≠ root := by decide
  cases withLocation with
  | true =>
    simp only [StackVars.allocate, declareUnique, if_true]
    rw [rootName_addSymbol_of_ne hne, rootName_addSymbol_of_ne hne, rootName_addSymbol_of_ne hne]
  | false =>
    simp only [StackVars.allocate, declareUnique]
    exact (rootName_addSymbol_of_ne hne _).trans (rootName_addSymbol_of_ne hne _)

end ScopeTable

/-- A program that does not refer to a reserved name has nothing redirected. -/
theorem Program.replacement?_eq_none {p : Program} (hp : ∀ r, p.references r = false)
    {t : ScopeTable} (ht : ∀ x, t.rootName x = p.table.rootName x) (v : StackVars) {s : SymbolId}
    (hs : s ∈ p.code.vars) :
    v.replacement? t s = none := by
  have hrole : t.roleOf? s = none := by
    refine List.find?_eq_none.2 fun r _ hr => ?_
    have hname : p.table.rootName r.reserved = some s := by
      rw [← ht]
      exact eq_of_beq hr
    have href := hp r
    rw [references_eq, hname] at href
    simp [hs] at href
  rw [StackVars.replacement?, hrole]
  rfl

end FrameLedger
