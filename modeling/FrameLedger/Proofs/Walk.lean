import FrameLedger.Proofs.Additions

/-!
# Walking over a tree

`mapFuncs` rebuilds a tree function by function. A relation between what the tree names before and
after holds of the whole tree if it holds of what has no function in it, is kept when two pieces are
put together, and is kept when a function has been worked on whose body is done (`Walk`):
`Block.walked`.
-/

namespace FrameLedger

/-- What a piece of code names, depending on the function that it is part of. -/
abbrev Listing := Option Func → List Occurrence

/-- All parts that are listed, with their scopes, satisfy `Q`. -/
def AllParts (Q : ScopeId → Part → Prop) (os : List Occurrence) : Prop :=
  ∀ o ∈ os, Q o.stand.scope o.part

/-- What a walk needs to know. `Q` is what is known of the tree before, by scope and part, and `Φ`
what is shown of code that stands in a scope: the tables before and after and what it names then. -/
structure Walk (step : Func → StateM Ledger Func) (Q : ScopeId → Part → Prop)
    (Φ : ScopeId → ScopeTable → ScopeTable → Listing → Listing → Prop) : Prop where
  none : ∀ sc t, Φ sc t t (fun _ => []) fun _ => []
  one : ∀ sc part t, Q sc part → (∀ f, part ≠ .func f) →
    Φ sc t t (fun i => [⟨⟨i, sc⟩, part⟩]) fun i => [⟨⟨i, sc⟩, part⟩]
  append : ∀ {sc : ScopeId} {t t' t'' : ScopeTable} {a b a' b' : Listing}, Φ sc t t' a b →
    Φ sc t' t'' a' b' → Φ sc t t'' (fun i => a i ++ a' i) fun i => b i ++ b' i
  /-- The code of a catch clause. -/
  inner : ∀ {sc sc' : ScopeId} {t t' : ScopeTable} {a b : Listing}, Q sc (.clause sc') →
    Φ sc' t t' a b →
    Φ sc t t' (fun i => ⟨⟨i, sc⟩, .clause sc'⟩ :: a i) fun i => ⟨⟨i, sc⟩, .clause sc'⟩ :: b i
  func : ∀ (n : Option SymbolId) (ps : List SymbolId) (b b' : Block) (sc sc' : ScopeId)
    (p : Position) (t : ScopeTable) (l : Ledger) (i : Option Func),
      AllParts Q (Func.occurrences ⟨n, ps, b, sc, p⟩ ⟨i, sc'⟩) →
      Φ sc t l.table (fun i => b.occurrences ⟨i, sc⟩) (fun i => b'.occurrences ⟨i, sc⟩) →
        Φ sc' t ((step ⟨n, ps, b', sc, p⟩).run l).2.table
          (fun i => Func.occurrences ⟨n, ps, b, sc, p⟩ ⟨i, sc'⟩)
          fun i => ((step ⟨n, ps, b', sc, p⟩).run l).1.occurrences ⟨i, sc'⟩

/-- What holds of the tables before and after and of the result. -/
def Walked {α : Type} (x : StateM Ledger α) (P : ScopeTable → ScopeTable → α → Prop) : Prop :=
  ∀ l, P l.table (x.run l).2.table (x.run l).1

namespace Walked

variable {α β : Type} {x : StateM Ledger α} {f : α → StateM Ledger β}
  {P : ScopeTable → ScopeTable → α → Prop} {R : ScopeTable → ScopeTable → β → Prop}

theorem pure {a : α} (h : ∀ t, P t t a) : Walked (pure a) P := fun l => h l.table

theorem bind (hx : Walked x P) (hf : ∀ a, Walked (f a) fun t' t'' b => ∀ t, P t t' a → R t t'' b) :
    Walked (x >>= f) R := fun l => hf (x.run l).1 (x.run l).2 l.table (hx l)

end Walked

section

variable {step : Func → StateM Ledger Func} {Q : ScopeId → Part → Prop}
  {Φ : ScopeId → ScopeTable → ScopeTable → Listing → Listing → Prop}

theorem AllParts.left {a b : List Occurrence} (h : AllParts Q (a ++ b)) : AllParts Q a :=
  fun o ho => h o (List.mem_append_left _ ho)

theorem AllParts.right {a b : List Occurrence} (h : AllParts Q (a ++ b)) : AllParts Q b :=
  fun o ho => h o (List.mem_append_right _ ho)

theorem AllParts.tail {o : Occurrence} {os : List Occurrence} (h : AllParts Q (o :: os)) :
    AllParts Q os := fun o' ho =>
  h o' (List.mem_cons_of_mem _ ho)

theorem AllParts.head {w : Stand} {part : Part} {os : List Occurrence}
    (h : AllParts Q (⟨w, part⟩ :: os)) :
    Q w.scope part := h _ List.mem_cons_self

mutual

theorem Expr.walked (W : Walk step Q Φ) : ∀ (e : Expr) (i : Option Func) (sc : ScopeId),
    AllParts Q (e.occurrences ⟨i, sc⟩) →
    Walked (e.mapFuncs step) fun t t' e' => Φ sc t t' (fun i => e.occurrences ⟨i, sc⟩) fun i =>
      e'.occurrences ⟨i, sc⟩
  | .var p s, i, sc, h => by
    rw [Expr.mapFuncs]
    exact .pure fun t => W.one sc _ t h.head nofun
  | .bare p n, i, sc, h => by
    rw [Expr.mapFuncs]
    exact .pure (W.none sc)
  | .member p q n, i, sc, h => by
    rw [Expr.mapFuncs]
    refine (q.walked W i sc h.right).bind fun q' => .pure fun t' t hq => ?_
    cases n with
    | symbol s => exact W.append (W.one sc _ t h.left.head nofun) hq
    | property x => exact W.append (W.none sc t) hq
  | .index p a j, i, sc, h => by
    rw [Expr.mapFuncs]
    exact (a.walked W i sc h.left).bind fun a' => (j.walked W i sc h.right).bind fun j' =>
      .pure fun _ _ hj _ ha => W.append ha hj
  | .call p f as, i, sc, h => by
    rw [Expr.mapFuncs]
    exact (f.walked W i sc h.left).bind fun f' => (exprs_walked W as i sc h.right).bind fun as' =>
      .pure fun _ _ has _ hf => W.append hf has
  | .new p f as, i, sc, h => by
    rw [Expr.mapFuncs]
    exact (f.walked W i sc h.left).bind fun f' => (exprs_walked W as i sc h.right).bind fun as' =>
      .pure fun _ _ has _ hf => W.append hf has
  | .prefixed p op x, i, sc, h => by
    rw [Expr.mapFuncs]
    exact (x.walked W i sc h).bind fun x' => .pure fun _ _ hx => hx
  | .postfixed p op x, i, sc, h => by
    rw [Expr.mapFuncs]
    exact (x.walked W i sc h).bind fun x' => .pure fun _ _ hx => hx
  | .binary p op l r, i, sc, h => by
    rw [Expr.mapFuncs]
    exact (l.walked W i sc h.left).bind fun l' => (r.walked W i sc h.right).bind fun r' =>
      .pure fun _ _ hr _ hl => W.append hl hr
  | .cond p c t e, i, sc, h => by
    rw [Expr.mapFuncs]
    exact (c.walked W i sc h.left).bind fun c' => (t.walked W i sc h.right.left).bind fun t' =>
      (e.walked W i sc h.right.right).bind fun e' => .pure fun _ _ he _ ht _ hc =>
        W.append hc (W.append ht he)
  | .literal p l, i, sc, h => by
    rw [Expr.mapFuncs]
    exact .pure (W.none sc)
  | .array p es, i, sc, h => by
    rw [Expr.mapFuncs]
    exact (exprs_walked W es i sc h).bind fun es' => .pure fun _ _ hes => hes
  | .object p ps, i, sc, h => by
    rw [Expr.mapFuncs]
    exact (properties_walked W ps i sc h).bind fun ps' => .pure fun _ _ hps => hps
  | .func p f, i, sc, h => by
    rw [Expr.mapFuncs]
    exact (f.walked W i sc h).bind fun f' => .pure fun _ _ hf => hf

theorem exprs_walked (W : Walk step Q Φ) : ∀ (es : List Expr) (i : Option Func) (sc : ScopeId),
    AllParts Q (exprsOccurrences es ⟨i, sc⟩) → Walked (exprsMapFuncs step es) fun t t' es' =>
      Φ sc t t' (fun i => exprsOccurrences es ⟨i, sc⟩) fun i => exprsOccurrences es' ⟨i, sc⟩
  | [], i, sc, h => by
    rw [exprsMapFuncs]
    exact .pure (W.none sc)
  | e :: es, i, sc, h => by
    rw [exprsMapFuncs]
    exact (e.walked W i sc h.left).bind fun e' => (exprs_walked W es i sc h.right).bind fun es' =>
      .pure fun _ _ hes _ he => W.append he hes

theorem expr?_walked (W : Walk step Q Φ) : ∀ (e : Option Expr) (i : Option Func) (sc : ScopeId),
    AllParts Q (exprOccurrences? e ⟨i, sc⟩) → Walked (exprMapFuncs? step e) fun t t' e' =>
      Φ sc t t' (fun i => exprOccurrences? e ⟨i, sc⟩) fun i => exprOccurrences? e' ⟨i, sc⟩
  | none, i, sc, h => by
    rw [exprMapFuncs?]
    exact .pure (W.none sc)
  | some e, i, sc, h => by
    rw [exprMapFuncs?]
    exact (e.walked W i sc h).bind fun e' => .pure fun _ _ he => he

theorem properties_walked (W : Walk step Q Φ) :
    ∀ (ps : List Property) (i : Option Func) (sc : ScopeId),
    AllParts Q (propertiesOccurrences ps ⟨i, sc⟩) → Walked (propertiesMapFuncs step ps)
      fun t t' ps' =>
      Φ sc t t' (fun i => propertiesOccurrences ps ⟨i, sc⟩) fun i =>
        propertiesOccurrences ps' ⟨i, sc⟩
  | [], i, sc, h => by
    rw [propertiesMapFuncs]
    exact .pure (W.none sc)
  | ⟨k, e⟩ :: ps, i, sc, h => by
    rw [propertiesMapFuncs]
    exact (e.walked W i sc h.left).bind fun e' => (properties_walked W ps i sc h.right).bind
      fun ps' => .pure fun _ _ hps _ he => W.append he hps

theorem Func.walked (W : Walk step Q Φ) : ∀ (f : Func) (i : Option Func) (sc : ScopeId),
    AllParts Q (f.occurrences ⟨i, sc⟩) →
    Walked (f.mapFuncs step) fun t t' f' => Φ sc t t' (fun i => f.occurrences ⟨i, sc⟩) fun i =>
      f'.occurrences ⟨i, sc⟩
  | ⟨n, ps, b, sc', p⟩, i, sc, h => by
    rw [Func.mapFuncs]
    exact fun l => W.func n ps b _ sc' sc p l.table _ i h (b.walked W _ sc' h.tail.right.right l)

theorem Block.walked (W : Walk step Q Φ) : ∀ (b : Block) (i : Option Func) (sc : ScopeId),
    AllParts Q (b.occurrences ⟨i, sc⟩) →
    Walked (b.mapFuncs step) fun t t' b' => Φ sc t t' (fun i => b.occurrences ⟨i, sc⟩) fun i =>
      b'.occurrences ⟨i, sc⟩
  | ⟨ss, p⟩, i, sc, h => by
    rw [Block.mapFuncs]
    exact (stmts_walked W ss i sc h).bind fun ss' => .pure fun _ _ hss => hss

theorem block?_walked (W : Walk step Q Φ) : ∀ (b : Option Block) (i : Option Func) (sc : ScopeId),
    AllParts Q (blockOccurrences? b ⟨i, sc⟩) →
    Walked (blockMapFuncs? step b) fun t t' b' =>
      Φ sc t t' (fun i => blockOccurrences? b ⟨i, sc⟩) fun i => blockOccurrences? b' ⟨i, sc⟩
  | none, i, sc, h => by
    rw [blockMapFuncs?]
    exact .pure (W.none sc)
  | some b, i, sc, h => by
    rw [blockMapFuncs?]
    exact (b.walked W i sc h).bind fun b' => .pure fun _ _ hb => hb

theorem decls_walked (W : Walk step Q Φ) : ∀ (ds : List VarDecl) (i : Option Func) (sc : ScopeId),
    AllParts Q (declsOccurrences ds ⟨i, sc⟩) →
    Walked (declsMapFuncs step ds) fun t t' ds' =>
      Φ sc t t' (fun i => declsOccurrences ds ⟨i, sc⟩) fun i => declsOccurrences ds' ⟨i, sc⟩
  | [], i, sc, h => by
    rw [declsMapFuncs]
    exact .pure (W.none sc)
  | ⟨s, e, p⟩ :: ds, i, sc, h => by
    rw [declsMapFuncs]
    exact (expr?_walked W e i sc h.tail.left).bind fun e' =>
      (decls_walked W ds i sc h.tail.right).bind
      fun ds' => .pure fun _ _ hds t he => W.append (W.one sc _ t h.head nofun) (W.append he hds)

theorem forInit_walked (W : Walk step Q Φ) :
    ∀ (x : Option ForInit) (i : Option Func) (sc : ScopeId),
    AllParts Q (forInitOccurrences x ⟨i, sc⟩) → Walked (forInitMapFuncs step x) fun t t' x' =>
      Φ sc t t' (fun i => forInitOccurrences x ⟨i, sc⟩) fun i => forInitOccurrences x' ⟨i, sc⟩
  | none, i, sc, h => by
    rw [forInitMapFuncs]
    exact .pure (W.none sc)
  | some (.vars ds), i, sc, h => by
    rw [forInitMapFuncs]
    exact (decls_walked W ds i sc h).bind fun ds' => .pure fun _ _ hds => hds
  | some (.expr e), i, sc, h => by
    rw [forInitMapFuncs]
    exact (e.walked W i sc h).bind fun e' => .pure fun _ _ he => he

theorem catches_walked (W : Walk step Q Φ) : ∀ (cs : List Catch) (i : Option Func) (sc : ScopeId),
    AllParts Q (catchesOccurrences cs ⟨i, sc⟩) → Walked (catchesMapFuncs step cs) fun t t' cs' =>
      Φ sc t t' (fun i => catchesOccurrences cs ⟨i, sc⟩) fun i => catchesOccurrences cs' ⟨i, sc⟩
  | [], i, sc, h => by
    rw [catchesMapFuncs]
    exact .pure (W.none sc)
  | ⟨s, sc', b, p⟩ :: cs, i, sc, h => by
    rw [catchesMapFuncs]
    refine (b.walked W i sc' h.tail.tail.left).bind fun b' =>
      (catches_walked W cs i sc h.tail.tail.right).bind fun cs' => .pure fun _ _ hcs t hb => ?_
    exact W.append (W.inner h.head (W.append (W.one sc' _ t h.tail.head nofun) hb)) hcs

theorem cases_walked (W : Walk step Q Φ) :
    ∀ (cs : List SwitchCase) (i : Option Func) (sc : ScopeId),
    AllParts Q (casesOccurrences cs ⟨i, sc⟩) → Walked (casesMapFuncs step cs) fun t t' cs' =>
      Φ sc t t' (fun i => casesOccurrences cs ⟨i, sc⟩) fun i => casesOccurrences cs' ⟨i, sc⟩
  | [], i, sc, h => by
    rw [casesMapFuncs]
    exact .pure (W.none sc)
  | ⟨t, ss⟩ :: cs, i, sc, h => by
    rw [casesMapFuncs]
    exact (expr?_walked W t i sc h.left).bind fun t' => (stmts_walked W ss i sc h.right.left).bind
      fun ss' =>
      (cases_walked W cs i sc h.right.right).bind fun cs' => .pure fun _ _ hcs _ hss _ ht =>
        W.append ht (W.append hss hcs)

theorem stmts_walked (W : Walk step Q Φ) : ∀ (ss : List Stmt) (i : Option Func) (sc : ScopeId),
    AllParts Q (stmtsOccurrences ss ⟨i, sc⟩) → Walked (stmtsMapFuncs step ss) fun t t' ss' =>
      Φ sc t t' (fun i => stmtsOccurrences ss ⟨i, sc⟩) fun i => stmtsOccurrences ss' ⟨i, sc⟩
  | [], i, sc, h => by
    rw [stmtsMapFuncs]
    exact .pure (W.none sc)
  | s :: ss, i, sc, h => by
    rw [stmtsMapFuncs]
    exact (s.walked W i sc h.left).bind fun s' => (stmts_walked W ss i sc h.right).bind fun ss' =>
      .pure fun _ _ hss _ hs => W.append hs hss

theorem stmt?_walked (W : Walk step Q Φ) : ∀ (s : Option Stmt) (i : Option Func) (sc : ScopeId),
    AllParts Q (stmtOccurrences? s ⟨i, sc⟩) → Walked (stmtMapFuncs? step s) fun t t' s' =>
      Φ sc t t' (fun i => stmtOccurrences? s ⟨i, sc⟩) fun i => stmtOccurrences? s' ⟨i, sc⟩
  | none, i, sc, h => by
    rw [stmtMapFuncs?]
    exact .pure (W.none sc)
  | some s, i, sc, h => by
    rw [stmtMapFuncs?]
    exact (s.walked W i sc h).bind fun s' => .pure fun _ _ hs => hs

theorem Stmt.walked (W : Walk step Q Φ) : ∀ (s : Stmt) (i : Option Func) (sc : ScopeId),
    AllParts Q (s.occurrences ⟨i, sc⟩) →
    Walked (s.mapFuncs step) fun t t' s' => Φ sc t t' (fun i => s.occurrences ⟨i, sc⟩) fun i =>
      s'.occurrences ⟨i, sc⟩
  | .expr p e, i, sc, h => by
    rw [Stmt.mapFuncs]
    exact (e.walked W i sc h).bind fun e' => .pure fun _ _ he => he
  | .vars p ds, i, sc, h => by
    rw [Stmt.mapFuncs]
    exact (decls_walked W ds i sc h).bind fun ds' => .pure fun _ _ hds => hds
  | .ret p e, i, sc, h => by
    rw [Stmt.mapFuncs]
    exact (expr?_walked W e i sc h).bind fun e' => .pure fun _ _ he => he
  | .raise p e, i, sc, h => by
    rw [Stmt.mapFuncs]
    exact (e.walked W i sc h).bind fun e' => .pure fun _ _ he => he
  | .branch p c yes no, i, sc, h => by
    rw [Stmt.mapFuncs]
    exact (c.walked W i sc h.left).bind fun c' => (yes.walked W i sc h.right.left).bind fun yes' =>
      (stmt?_walked W no i sc h.right.right).bind fun no' => .pure fun _ _ hno _ hyes _ hc =>
        W.append hc (W.append hyes hno)
  | .whileLoop p c b, i, sc, h => by
    rw [Stmt.mapFuncs]
    exact (c.walked W i sc h.left).bind fun c' => (b.walked W i sc h.right).bind fun b' =>
      .pure fun _ _ hb _ hc => W.append hc hb
  | .doWhile p b c, i, sc, h => by
    rw [Stmt.mapFuncs]
    exact (b.walked W i sc h.left).bind fun b' => (c.walked W i sc h.right).bind fun c' =>
      .pure fun _ _ hc _ hb => W.append hb hc
  | .forLoop p x c n b, i, sc, h => by
    rw [Stmt.mapFuncs]
    exact (forInit_walked W x i sc h.left).bind fun x' => (expr?_walked W c i sc h.right.left).bind
      fun c' =>
      (expr?_walked W n i sc h.right.right.left).bind fun n' =>
        (b.walked W i sc h.right.right.right).bind fun b' =>
        .pure fun _ _ hb _ hn _ hc _ hx => W.append hx (W.append hc (W.append hn hb))
  | .forIn p k d o b, i, sc, h => by
    rw [Stmt.mapFuncs]
    exact (o.walked W i sc h.tail.left).bind fun o' => (b.walked W i sc h.tail.right).bind fun b' =>
      .pure fun _ _ hb t ho => W.append (W.one sc _ t h.head nofun) (W.append ho hb)
  | .block p b, i, sc, h => by
    rw [Stmt.mapFuncs]
    exact (b.walked W i sc h).bind fun b' => .pure fun _ _ hb => hb
  | .tryBlock p b cs f, i, sc, h => by
    rw [Stmt.mapFuncs]
    exact (b.walked W i sc h.left).bind fun b' => (catches_walked W cs i sc h.right.left).bind
      fun cs' => (block?_walked W f i sc h.right.right).bind fun f' =>
        .pure fun _ _ hf _ hcs _ hb => W.append hb (W.append hcs hf)
  | .labeled p l b, i, sc, h => by
    rw [Stmt.mapFuncs]
    exact (b.walked W i sc h).bind fun b' => .pure fun _ _ hb => hb
  | .breakTo p l, i, sc, h => by
    rw [Stmt.mapFuncs]
    exact .pure (W.none sc)
  | .continueTo p l, i, sc, h => by
    rw [Stmt.mapFuncs]
    exact .pure (W.none sc)
  | .switch p d cs, i, sc, h => by
    rw [Stmt.mapFuncs]
    exact (d.walked W i sc h.left).bind fun d' => (cases_walked W cs i sc h.right).bind fun cs' =>
      .pure fun _ _ hcs _ hd => W.append hd hcs
  | .empty p, i, sc, h => by
    rw [Stmt.mapFuncs]
    exact .pure (W.none sc)

end

end

end FrameLedger
