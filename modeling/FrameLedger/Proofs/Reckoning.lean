import FrameLedger.Proofs.Noting
import FrameLedger.Proofs.Tally

/-!
# What the pass has counted

The pass goes through a program function by function. What it counts on the way, functions that it
leaves alone included, is what the tree has gained in the end (`Meter.Reckoned`).
`Program.Resolved.stats_emulate` says so of the whole program, whose own code has nothing to do with
the stack.
-/

namespace FrameLedger

open Program

/-! ## Functions -/

/-- What a function counts for before it is worked on. -/
def Node.due (p : Program) : Node → Stats
  | .func f => if f.body.isEmpty || p.isImmortal f then { skipped := 1 } else { instrumented := 1 }
  | _ => 0

def due (p : Program) (ns : List Node) : Stats := (ns.map (Node.due p)).sum

@[simp] theorem due_nil (p : Program) : due p [] = 0 := rfl

@[simp] theorem due_cons (p : Program) (n : Node) (ns : List Node) :
    due p (n :: ns) = n.due p + due p ns := by
  simp [due]

@[simp] theorem due_append (p : Program) (a b : List Node) :
    due p (a ++ b) = due p a + due p b := by
  simp [due]

namespace Meter

/-- The flags are those of the table. -/
def Knows (M : Meter) (t : ScopeTable) : Prop :=
  ∀ s : SymbolId, M.base ≤ s.index → s.index < t.symbols.size → M.flag s = t.isFlag s

theorem Knows.earlier {M : Meter} {t t' : ScopeTable} (h : M.Knows t') (ht : t.Extends t') :
    M.Knows t :=
  fun s hs hlt => (h s hs (Nat.lt_of_lt_of_le hlt ht.symbols_le)).trans (ht.isFlag hlt)

/-- Of the nodes `a` the nodes `b` were made while the ledger went from `l` to `l'`. The flags that
came in are new, and each was declared once. -/
def Reckoned (M : Meter) (p : Program) (l l' : Ledger) (a b : List Node) : Prop :=
  l.table.symbols.size ≤ l'.table.symbols.size ∧ ∃ F : Multiset SymbolId, F.Nodup ∧
    (∀ s ∈ F, l.table.symbols.size ≤ s.index ∧ s.index < l'.table.symbols.size) ∧
      M.tally b + (l.stats + due p a, 0) = M.tally a + (l'.stats, F)

variable {M : Meter} {p : Program} {l l₁ l₂ : Ledger} {a a' b b' : List Node} {n n' : Node}

/-- New flags besides those that are there. -/
theorem nodup_add {F F' : Multiset SymbolId} {i j k : Nat} (hF : F.Nodup) (hF' : F'.Nodup)
    (h : ∀ s ∈ F, i ≤ s.index ∧ s.index < j) (h' : ∀ s ∈ F', j ≤ s.index ∧ s.index < k)
    (hij : i ≤ j) (hjk : j ≤ k) :
    (F + F').Nodup ∧ ∀ s ∈ F + F', i ≤ s.index ∧ s.index < k := by
  refine ⟨Multiset.nodup_add.2 ⟨hF, hF', Multiset.disjoint_left.2 fun hs hs' => ?_⟩, fun s hs => ?_⟩
  · exact absurd (h _ hs).2 (Nat.not_lt_of_le (h' _ hs').1)
  · rcases Multiset.mem_add.1 hs with hs | hs
    · exact ⟨(h s hs).1, Nat.lt_of_lt_of_le (h s hs).2 hjk⟩
    · exact ⟨Nat.le_trans hij (h' s hs).1, (h' s hs).2⟩

/-- Something is counted on top of the rest. -/
theorem add_to {s s' c δ δ' : Stats} {F F' : Multiset SymbolId} {x y z : Tally}
    (h : y + (s + c, 0) = x + (s', F)) (h' : z + (δ', 0) = y + (δ, F')) :
    z + (s + (δ' + c), 0) = x + (s' + δ, F + F') := by
  have hleft : ((s + (δ' + c), 0) : Tally) = (δ', 0) + (s + c, 0) :=
    Prod.ext (add_left_comm ..) (add_zero _).symm
  calc z + (s + (δ' + c), 0)
    _ = y + (δ, F') + (s + c, 0) := by rw [hleft, ← add_assoc, h']
    _ = x + ((s', F) + (δ, F')) := by rw [add_right_comm, h, add_assoc]

namespace Reckoned

theorem same (h : due p a = 0) : M.Reckoned p l l a a :=
  ⟨Nat.le_refl _, 0, Multiset.nodup_zero, fun s hs => absurd hs (Multiset.notMem_zero s), by
    rw [h, add_zero]⟩

theorem append (h : M.Reckoned p l l₁ a b) (h' : M.Reckoned p l₁ l₂ a' b') :
    M.Reckoned p l l₂ (a ++ a') (b ++ b') := by
  obtain ⟨hle, F, hF, hnew, heq⟩ := h
  obtain ⟨hle', F', hF', hnew', heq'⟩ := h'
  obtain ⟨hnodup, hrange⟩ := nodup_add hF hF' hnew hnew' hle hle'
  refine ⟨hle.trans hle', F + F', hnodup, hrange, ?_⟩
  have hdue : ((l.stats + (due p a + due p a'), 0) : Tally) =
      (l.stats + due p a, 0) + (due p a', 0) :=
    Prod.ext (add_assoc ..).symm (add_zero _).symm
  have hfirst : ((l₁.stats, F) : Tally) + (due p a', 0) = (l₁.stats + due p a', 0) + (0, F) :=
    Prod.ext (add_zero _).symm (add_comm ..)
  have hboth : ((l₂.stats, F') : Tally) + (0, F) = (l₂.stats, F + F') :=
    Prod.ext (add_zero _) (add_comm ..)
  calc M.tally (b ++ b') + (l.stats + due p (a ++ a'), 0)
    _ = (M.tally b + (l.stats + due p a, 0)) + (M.tally b' + (due p a', 0)) := by
      rw [tally_append, due_append, hdue, add_add_add_comm]
    _ = M.tally a + M.tally b' + ((l₁.stats, F) + (due p a', 0)) := by rw [heq, add_add_add_comm]
    _ = M.tally a + (M.tally b' + (l₁.stats + due p a', 0)) + (0, F) := by
      rw [hfirst, ← add_assoc, ← add_assoc]
    _ = M.tally (a ++ a') + (l₂.stats, F + F') := by
      rw [heq', tally_append, ← hboth, ← add_assoc, ← add_assoc]

theorem cons (hn : M.ofNode n' = M.ofNode n) (hdue : n.due p = 0) (h : M.Reckoned p l l₁ a b) :
    M.Reckoned p l l₁ (n :: a) (n' :: b) := by
  obtain ⟨hle, F, hF, hnew, heq⟩ := h
  refine ⟨hle, F, hF, hnew, ?_⟩
  rw [tally_cons, tally_cons, due_cons, hn, hdue, zero_add, add_assoc, heq, add_assoc]

end Reckoned

/-- Work on a tree keeps the table as the pass needs it. `Q` says what it makes, by the ledgers
before and after. -/
def Reckons {α : Type} (M : Meter) (x : StateM Ledger α) (Q : Ledger → Ledger → α → Prop) : Prop :=
  ∀ l, l.table.Holds M.vars M.base → (x.run l).2.table.Holds M.vars M.base ∧
    l.table.Adds (x.run l).2.table ∧ (M.Knows (x.run l).2.table → Q l (x.run l).2 (x.run l).1)

namespace Reckons

variable {α β : Type} {x : StateM Ledger α} {f : α → StateM Ledger β}
  {P : Ledger → Ledger → α → Prop} {Q : Ledger → Ledger → β → Prop}

theorem pure {a : α} (h : ∀ l, P l l a) : M.Reckons (pure a) P :=
  fun l hl => ⟨hl, .refl _, fun _ => h l⟩

/-- What comes second may rely on what is known of the first result besides. -/
theorem bind_of {R : α → Prop} (hx : M.Reckons x P)
    (hR : ∀ l, l.table.Holds M.vars M.base → R (x.run l).1)
    (hf : ∀ a, R a → M.Reckons (f a) fun l₁ l₂ b => ∀ l, P l l₁ a → Q l l₂ b) :
    M.Reckons (x >>= f) Q := fun l hl => by
  obtain ⟨hl₁, hadds, hP⟩ := hx l hl
  obtain ⟨hl₂, hadds', hQ⟩ := hf (x.run l).1 (hR l hl) (x.run l).2 hl₁
  exact ⟨hl₂, hadds.trans hadds', fun hk => hQ hk l (hP (hk.earlier hadds'.toExtends))⟩

theorem bind (hx : M.Reckons x P)
    (hf : ∀ a, M.Reckons (f a) fun l₁ l₂ b => ∀ l, P l l₁ a → Q l l₂ b) :
    M.Reckons (x >>= f) Q := hx.bind_of (R := fun _ => True) (fun _ _ => trivial) fun a _ => hf a

end Reckons

end Meter

theorem Func.Reworked.isEmpty {L : Layout} {T : List Catch → Option Block → Prop} {f f₁ : Func}
    (h : f.Reworked L T f₁) :
    f₁.body.isEmpty = f.body.isEmpty := by
  have hbody := h.body {}
  unfold Block.isEmpty
  rcases hss : f.body.stmts with _ | ⟨s, ss⟩ <;> rw [hss] at hbody
  · rw [show f₁.body.stmts = [] from hbody]
  · obtain ⟨first, rest, hfirst, -, heq⟩ := hbody
    obtain ⟨s', rfl, -⟩ := Stmt.Framed.plain hfirst
    rw [heq]
    rfl

theorem Expr.root?_mapFuncs {σ : Type} (step : Func → StateM σ Func) (e : Expr) (l : σ) :
    ((e.mapFuncs step).run l).1.root? = e.root? := by
  cases e with
  | index p a i => cases a <;> rfl
  | _ => rfl

namespace Program

section

variable (p : Program) (v : StackVars) (w : SymbolId) (recorder : Option Recorder)

theorem stats_frameFunc_skip {f : Func} (h : f.body.isEmpty ∨ p.isImmortal f) (l : Ledger) :
    ((p.frameFunc v w recorder f).run l).2.stats = l.stats + { skipped := 1 } := by
  unfold frameFunc
  dsimp only
  split
  · rfl
  · next hempty =>
    have himm : p.isImmortal f = true := h.resolve_left hempty
    unfold isImmortal at himm
    rcases hn : f.name with _ | s <;> rw [hn] at himm
    · nomatch himm
    · rw [Option.filter_some, if_pos (by simpa using himm)]
      rfl

theorem stats_frameFunc {f : Func} (hempty : f.body.isEmpty = false) (himm : p.isImmortal f = false)
    (l : Ledger) :
    ((p.frameFunc v w recorder f).run l).2.stats =
      l.stats + (f.framed v w recorder l.table).2.1 := by
  have hnone : f.name.filter p.immortal.contains = none := by
    unfold isImmortal at himm
    rcases hn : f.name with _ | s <;> rw [hn] at himm
    · rfl
    · rw [Option.filter_some, if_neg (by simpa using himm)]
  unfold frameFunc
  simp only [hempty, hnone]
  rfl

/-- Counts what has to do with the stack that a program gets. -/
def meter (base : Nat) (flag : SymbolId → Bool) : Meter where
  toLayout := p.layout v w recorder base (fun _ => False) (fun _ _ => True) fun _ _ _ => True
  flag := flag

end

section

variable {p : Program} {v : StackVars} {w : SymbolId} {recorder : Option Recorder} {base : Nat}
  {flag : SymbolId → Bool}

/-- Locations are recorded in the variable for them, and the variables of the stack are new. -/
structure Keeps (v : StackVars) (recorder : Option Recorder) (base : Nat) : Prop where
  recorder : ∀ r, recorder = some r → v.location = some r.location
  base_le : ∀ s, v.Uses s → base ≤ s.index

/-- One function, once the functions inside are done. -/
theorem reckons_frameFunc (hv : Keeps v recorder base) {f f₁ : Func}
    (hf : ∀ n ∈ f.nodes, n.Admitted base (fun _ => False) fun _ _ => True)
    (h : f.Reworked (p.meter v w recorder base flag).toLayout (fun _ _ => True) f₁) :
    (p.meter v w recorder base flag).Reckons (p.frameFunc v w recorder f₁) fun l₁ l₂ f' => ∀ l,
      (p.meter v w recorder base flag).Reckoned p l l₁ f.body.nodes f₁.body.nodes →
        (p.meter v w recorder base flag).Reckoned p l l₂ f.nodes f'.nodes := by
  set M := p.meter v w recorder base flag
  intro l₁ hl₁
  have hlayout : f.Reworked
      (p.layout v w recorder base (fun _ => False) (fun _ _ => True) fun _ _ _ => True)
    (fun _ _ => True) f₁ := h
  obtain ⟨hl₂, hadds, -⟩ :=
    frameFunc_framedAs hv.recorder (fun _ _ _ => id) (.inr rfl) hf hlayout hl₁
  refine ⟨hl₂, hadds, fun hk l hbody => ?_⟩
  have himm : p.isImmortal f₁ = p.isImmortal f := by rw [isImmortal, isImmortal, h.name]
  have hnodes (g : Func) : M.tally g.nodes = M.tally g.body.nodes := by
    obtain ⟨_, _, _, _, _⟩ := g
    exact zero_add _
  have hdue : due p f.nodes = (Node.func f).due p + due p f.body.nodes := by
    obtain ⟨_, _, _, _, _⟩ := f
    exact due_cons ..
  obtain ⟨hle, F, hF, hnew, heq⟩ := hbody
  cases hskip : f.body.isEmpty || p.isImmortal f with
  | true =>
    have hskip₁ : f₁.body.isEmpty ∨ p.isImmortal f₁ := by simpa [h.isEmpty, himm] using hskip
    obtain ⟨hsame, htable⟩ := p.run_frameFunc_skip v w recorder hskip₁ l₁
    rw [Meter.Reckoned, hsame, htable, p.stats_frameFunc_skip v w recorder hskip₁, hnodes, hnodes,
      hdue, Node.due, if_pos hskip]
    refine ⟨hle, F, hF, hnew, ?_⟩
    have hsum := Meter.add_to (z := M.tally f₁.body.nodes) (δ := { skipped := 1 }) heq rfl
    rwa [add_zero] at hsum
  | false =>
    obtain ⟨hempty, hmortal⟩ := Bool.or_eq_false_iff.1 hskip
    obtain ⟨hsame, htable⟩ :=
      p.run_frameFunc v w recorder (h.isEmpty.trans hempty) (himm.trans hmortal) l₁
    rw [htable] at hk hl₂ hadds
    obtain ⟨F', hF', hnew', heq'⟩ :=
      Meter.tally_framed (M := M) hv.base_le (h.body {}) hv.recorder hl₁.vars hl₁.roots
      fun s hs hlt => hk s (Nat.le_trans hl₁.base_le hs) hlt
    rw [Meter.Reckoned, hsame, htable, p.stats_frameFunc v w recorder (h.isEmpty.trans hempty)
      (himm.trans hmortal), hnodes f, hdue, Node.due, if_neg (Bool.not_eq_true _ ▸ hskip)]
    rw [hnodes f₁] at heq'
    obtain ⟨hnodup, hrange⟩ :=
      Meter.nodup_add hF (Multiset.coe_nodup.2 hF') hnew hnew' hle hadds.symbols_le
    exact ⟨hle.trans hadds.symbols_le, F + F', hnodup, hrange, Meter.add_to heq heq'⟩

/-- A body in which the functions inside are done. -/
theorem reworked_block (hrecorder : ∀ r, recorder = some r → v.location = some r.location)
    {b : Block} (hb : ∀ n ∈ b.nodes, n.Admitted base (fun _ => False) fun _ _ => True) {l : Ledger}
    (hl : l.table.Holds v base) (n : Option SymbolId) (ps : List SymbolId) (sc : ScopeId)
    (q : Position) :
    Func.Reworked (p.meter v w recorder base flag).toLayout (fun _ _ => True) ⟨n, ps, b, sc, q⟩
      ⟨n, ps, ((b.mapFuncs (p.frameFunc v w recorder)).run l).1, sc, q⟩ := by
  have hmaps := Block.maps (L := (p.meter v w recorder base flag).toLayout)
    ⟨fun _ _ hf h => maps_frameFunc hrecorder (fun _ _ _ => id) (.inr rfl) hf h l.table,
      fun _ l hf hl => ⟨hf, l, hl.1, rfl⟩⟩ b hb l ⟨hl, .refl _⟩
  exact ⟨rfl, rfl, rfl, hmaps.2.1, hmaps.2.2⟩

theorem foreign_of_admitted (hbase : ∀ s, v.Uses s → base ≤ s.index) {e : Expr}
    (h : ∀ n ∈ e.nodes, n.Admitted base (fun _ => False) fun _ _ => True) :
    e.Foreign v := by
  intro s hs hu
  refine Nat.not_lt_of_le (hbase s hu) ?_
  cases e with
  | var q x => exact Node.Admitted.symbol_lt h hs
  | index q a i =>
    cases a with
    | var q' x =>
      exact Node.Admitted.symbol_lt (List.forall_mem_append.1 (List.forall_mem_cons.1 h).2).1 hs
    | _ => cases hs
  | _ => cases hs

mutual

theorem reckons_expr (hv : Keeps v recorder base) :
    ∀ e : Expr, (∀ n ∈ e.nodes, n.Admitted base (fun _ => False) fun _ _ => True) →
    (p.meter v w recorder base flag).Reckons (e.mapFuncs (p.frameFunc v w recorder)) fun l l' e' =>
      (p.meter v w recorder base flag).Reckoned p l l' e.nodes e'.nodes
  | .var q s, _ => by
    rw [Expr.mapFuncs]
    exact .pure fun _ => .same rfl
  | .bare q n, _ => by
    rw [Expr.mapFuncs]
    exact .pure fun _ => .same rfl
  | .member q o n, h => by
    rw [Expr.mapFuncs]
    exact (reckons_expr hv o (List.forall_mem_cons.1 h).2).bind fun o' => .pure fun _ _ ho =>
      ho.cons rfl rfl
  | .index q a i, h => by
    obtain ⟨ha, hi⟩ := List.forall_mem_append.1 (List.forall_mem_cons.1 h).2
    rw [Expr.mapFuncs]
    exact (reckons_expr hv a ha).bind fun a' => (reckons_expr hv i hi).bind fun i' =>
      .pure fun _ _ hi _ ha => (ha.append hi).cons rfl rfl
  | .call q f as, h => by
    obtain ⟨hf, has⟩ := List.forall_mem_append.1 (List.forall_mem_cons.1 h).2
    rw [Expr.mapFuncs]
    exact (reckons_expr hv f hf).bind fun f' => (reckons_exprs hv as has).bind fun as' =>
      .pure fun _ _ has _ hf => (hf.append has).cons rfl rfl
  | .new q f as, h => by
    obtain ⟨hf, has⟩ := List.forall_mem_append.1 (List.forall_mem_cons.1 h).2
    rw [Expr.mapFuncs]
    exact (reckons_expr hv f hf).bind fun f' => (reckons_exprs hv as has).bind fun as' =>
      .pure fun _ _ has _ hf => (hf.append has).cons rfl rfl
  | .prefixed q op x, h => by
    rw [Expr.mapFuncs]
    exact (reckons_expr hv x (List.forall_mem_cons.1 h).2).bind fun x' => .pure fun _ _ hx =>
      hx.cons rfl rfl
  | .postfixed q op x, h => by
    rw [Expr.mapFuncs]
    exact (reckons_expr hv x (List.forall_mem_cons.1 h).2).bind fun x' => .pure fun _ _ hx =>
      hx.cons rfl rfl
  | .binary q op l r, h => by
    obtain ⟨hl, hr⟩ := List.forall_mem_append.1 (List.forall_mem_cons.1 h).2
    have hforeign := foreign_of_admitted hv.base_le hl
    rw [Expr.mapFuncs]
    refine (reckons_expr hv l hl).bind_of (R := fun l' : Expr => l'.Foreign v) (fun k _ => ?_)
      fun l' hl' =>
      (reckons_expr hv r hr).bind fun r' => .pure fun _ _ hr _ hl => (hl.append hr).cons ?_ rfl
    · rw [Expr.Foreign, Expr.root?_mapFuncs]
      exact hforeign
    · exact (Meter.ofNode_binary (fun _ => hl') r').trans
        (Meter.ofNode_binary (fun _ => hforeign) r).symm
  | .cond q c t e, h => by
    obtain ⟨hc, hrest⟩ := List.forall_mem_append.1 (List.forall_mem_cons.1 h).2
    obtain ⟨ht, he⟩ := List.forall_mem_append.1 hrest
    rw [Expr.mapFuncs]
    exact (reckons_expr hv c hc).bind fun c' => (reckons_expr hv t ht).bind fun t' =>
      (reckons_expr hv e he).bind fun e' =>
      .pure fun _ _ he _ ht _ hc => (hc.append (ht.append he)).cons rfl rfl
  | .literal q l, _ => by
    rw [Expr.mapFuncs]
    exact .pure fun _ => .same rfl
  | .array q es, h => by
    rw [Expr.mapFuncs]
    exact (reckons_exprs hv es (List.forall_mem_cons.1 h).2).bind fun es' => .pure fun _ _ hes =>
      hes.cons rfl rfl
  | .object q ps, h => by
    rw [Expr.mapFuncs]
    exact (reckons_properties hv ps (List.forall_mem_cons.1 h).2).bind fun ps' =>
      .pure fun _ _ hps => hps.cons rfl rfl
  | .func q f, h => by
    rw [Expr.mapFuncs]
    exact (reckons_func hv f (List.forall_mem_cons.1 h).2).bind fun f' => .pure fun _ _ hf =>
      hf.cons rfl rfl

theorem reckons_exprs (hv : Keeps v recorder base) :
    ∀ es : List Expr, (∀ n ∈ exprsNodes es, n.Admitted base (fun _ => False) fun _ _ => True) →
    (p.meter v w recorder base flag).Reckons (exprsMapFuncs (p.frameFunc v w recorder) es)
      fun l l' es' =>
      (p.meter v w recorder base flag).Reckoned p l l' (exprsNodes es) (exprsNodes es')
  | [], _ => by
    rw [exprsMapFuncs]
    exact .pure fun _ => .same rfl
  | e :: es, h => by
    obtain ⟨he, hes⟩ := List.forall_mem_append.1 h
    rw [exprsMapFuncs]
    exact (reckons_expr hv e he).bind fun e' => (reckons_exprs hv es hes).bind fun es' =>
      .pure fun _ _ hes _ he => he.append hes

theorem reckons_expr? (hv : Keeps v recorder base) :
    ∀ e : Option Expr, (∀ n ∈ exprNodes? e, n.Admitted base (fun _ => False) fun _ _ => True) →
    (p.meter v w recorder base flag).Reckons (exprMapFuncs? (p.frameFunc v w recorder) e)
      fun l l' e' => (p.meter v w recorder base flag).Reckoned p l l' (exprNodes? e) (exprNodes? e')
  | none, _ => by
    rw [exprMapFuncs?]
    exact .pure fun _ => .same rfl
  | some e, h => by
    rw [exprMapFuncs?]
    exact (reckons_expr hv e h).bind fun e' => .pure fun _ _ he => he

theorem reckons_properties (hv : Keeps v recorder base) : ∀ ps : List Property,
    (∀ n ∈ propertiesNodes ps, n.Admitted base (fun _ => False) fun _ _ => True) →
      (p.meter v w recorder base flag).Reckons (propertiesMapFuncs (p.frameFunc v w recorder) ps)
        fun l l' ps' =>
        (p.meter v w recorder base flag).Reckoned p l l' (propertiesNodes ps) (propertiesNodes ps')
  | [], _ => by
    rw [propertiesMapFuncs]
    exact .pure fun _ => .same rfl
  | ⟨k, e⟩ :: ps, h => by
    obtain ⟨he, hps⟩ := List.forall_mem_append.1 h
    rw [propertiesMapFuncs]
    exact (reckons_expr hv e he).bind fun e' => (reckons_properties hv ps hps).bind fun ps' =>
      .pure fun _ _ hps _ he => he.append hps

theorem reckons_func (hv : Keeps v recorder base) :
    ∀ f : Func, (∀ n ∈ f.nodes, n.Admitted base (fun _ => False) fun _ _ => True) →
    (p.meter v w recorder base flag).Reckons (f.mapFuncs (p.frameFunc v w recorder)) fun l l' f' =>
      (p.meter v w recorder base flag).Reckoned p l l' f.nodes f'.nodes
  | ⟨n, ps, b, sc, q⟩, h => by
    have hb := (List.forall_mem_cons.1 h).2
    rw [Func.mapFuncs]
    exact (reckons_block hv b hb).bind_of (fun l hl => reworked_block hv.recorder hb hl n ps sc q)
      fun b' hb' => reckons_frameFunc hv h hb'

theorem reckons_block (hv : Keeps v recorder base) :
    ∀ b : Block, (∀ n ∈ b.nodes, n.Admitted base (fun _ => False) fun _ _ => True) →
    (p.meter v w recorder base flag).Reckons (b.mapFuncs (p.frameFunc v w recorder)) fun l l' b' =>
      (p.meter v w recorder base flag).Reckoned p l l' b.nodes b'.nodes
  | ⟨ss, q⟩, h => by
    rw [Block.mapFuncs]
    exact (reckons_stmts hv ss (List.forall_mem_cons.1 h).2).bind fun ss' => .pure fun _ _ hss =>
      hss.cons rfl rfl

theorem reckons_block? (hv : Keeps v recorder base) :
    ∀ b : Option Block, (∀ n ∈ blockNodes? b, n.Admitted base (fun _ => False) fun _ _ => True) →
    (p.meter v w recorder base flag).Reckons (blockMapFuncs? (p.frameFunc v w recorder) b)
      fun l l' b' =>
      (p.meter v w recorder base flag).Reckoned p l l' (blockNodes? b) (blockNodes? b')
  | none, _ => by
    rw [blockMapFuncs?]
    exact .pure fun _ => .same rfl
  | some b, h => by
    rw [blockMapFuncs?]
    exact (reckons_block hv b h).bind fun b' => .pure fun _ _ hb => hb

theorem reckons_decls (hv : Keeps v recorder base) :
    ∀ ds : List VarDecl, (∀ n ∈ declsNodes ds, n.Admitted base (fun _ => False) fun _ _ => True) →
    (p.meter v w recorder base flag).Reckons (declsMapFuncs (p.frameFunc v w recorder) ds)
      fun l l' ds' =>
      (p.meter v w recorder base flag).Reckoned p l l' (declsNodes ds) (declsNodes ds') ∧
        ds'.map (·.name) = ds.map (·.name)
  | [], _ => by
    rw [declsMapFuncs]
    exact .pure fun _ => ⟨.same rfl, rfl⟩
  | ⟨s, e, q⟩ :: ds, h => by
    obtain ⟨he, hds⟩ := List.forall_mem_append.1 h
    rw [declsMapFuncs]
    exact (reckons_expr? hv e he).bind fun e' => (reckons_decls hv ds hds).bind fun ds' =>
      .pure fun _ _ hds _ he => ⟨he.append hds.1, congrArg (s :: ·) hds.2⟩

theorem reckons_catches (hv : Keeps v recorder base) : ∀ cs : List Catch,
    (∀ n ∈ catchesNodes cs, n.Admitted base (fun _ => False) fun _ _ => True) →
      (p.meter v w recorder base flag).Reckons (catchesMapFuncs (p.frameFunc v w recorder) cs)
        fun l l' cs' =>
        (p.meter v w recorder base flag).Reckoned p l l' (catchesNodes cs) (catchesNodes cs') ∧
          cs'.length = cs.length
  | [], _ => by
    rw [catchesMapFuncs]
    exact .pure fun _ => ⟨.same rfl, rfl⟩
  | ⟨s, sc, b, q⟩ :: cs, h => by
    obtain ⟨hb, hcs⟩ := List.forall_mem_append.1 h
    rw [catchesMapFuncs]
    exact (reckons_block hv b hb).bind fun b' => (reckons_catches hv cs hcs).bind fun cs' =>
      .pure fun _ _ hcs _ hb => ⟨hb.append hcs.1, congrArg (· + 1) hcs.2⟩

theorem reckons_cases (hv : Keeps v recorder base) :
    ∀ cs : List SwitchCase,
    (∀ n ∈ casesNodes cs, n.Admitted base (fun _ => False) fun _ _ => True) →
    (p.meter v w recorder base flag).Reckons (casesMapFuncs (p.frameFunc v w recorder) cs)
      fun l l' cs' =>
      (p.meter v w recorder base flag).Reckoned p l l' (casesNodes cs) (casesNodes cs')
  | [], _ => by
    rw [casesMapFuncs]
    exact .pure fun _ => .same rfl
  | ⟨t, ss⟩ :: cs, h => by
    obtain ⟨ht, hrest⟩ := List.forall_mem_append.1 h
    obtain ⟨hss, hcs⟩ := List.forall_mem_append.1 hrest
    rw [casesMapFuncs]
    exact (reckons_expr? hv t ht).bind fun t' => (reckons_stmts hv ss hss).bind fun ss' =>
      (reckons_cases hv cs hcs).bind fun cs' =>
      .pure fun _ _ hcs _ hss _ ht => ht.append (hss.append hcs)

theorem reckons_stmts (hv : Keeps v recorder base) :
    ∀ ss : List Stmt, (∀ n ∈ stmtsNodes ss, n.Admitted base (fun _ => False) fun _ _ => True) →
    (p.meter v w recorder base flag).Reckons (stmtsMapFuncs (p.frameFunc v w recorder) ss)
      fun l l' ss' =>
      (p.meter v w recorder base flag).Reckoned p l l' (stmtsNodes ss) (stmtsNodes ss')
  | [], _ => by
    rw [stmtsMapFuncs]
    exact .pure fun _ => .same rfl
  | s :: ss, h => by
    obtain ⟨hs, hss⟩ := List.forall_mem_append.1 h
    rw [stmtsMapFuncs]
    exact (reckons_stmt hv s hs).bind fun s' => (reckons_stmts hv ss hss).bind fun ss' =>
      .pure fun _ _ hss _ hs => hs.append hss

theorem reckons_stmt? (hv : Keeps v recorder base) :
    ∀ s : Option Stmt, (∀ n ∈ stmtNodes? s, n.Admitted base (fun _ => False) fun _ _ => True) →
    (p.meter v w recorder base flag).Reckons (stmtMapFuncs? (p.frameFunc v w recorder) s)
      fun l l' s' => (p.meter v w recorder base flag).Reckoned p l l' (stmtNodes? s) (stmtNodes? s')
  | none, _ => by
    rw [stmtMapFuncs?]
    exact .pure fun _ => .same rfl
  | some s, h => by
    rw [stmtMapFuncs?]
    exact (reckons_stmt hv s h).bind fun s' => .pure fun _ _ hs => hs

theorem reckons_stmt (hv : Keeps v recorder base) :
    ∀ s : Stmt, (∀ n ∈ s.nodes, n.Admitted base (fun _ => False) fun _ _ => True) →
    (p.meter v w recorder base flag).Reckons (s.mapFuncs (p.frameFunc v w recorder)) fun l l' s' =>
      (p.meter v w recorder base flag).Reckoned p l l' s.nodes s'.nodes
  | .expr q e, h => by
    rw [Stmt.mapFuncs]
    exact (reckons_expr hv e (List.forall_mem_cons.1 h).2).bind fun e' => .pure fun _ _ he =>
      he.cons rfl rfl
  | .vars q ds, h => by
    rw [Stmt.mapFuncs]
    refine (reckons_decls hv ds (List.forall_mem_cons.1 h).2).bind fun ds' => .pure fun _ _ hds =>
      hds.1.cons ?_ rfl
    exact Meter.ofNode_vars_congr hds.2
  | .ret q e, h => by
    rw [Stmt.mapFuncs]
    exact (reckons_expr? hv e (List.forall_mem_cons.1 h).2).bind fun e' => .pure fun _ _ he =>
      he.cons rfl rfl
  | .raise q e, h => by
    rw [Stmt.mapFuncs]
    exact (reckons_expr hv e (List.forall_mem_cons.1 h).2).bind fun e' => .pure fun _ _ he =>
      he.cons rfl rfl
  | .branch q c t e, h => by
    obtain ⟨hc, hrest⟩ := List.forall_mem_append.1 (List.forall_mem_cons.1 h).2
    obtain ⟨ht, he⟩ := List.forall_mem_append.1 hrest
    rw [Stmt.mapFuncs]
    exact (reckons_expr hv c hc).bind fun c' => (reckons_stmt hv t ht).bind fun t' =>
      (reckons_stmt? hv e he).bind fun e' =>
      .pure fun _ _ he _ ht _ hc => (hc.append (ht.append he)).cons rfl rfl
  | .whileLoop q c b, h => by
    obtain ⟨hc, hb⟩ := List.forall_mem_append.1 (List.forall_mem_cons.1 h).2
    rw [Stmt.mapFuncs]
    exact (reckons_expr hv c hc).bind fun c' => (reckons_stmt hv b hb).bind fun b' =>
      .pure fun _ _ hb _ hc => (hc.append hb).cons rfl rfl
  | .doWhile q b c, h => by
    obtain ⟨hb, hc⟩ := List.forall_mem_append.1 (List.forall_mem_cons.1 h).2
    rw [Stmt.mapFuncs]
    exact (reckons_stmt hv b hb).bind fun b' => (reckons_expr hv c hc).bind fun c' =>
      .pure fun _ _ hc _ hb => (hb.append hc).cons rfl rfl
  | .forLoop q i c n b, h => by
    obtain ⟨hi, hrest⟩ := List.forall_mem_append.1 (List.forall_mem_cons.1 h).2
    obtain ⟨hc, hrest⟩ := List.forall_mem_append.1 hrest
    obtain ⟨hn, hb⟩ := List.forall_mem_append.1 hrest
    rw [Stmt.mapFuncs]
    have hinit : (p.meter v w recorder base flag).Reckons
        (forInitMapFuncs (p.frameFunc v w recorder) i) fun l l' i' =>
        (p.meter v w recorder base flag).Reckoned p l l' (forInitNodes i) (forInitNodes i') ∧
        ∀ c' n' b',
          (p.meter v w recorder base flag).ofNode (.stmt (.forLoop q i' c' n' b')) =
            (p.meter v w recorder base flag).ofNode (.stmt (.forLoop q i c n b)) := by
      rcases i with _ | ds | e
      · rw [forInitMapFuncs]
        exact .pure fun _ => ⟨.same rfl, fun _ _ _ => rfl⟩
      · rw [forInitMapFuncs]
        exact (reckons_decls hv ds hi).bind fun ds' => .pure fun _ _ hds =>
          ⟨hds.1, fun _ _ _ => Meter.ofNode_forLoop_congr hds.2⟩
      · rw [forInitMapFuncs]
        exact (reckons_expr hv e hi).bind fun e' => .pure fun _ _ he => ⟨he, fun _ _ _ => rfl⟩
    exact hinit.bind fun i' => (reckons_expr? hv c hc).bind fun c' =>
      (reckons_expr? hv n hn).bind fun n' =>
      (reckons_stmt hv b hb).bind fun b' => .pure fun _ _ hb _ hn _ hc _ hi =>
        (hi.1.append (hc.append (hn.append hb))).cons (hi.2 ..) rfl
  | .forIn q k d o b, h => by
    obtain ⟨ho, hb⟩ := List.forall_mem_append.1 (List.forall_mem_cons.1 h).2
    rw [Stmt.mapFuncs]
    exact (reckons_expr hv o ho).bind fun o' => (reckons_stmt hv b hb).bind fun b' =>
      .pure fun _ _ hb _ ho => (ho.append hb).cons rfl rfl
  | .block q b, h => by
    rw [Stmt.mapFuncs]
    exact (reckons_block hv b (List.forall_mem_cons.1 h).2).bind fun b' => .pure fun _ _ hb =>
      hb.cons rfl rfl
  | .tryBlock q b cs f, h => by
    obtain ⟨hb, hrest⟩ := List.forall_mem_append.1 (List.forall_mem_cons.1 h).2
    obtain ⟨hcs, hf⟩ := List.forall_mem_append.1 hrest
    rw [Stmt.mapFuncs]
    exact (reckons_block hv b hb).bind fun b' => (reckons_catches hv cs hcs).bind fun cs' =>
      (reckons_block? hv f hf).bind fun f' =>
      .pure fun _ _ hf _ hcs _ hb =>
        (hb.append (hcs.1.append hf)).cons (Meter.ofNode_tryBlock hcs.2) rfl
  | .labeled q l b, h => by
    rw [Stmt.mapFuncs]
    exact (reckons_stmt hv b (List.forall_mem_cons.1 h).2).bind fun b' => .pure fun _ _ hb =>
      hb.cons rfl rfl
  | .breakTo q l, _ => by
    rw [Stmt.mapFuncs]
    exact .pure fun _ => .same rfl
  | .continueTo q l, _ => by
    rw [Stmt.mapFuncs]
    exact .pure fun _ => .same rfl
  | .switch q d cs, h => by
    obtain ⟨hd, hcs⟩ := List.forall_mem_append.1 (List.forall_mem_cons.1 h).2
    rw [Stmt.mapFuncs]
    exact (reckons_expr hv d hd).bind fun d' => (reckons_cases hv cs hcs).bind fun cs' =>
      .pure fun _ _ hcs _ hd => (hd.append hcs).cons rfl rfl
  | .empty q, _ => by
    rw [Stmt.mapFuncs]
    exact .pure fun _ => .same rfl

end

end

end Program

/-! ## The program -/

theorem toNat_add_countP {α : Type} (f : α → Bool) (a : α) (l : List α) :
    (f a).toNat + l.countP f = (a :: l).countP f := by
  rw [List.countP_cons, Nat.add_comm]
  cases f a <;> rfl

/-- A tally is a count of nodes. -/
theorem Meter.tally_eq (M : Meter) (ns : List Node) : M.tally ns = Prod.mk (β := Multiset SymbolId)
    { pops := ns.countP (Node.isPop M.vars)
      resets := ns.countP (Node.isReset M.vars)
      locations := ns.countP (Node.isNote M.vars)
      syntheticCatches := (ns.flatMap Node.clauses).length
      earlyExitFlags := ((ns.flatMap Node.declared).filter M.flag).length }
    ((ns.flatMap Node.declared).filter M.flag : List SymbolId) := by
  induction ns with
  | nil => rfl
  | cons n ns ih =>
    rw [tally_cons, ih]
    simp only [← toNat_add_countP, List.flatMap_cons, List.filter_append, List.length_append,
      ← Multiset.coe_add]
    rfl

/-- What is due is a count of functions. -/
theorem due_eq (p : Program) (ns : List Node) : due p ns =
    { instrumented := (ns.filterMap Node.func?).countP fun f => !(f.body.isEmpty || p.isImmortal f)
      skipped := (ns.filterMap Node.func?).countP fun f => f.body.isEmpty || p.isImmortal f } := by
  induction ns with
  | nil => rfl
  | cons n ns ih =>
    rw [due_cons, ih]
    cases n with
    | func f =>
      rw [List.filterMap_cons_some (f := Node.func?) rfl, ← toNat_add_countP, ← toNat_add_countP,
        Node.due]
      cases f.body.isEmpty || p.isImmortal f <;> rfl
    | _ => exact zero_add _

/-- Declarators that count for nothing may be merged into code. -/
theorem sum_mergeVars {α : Type} [AddCommMonoid α] (g : Node → α) {ds : List VarDecl}
    (hds : ((declsNodes ds).map g).sum = 0)
    (hvars : ∀ q es, g (.stmt (.vars q (es ++ ds))) = g (.stmt (.vars q es)))
    (hnil : ∀ q, g (.stmt (.vars q [])) = 0) (pos : Position) (ss : List Stmt) :
    ((stmtsNodes (mergeVars pos ds ss)).map g).sum = ((stmtsNodes ss).map g).sum := by
  obtain ⟨q, es, rest, heq, hss⟩ := mergeVars_eq pos ds ss
  have hmerged : ((stmtsNodes (mergeVars pos ds ss)).map g).sum =
      g (.stmt (.vars q es)) + ((declsNodes es).map g).sum + ((stmtsNodes rest).map g).sum := by
    simp only [heq, stmtsNodes, Stmt.nodes, declsNodes_append, List.map_append, List.map_cons,
      List.sum_append, List.sum_cons, hvars, hds, add_zero]
  rcases hss with rfl | ⟨rfl, rfl⟩
  · rw [hmerged, stmtsNodes, Stmt.nodes, List.map_append, List.map_cons, List.sum_append,
      List.sum_cons]
  · rw [hmerged, hnil, zero_add]
    exact zero_add _

theorem Node.symbols_of_declared {n : Node} {s : SymbolId} (h : s ∈ n.declared) :
    s ∈ n.symbols := by
  unfold Node.declared at h
  split at h
  · exact h
  · exact h
  · cases h

/-- Code in whose table the stack is not has nothing to do with it. -/
theorem Meter.quiet_of_admitted {M : Meter} (hbase : ∀ s, M.vars.Uses s → M.base ≤ s.index)
    {ns : List Node} (hclosed : NodesClosed ns)
    (h : ∀ n ∈ ns, n.Admitted M.base (fun _ => False) fun _ _ => True) {n : Node} (hn : n ∈ ns) :
    n.isPop M.vars = false ∧ n.isReset M.vars = false ∧ n.isNote M.vars = false := by
  cases n with
  | expr e =>
    cases e with
    | binary q op l r =>
      have hl : ∀ m ∈ l.nodes, m ∈ ns := fun m hm =>
        hclosed _ hn m (List.mem_cons_of_mem _ (List.mem_append_left r.nodes hm))
      exact Expr.quiet_binary (fun _ => foreign_of_admitted hbase fun m hm => h m (hl m hm)) r
    | _ => exact ⟨rfl, rfl, rfl⟩
  | _ => exact ⟨rfl, rfl, rfl⟩

/-- The variables of the stack are no flags. -/
theorem ScopeTable.isFlag_allocate (withLocation : Bool) (t : ScopeTable) {s : SymbolId}
    (hs : (StackVars.allocate withLocation t).1.Uses s) :
    (StackVars.allocate withLocation t).2.isFlag s = false := by
  let t₁ := (t.declareUnique program "$es_stack" "$stack").2
  let t₂ := (t₁.declareUnique program "$es_stackDepth" "$stackDepth").2
  let t₃ := (t₂.declareUnique program "$es_location" "$location").2
  have h₂ : t₁.Extends t₂ := t₁.extends_declareUnique ..
  have h₃ : t₂.Extends t₃ := t₂.extends_declareUnique ..
  have hsize₁ : t.symbols.size < t₁.symbols.size := by simp [t₁, declareUnique]
  have hsize₂ : t₁.symbols.size < t₂.symbols.size := by simp [t₂, declareUnique]
  have hstack : t₂.isFlag ⟨t.symbols.size⟩ = false :=
    (h₂.isFlag hsize₁).trans (isFlag_declareUnique ..)
  have hdepth : t₂.isFlag ⟨t₁.symbols.size⟩ = false := isFlag_declareUnique ..
  cases withLocation with
  | false =>
    rcases hs with rfl | rfl | hs
    · exact hstack
    · exact hdepth
    · cases hs
  | true =>
    rcases hs with rfl | rfl | hs
    · exact (h₃.isFlag (hsize₁.trans hsize₂)).trans hstack
    · exact (h₃.isFlag hsize₂).trans hdepth
    · obtain rfl := Option.some.inj hs
      exact isFlag_declareUnique ..

theorem due_decls (p : Program) (v : StackVars) : due p (declsNodes v.decls) = 0 := by
  obtain ⟨s, d, l⟩ := v
  cases l <;> rfl

theorem Meter.tally_decls (M : Meter) (v : StackVars) : M.tally (declsNodes v.decls) = 0 := by
  obtain ⟨s, d, l⟩ := v
  cases l <;> rfl

theorem StackVars.symbols_decls (v : StackVars) : ∀ n ∈ declsNodes v.decls, n.symbols = [] := by
  obtain ⟨s, d, l⟩ := v
  cases l <;> simp [StackVars.decls, declsNodes, exprNodes?, Expr.nodes, exprsNodes, Expr.number,
    Node.symbols]

namespace Program

variable {p : Program} {w : SymbolId}

section

variable {v : StackVars} {recorder : Option Recorder} {base : Nat} {flag : SymbolId → Bool}

theorem tally_declared (hflag : ∀ s, v.Uses s → flag s = false) :
    (p.meter v w recorder base flag).tally
    (stmtsNodes (mergeVars .synthetic v.decls p.code.stmts)) =
      (p.meter v w recorder base flag).tally p.code.nodes := by
  set M := p.meter v w recorder base flag
  have hnames : (v.decls.map (·.name)).filter flag = [] :=
    List.filter_eq_nil_iff.2 fun s hs =>
      ne_true_of_eq_false (hflag s (StackVars.uses_of_mem_decls hs))
  have hvars (q : Position) (es : List VarDecl) :
      M.ofNode (.stmt (.vars q (es ++ v.decls))) = M.ofNode (.stmt (.vars q es)) := by
    simp only [Meter.ofNode, Node.declared, List.map_append, List.filter_append, M, meter, hnames,
      List.append_nil]
    rfl
  refine (sum_mergeVars M.ofNode (M.tally_decls v) hvars (fun _ => rfl) .synthetic
    p.code.stmts).trans ?_
  obtain ⟨ss, pos⟩ := p.code
  exact (zero_add _).symm

theorem due_declared (p : Program) (v : StackVars) :
    due p (stmtsNodes (mergeVars .synthetic v.decls p.code.stmts)) = due p p.code.nodes := by
  refine (sum_mergeVars (Node.due p) (due_decls p v) (fun _ _ => rfl) (fun _ => rfl) .synthetic
    p.code.stmts).trans ?_
  generalize p.code = b
  obtain ⟨ss, pos⟩ := b
  exact (zero_add _).symm

variable (w flag) in
/-- The stack is declared, and then the functions get their frames. -/
theorem reckons_declared (hrecorder : ∀ r, recorder = some r → v.location = some r.location)
    (hbase : ∀ s, v.Uses s → base ≤ s.index)
    (hcode : ∀ n ∈ p.code.nodes, n.Admitted base (fun _ => False) fun _ _ => True) :
    (p.meter v w recorder base flag).Reckons
      (stmtsMapFuncs (p.frameFunc v w recorder) (mergeVars .synthetic v.decls p.code.stmts))
        fun l l' ss =>
        (p.meter v w recorder base flag).Reckoned p l l'
          (stmtsNodes (mergeVars .synthetic v.decls p.code.stmts)) (stmtsNodes ss) := by
  obtain ⟨q, es, rest, heq, hss⟩ := mergeVars_eq .synthetic v.decls p.code.stmts
  obtain ⟨-, hes, hrest⟩ := forall_nodes hcode hss
  have hdecls : ∀ n ∈ declsNodes (es ++ v.decls), n.Admitted base (fun _ => False) fun _ _ =>
      True := by
    rw [declsNodes_append]
    refine List.forall_mem_append.2 ⟨hes, fun n hn => Node.admitted_of_symbols fun s hs => ?_⟩
    rw [v.symbols_decls n hn] at hs
    cases hs
  rw [heq, stmtsMapFuncs, Stmt.mapFuncs, bind_assoc]
  refine (reckons_decls ⟨hrecorder, hbase⟩ _ hdecls).bind fun ds' => ?_
  rw [pure_bind]
  refine (reckons_stmts ⟨hrecorder, hbase⟩ rest hrest).bind fun rest' =>
    .pure fun l l' hrest l₀ hds => ?_
  exact (hds.1.cons (Meter.ofNode_vars_congr hds.2) rfl).append hrest

end

/-- Whether a variable is one that the pass made to be a flag. -/
def isFlag (p : Program) (r : Recording) (s : SymbolId) : Bool :=
  decide (p.table.symbols.size ≤ s.index) && (p.emulate r).2.table.isFlag s

/-- Counts what the pass puts into a program. -/
def gauge (p : Program) (r : Recording) (w : SymbolId) : Meter :=
  p.meter (p.stackVars r) w (p.recorder r) p.table.symbols.size (p.isFlag r)

theorem knows_gauge (p : Program) (r : Recording) (w : SymbolId) :
    (p.gauge r w).Knows (p.emulate r).2.table :=
  fun s hs _ => by
    have hflag : (p.gauge r w).flag s = p.isFlag r s := rfl
    rw [hflag, isFlag, decide_eq_true (show p.table.symbols.size ≤ s.index from hs), Bool.true_and]

/-- Own code only has catch clauses to count. -/
theorem Resolved.tally_code (hp : p.Resolved) (r : Recording) (w : SymbolId) :
    (p.gauge r w).tally p.code.nodes =
    ({ syntheticCatches := (p.code.nodes.flatMap Node.clauses).length }, 0) := by
  have hquiet {n : Node} (hn : n ∈ p.code.nodes) :=
    (p.gauge r w).quiet_of_admitted (fun _ hs => (uses_stackVars hs).1)
    p.code.nodes_closed (fun n hn => Node.admitted_of_symbols (hp.code n hn)) hn
  have hflags : (p.code.nodes.flatMap Node.declared).filter (p.gauge r w).flag = [] := by
    refine List.filter_eq_nil_iff.2 fun s hs hflag => ?_
    obtain ⟨n, hn, hs⟩ := List.mem_flatMap.1 hs
    have hle : p.table.symbols.size ≤ s.index := of_decide_eq_true (Bool.and_eq_true_iff.1 hflag).1
    exact Nat.not_lt_of_le hle (hp.code n hn s (Node.symbols_of_declared hs))
  rw [Meter.tally_eq, hflags, List.countP_eq_zero.2 fun n hn => ne_true_of_eq_false (hquiet hn).1,
    List.countP_eq_zero.2 fun n hn => ne_true_of_eq_false (hquiet hn).2.1,
    List.countP_eq_zero.2 fun n hn => ne_true_of_eq_false (hquiet hn).2.2]
  rfl

/-- What the program has gained is what the pass reports. -/
theorem Resolved.tally_emulate (hp : p.Resolved) (hw : p.wrap? = some w)
    (href : ∀ role, p.references role = false) (r : Recording) :
    ∃ n, ∃ F : Multiset SymbolId, F.Nodup ∧
      (p.gauge r w).tally (p.emulate r).2.code.nodes + ({ substituted := n } + due p p.code.nodes,
        0) =
        (p.gauge r w).tally p.code.nodes + ((p.emulate r).1.stats, F) := by
  obtain ⟨-, n, hcode, htable, hstats⟩ := emulate_eq (r := r) hw href
  obtain ⟨-, hadds, hreckoned⟩ := reckons_declared w (p.isFlag r) (fun _ hr => recorder_location hr)
    (fun s hs => (uses_stackVars hs).1) (fun n hn => Node.admitted_of_symbols (hp.code n hn))
    ⟨_, { substituted := n }, []⟩ (hp.holds r)
  rw [← htable] at hadds hreckoned
  have hflag (s : SymbolId) (hs : (p.stackVars r).Uses s) : p.isFlag r s = false := by
    have hnot :=
      (hadds.toExtends.isFlag (uses_stackVars hs).2).trans (ScopeTable.isFlag_allocate _ _ hs)
    rw [isFlag, hnot, Bool.and_false]
  obtain ⟨-, F, hF, -, heq⟩ := hreckoned (p.knows_gauge r w)
  rw [← hcode, ← hstats, tally_declared hflag, due_declared] at heq
  refine ⟨n, F, hF, Eq.trans ?_ heq⟩
  generalize (p.emulate r).2.code = b
  obtain ⟨ss, pos⟩ := b
  exact congrArg (· + _) (zero_add _)

/-- The counts account for what was put in. Every function was counted, and as framed if it has a
body and is not immortal. The depth is set back, locations are noted and clauses were added as often
as was counted, and as many flags are declared, each of them once. -/
theorem Resolved.stats_emulate (hp : p.Resolved) (hw : p.wrap? = some w)
    (href : ∀ role, p.references role = false) (r : Recording) :
    ∃ v, (p.emulate r).1.vars = some v ∧ let stats := (p.emulate r).1.stats
    let ns := (p.emulate r).2.code.nodes
    let flags := (ns.flatMap Node.declared).filter (p.isFlag r)
    stats.instrumented + stats.skipped = p.code.funcs.length ∧
    stats.instrumented = p.code.funcs.countP (fun f => !(f.body.isEmpty || p.isImmortal f)) ∧
    stats.pops = ns.countP (Node.isPop v) ∧ stats.resets = ns.countP (Node.isReset v) ∧
    stats.locations = ns.countP (Node.isNote v) ∧
    (ns.flatMap Node.clauses).length =
      (p.code.nodes.flatMap Node.clauses).length + stats.syntheticCatches ∧
    flags.Nodup ∧ flags.length = stats.earlyExitFlags := by
  obtain ⟨n, F, hF, heq⟩ := hp.tally_emulate hw href r
  rw [hp.tally_code, Meter.tally_eq, due_eq] at heq
  have hflags : ↑(((p.emulate r).2.code.nodes.flatMap Node.declared).filter (p.isFlag r)) = F := by
    have hsnd := congrArg Prod.snd heq
    rwa [Prod.snd_add, Prod.snd_add, add_zero, zero_add] at hsnd
  -- each count of the two sums on its own
  obtain ⟨hframed, hskipped, hpops, hclauses, hexits, hresets, hlocations, -⟩ :=
    Stats.mk.inj (congrArg Prod.fst heq)
  replace hframed : 0 + (0 + p.code.funcs.countP fun f => !(f.body.isEmpty || p.isImmortal f)) =
    0 + (p.emulate r).1.stats.instrumented := hframed
  replace hskipped : 0 + (0 + p.code.funcs.countP fun f => f.body.isEmpty || p.isImmortal f) =
    0 + (p.emulate r).1.stats.skipped := hskipped
  simp only [Nat.zero_add] at hframed hskipped
  refine ⟨p.stackVars r, (emulate_eq hw href).1, ?_, hframed.symm,
    (Nat.zero_add _).symm.trans hpops.symm, (Nat.zero_add _).symm.trans hresets.symm,
    (Nat.zero_add _).symm.trans hlocations.symm, hclauses, Multiset.coe_nodup.1 (hflags.symm ▸ hF),
    hexits.trans (Nat.zero_add _)⟩
  rw [← hframed, ← hskipped, Nat.add_comm, List.length_eq_countP_add_countP
    fun f => f.body.isEmpty || p.isImmortal f]
  simp only [Bool.not_eq_true, Bool.decide_eq_false]

end Program

open Builder in
/-- `function f() { try { return function () {}; } finally { f(); } }` -/
@[irreducible] def guarded : Program :=
  ((do
    let _ ← defineWrap
    let p ← getPos
    let (_, decl) ← functionDecl "f" [] fun _ => do
      let f ← resolve "f"
      let idle ← function none [] fun _ => return []
      return [.tryBlock p ⟨[.ret p (some (.func p idle))], p⟩ []
        (some ⟨[.ofExpr (.call p (.var p f) [])], p⟩)]
    Builder.push decl : StateM Builder Unit).run (.start "guarded.js")).2.program

namespace Program

theorem guarded_evaluated : guarded.isResolved = true ∧ guarded.wrap? = some ⟨7⟩ ∧
    (∀ role ∈ StackRole.all, guarded.references role = false) ∧
    (guarded.emulate .lines).1.stats =
      { instrumented := 2, skipped := 1, pops := 3, syntheticCatches := 1, earlyExitFlags := 1,
        resets := 1, locations := 2 } ∧
    guarded.code.nodes.flatMap Node.clauses = [] := by
  decide +kernel

theorem Resolved.stats_emulate_guarded : guarded.Resolved ∧ guarded.code.funcs.length = 3 ∧
    ∃ v, (guarded.emulate .lines).1.vars = some v ∧
      let ns := (guarded.emulate .lines).2.code.nodes
      ns.countP (Node.isPop v) = 3 ∧ ns.countP (Node.isReset v) = 1 ∧
      ns.countP (Node.isNote v) = 2 ∧ (ns.flatMap Node.clauses).length = 1 ∧
      ((ns.flatMap Node.declared).filter (guarded.isFlag .lines)).length = 1 := by
  obtain ⟨hp, hw, href, hstats, hclauses⟩ := guarded_evaluated
  replace hp := resolved_of_isResolved hp
  obtain ⟨v, hv, hfuncs, -, hpops, hresets, hnotes, hgrowth, -, hflags⟩ :=
    hp.stats_emulate hw (fun role => href role (by cases role <;> decide)) .lines
  rw [hstats] at hfuncs hpops hresets hnotes hgrowth hflags
  rw [hclauses] at hgrowth
  exact ⟨hp, hfuncs.symm, v, hv, hpops.symm, hresets.symm, hnotes.symm, hgrowth, hflags⟩

end Program

end FrameLedger
