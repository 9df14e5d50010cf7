import FrameLedger.Proofs.Framed
import FrameLedger.Proofs.Opening
import FrameLedger.Proofs.Reserved

/-!
# What becomes of a program

`Program.Resolved.emulate_opens`: the global code of a program that went through the pass makes its
stack and then goes on as before, up to the functions in it, and each of these is what
`Func.FramedAs` says. The program is asked for little: its symbols are in its table, and it does not
refer to the reserved names.
-/

namespace FrameLedger

/-- What a node may be. Its own symbols are below `base`, it binds or assigns none that is kept, and
its `try` statements are of the given kind. -/
def Node.Admitted (base : Nat) (kept : SymbolId → Prop) (T : List Catch → Option Block → Prop) :
    Node → Prop
  | .expr (.var _ s) => s.index < base
  | .expr (.member _ _ n) => n.Below base
  | .expr (.prefixed _ op x) => op = .inc ∨ op = .dec → ∀ s, x.symbol? = some s → ¬ kept s
  | .expr (.postfixed _ _ x) => ∀ s, x.symbol? = some s → ¬ kept s
  | .expr (.binary _ op l _) => op.isAssignment → ∀ s, l.symbol? = some s → ¬ kept s
  | .expr (.func _ f) => ∀ s, f.name = some s → ¬ kept s
  | .stmt (.vars _ ds) => ∀ d ∈ ds, d.name.index < base ∧ ¬ kept d.name
  | .stmt (.forLoop _ (some (.vars ds)) _ _ _) => ∀ d ∈ ds, d.name.index < base ∧ ¬ kept d.name
  | .stmt (.forIn _ k _ _ _) => k.index < base ∧ ¬ kept k
  | .stmt (.tryBlock _ _ cs f) => T cs f ∧ ∀ cl ∈ cs, cl.param.index < base ∧ ¬ kept cl.param
  | .func f => (∀ s, f.name = some s → s.index < base) ∧ ∀ s ∈ f.params, s.index < base ∧ ¬ kept s
  | _ => True

section

variable {base : Nat} {kept : SymbolId → Prop} {T : List Catch → Option Block → Prop}

/-- A variable that is assigned to is a node of its own. -/
theorem Node.Admitted.symbol_lt {e : Expr} (h : ∀ n ∈ e.nodes, n.Admitted base kept T)
    {s : SymbolId} (hs : e.symbol? = some s) :
    s.index < base := by
  cases e with
  | var p t =>
    obtain rfl := Option.some.inj hs
    exact h _ List.mem_cons_self
  | _ => cases hs

theorem Func.mem_nodes (f : Func) : .func f ∈ f.nodes := by
  obtain ⟨_, _, _, _, _⟩ := f
  exact List.mem_cons_self

end

/-! ## Replacing functions -/

/-- A computation keeps `I` of the state and gives what `P` says. -/
def Maps {σ α : Type} (I : σ → Prop) (x : StateM σ α) (P : α → Prop) : Prop :=
  ∀ l, I l → I (x.run l).2 ∧ P (x.run l).1

namespace Maps

variable {σ α β : Type} {I : σ → Prop} {x : StateM σ α} {f : α → StateM σ β} {P : α → Prop}
  {Q : β → Prop}

theorem pure {a : α} (h : P a) : Maps I (pure a) P := fun _ hl => ⟨hl, h⟩

theorem bind (hx : Maps I x P) (hf : ∀ a, P a → Maps I (f a) Q) : Maps I (x >>= f) Q := fun l hl =>
  hf _ (hx l hl).2 _ (hx l hl).1

end Maps

section Replacing

variable {σ : Type} {I : σ → Prop} {step : Func → StateM σ Func} {L : Layout}
  {T : List Catch → Option Block → Prop}

/-- A function in which only the functions inside have changed. -/
structure Func.Reworked (L : Layout) (T : List Catch → Option Block → Prop) (f f₁ : Func) :
    Prop where
  name : f₁.name = f.name
  params : f₁.params = f.params
  pos : f₁.pos = f.pos
  body_pos : f₁.body.pos = f.body.pos
  body : ∀ r, stmtsFramedAs ⟨L.allowing fun _ => T, none⟩ f.body.stmts r f₁.body.stmts

/-- A step that can be taken once the functions inside are done, and gives what the layout pairs a
function with. -/
structure Layout.Follows (L : Layout) (T : List Catch → Option Block → Prop) (I : σ → Prop)
    (step : Func → StateM σ Func) : Prop where
  maps : ∀ f f₁ : Func, (∀ n ∈ f.nodes, n.Admitted L.base L.kept T) → f.Reworked L T f₁ →
    Maps I (step f₁) fun _ => True
  pairs : ∀ (f : Func) (l : σ), (∀ n ∈ f.nodes, n.Admitted L.base L.kept T) → I l →
    L.pairs f ((f.mapFuncs step).run l).1

mutual

theorem Expr.maps (hL : L.Follows T I step) :
    ∀ e : Expr, (∀ n ∈ e.nodes, n.Admitted L.base L.kept T) →
    Maps I (e.mapFuncs step) (e.Framed ⟨L.allowing fun _ => T, none⟩)
  | .var p s, h => by
    rw [Expr.mapFuncs]
    exact .pure ⟨h _ List.mem_cons_self, rfl⟩
  | .bare p n, _ => by
    rw [Expr.mapFuncs]
    exact .pure rfl
  | .member p q n, h => by
    obtain ⟨hn, hq⟩ := List.forall_mem_cons.1 h
    rw [Expr.mapFuncs]
    exact (q.maps hL hq).bind fun q' hq' => .pure ⟨hn, q', .inl hq', rfl⟩
  | .index p a i, h => by
    obtain ⟨ha, hi⟩ := List.forall_mem_append.1 (List.forall_mem_cons.1 h).2
    rw [Expr.mapFuncs]
    exact (a.maps hL ha).bind fun a' ha' => (i.maps hL hi).bind fun i' hi' =>
      .pure ⟨a', i', .inl ha', .inl hi', rfl⟩
  | .call p f as, h => by
    obtain ⟨hf, has⟩ := List.forall_mem_append.1 (List.forall_mem_cons.1 h).2
    rw [Expr.mapFuncs]
    exact (f.maps hL hf).bind fun f' hf' => (exprs_maps hL as has).bind fun as' has' =>
      .pure ⟨f', as', hf', has', rfl⟩
  | .new p f as, h => by
    obtain ⟨hf, has⟩ := List.forall_mem_append.1 (List.forall_mem_cons.1 h).2
    rw [Expr.mapFuncs]
    exact (f.maps hL hf).bind fun f' hf' => (exprs_maps hL as has).bind fun as' has' =>
      .pure ⟨f', as', .inl hf', has', rfl⟩
  | .prefixed p op x, h => by
    obtain ⟨ht, hx⟩ := List.forall_mem_cons.1 h
    rw [Expr.mapFuncs]
    refine (x.maps hL hx).bind fun x' hx' =>
      .pure ⟨fun ho s hs => ⟨Node.Admitted.symbol_lt hx hs, ht ho s hs⟩, x', ?_, rfl⟩
    split
    · exact .inl hx'
    · exact hx'
  | .postfixed p op x, h => by
    obtain ⟨ht, hx⟩ := List.forall_mem_cons.1 h
    rw [Expr.mapFuncs]
    exact (x.maps hL hx).bind fun x' hx' =>
      .pure ⟨fun s hs => ⟨Node.Admitted.symbol_lt hx hs, ht s hs⟩, x', hx', rfl⟩
  | .binary p op l r, h => by
    obtain ⟨ht, hrest⟩ := List.forall_mem_cons.1 h
    obtain ⟨hl, hr⟩ := List.forall_mem_append.1 hrest
    rw [Expr.mapFuncs]
    refine (l.maps hL hl).bind fun l' hl' => (r.maps hL hr).bind fun r' hr' =>
      .pure ⟨fun ho s hs => ⟨Node.Admitted.symbol_lt hl hs, ht ho s hs⟩, l', r', ?_, .inl hr', rfl⟩
    split
    · exact hl'
    · exact .inl hl'
  | .cond p c t e, h => by
    obtain ⟨hc, hrest⟩ := List.forall_mem_append.1 (List.forall_mem_cons.1 h).2
    obtain ⟨ht, he⟩ := List.forall_mem_append.1 hrest
    rw [Expr.mapFuncs]
    exact (c.maps hL hc).bind fun c' hc' => (t.maps hL ht).bind fun t' ht' =>
      (e.maps hL he).bind fun e' he' => .pure ⟨c', t', e', .inl hc', .inl ht', .inl he', rfl⟩
  | .literal p l, _ => by
    rw [Expr.mapFuncs]
    exact .pure rfl
  | .array p es, h => by
    rw [Expr.mapFuncs]
    exact (exprs_maps hL es (List.forall_mem_cons.1 h).2).bind fun es' hes' =>
      .pure ⟨es', hes', rfl⟩
  | .object p ps, h => by
    rw [Expr.mapFuncs]
    exact (properties_maps hL ps (List.forall_mem_cons.1 h).2).bind fun ps' hps' =>
      .pure ⟨ps', hps', rfl⟩
  | .func p f, h => by
    obtain ⟨hn, hf⟩ := List.forall_mem_cons.1 h
    rw [Expr.mapFuncs]
    exact (f.maps hL hf).bind fun f' hf' =>
      .pure ⟨fun s hs => ⟨(hf _ f.mem_nodes).1 s hs, hn s hs⟩, f', hf', rfl⟩

theorem exprs_maps (hL : L.Follows T I step) :
    ∀ es : List Expr, (∀ n ∈ exprsNodes es, n.Admitted L.base L.kept T) →
    Maps I (exprsMapFuncs step es) (exprsFramed ⟨L.allowing fun _ => T, none⟩ es)
  | [], _ => by
    rw [exprsMapFuncs]
    exact .pure rfl
  | e :: es, h => by
    obtain ⟨he, hes⟩ := List.forall_mem_append.1 h
    rw [exprsMapFuncs]
    exact (e.maps hL he).bind fun e' he' => (exprs_maps hL es hes).bind fun es' hes' =>
      .pure ⟨e', es', .inl he', hes', rfl⟩

theorem expr?_maps (hL : L.Follows T I step) :
    ∀ e : Option Expr, (∀ n ∈ exprNodes? e, n.Admitted L.base L.kept T) →
    Maps I (exprMapFuncs? step e) (exprFramed? ⟨L.allowing fun _ => T, none⟩ e)
  | none, _ => by
    rw [exprMapFuncs?]
    exact .pure rfl
  | some e, h => by
    rw [exprMapFuncs?]
    exact (e.maps hL h).bind fun e' he' => .pure ⟨e', .inl he', rfl⟩

theorem properties_maps (hL : L.Follows T I step) :
    ∀ ps : List Property, (∀ n ∈ propertiesNodes ps, n.Admitted L.base L.kept T) →
    Maps I (propertiesMapFuncs step ps) (propertiesFramed ⟨L.allowing fun _ => T, none⟩ ps)
  | [], _ => by
    rw [propertiesMapFuncs]
    exact .pure rfl
  | ⟨k, e⟩ :: ps, h => by
    obtain ⟨he, hps⟩ := List.forall_mem_append.1 h
    rw [propertiesMapFuncs]
    exact (e.maps hL he).bind fun e' he' => (properties_maps hL ps hps).bind fun ps' hps' =>
      .pure ⟨e', ps', .inl he', hps', rfl⟩

theorem Func.maps (hL : L.Follows T I step) :
    ∀ f : Func, (∀ n ∈ f.nodes, n.Admitted L.base L.kept T) → Maps I (f.mapFuncs step) (L.pairs f)
  | ⟨n, ps, b, sc, p⟩, h => by
    refine fun l hl => ⟨?_, hL.pairs _ l h hl⟩
    have hb := b.maps hL (List.forall_mem_cons.1 h).2
    have hf : Maps I (Func.mapFuncs step ⟨n, ps, b, sc, p⟩) fun _ => True := by
      rw [Func.mapFuncs]
      exact hb.bind fun b' hb' => hL.maps _ _ h ⟨rfl, rfl, rfl, hb'.1, hb'.2⟩
    exact (hf l hl).1

theorem Block.maps (hL : L.Follows T I step) :
    ∀ b : Block, (∀ n ∈ b.nodes, n.Admitted L.base L.kept T) → Maps I (b.mapFuncs step) fun b' =>
    b'.pos = b.pos ∧ ∀ r, stmtsFramedAs ⟨L.allowing fun _ => T, none⟩ b.stmts r b'.stmts
  | ⟨ss, p⟩, h => by
    rw [Block.mapFuncs]
    exact (stmts_maps hL ss (List.forall_mem_cons.1 h).2).bind fun ss' hss' => .pure ⟨rfl, hss'⟩

theorem decls_maps (hL : L.Follows T I step) :
    ∀ ds : List VarDecl, (∀ d ∈ ds, d.name.index < L.base ∧ ¬ L.kept d.name) →
    (∀ n ∈ declsNodes ds, n.Admitted L.base L.kept T) →
      Maps I (declsMapFuncs step ds) (declsFramed ⟨L.allowing fun _ => T, none⟩ ds)
  | [], _, _ => by
    rw [declsMapFuncs]
    exact .pure rfl
  | ⟨s, e, p⟩ :: ds, hnames, h => by
    obtain ⟨hs, hnames⟩ := List.forall_mem_cons.1 hnames
    obtain ⟨he, hds⟩ := List.forall_mem_append.1 h
    rw [declsMapFuncs]
    exact (expr?_maps hL e he).bind fun e' he' => (decls_maps hL ds hnames hds).bind fun ds' hds' =>
      .pure ⟨hs, e', ds', he', hds', rfl⟩

theorem catches_maps (hL : L.Follows T I step) :
    ∀ cs : List Catch, (∀ cl ∈ cs, cl.param.index < L.base ∧ ¬ L.kept cl.param) →
    (∀ n ∈ catchesNodes cs, n.Admitted L.base L.kept T) →
      Maps I (catchesMapFuncs step cs) fun cs' =>
      ∀ r, catchesFramedAs ⟨L.allowing fun _ => T, none⟩ cs r cs'
  | [], _, _ => by
    rw [catchesMapFuncs]
    exact .pure fun _ => rfl
  | ⟨s, sc, ⟨ss, q⟩, p⟩ :: cs, hnames, h => by
    obtain ⟨hs, hnames⟩ := List.forall_mem_cons.1 hnames
    obtain ⟨hb, hcs⟩ := List.forall_mem_append.1 h
    rw [catchesMapFuncs, Block.mapFuncs]
    simp only [bind_assoc, pure_bind]
    exact (stmts_maps hL ss (List.forall_mem_cons.1 hb).2).bind fun ss' hss' =>
      (catches_maps hL cs hnames hcs).bind fun cs' hcs' => .pure fun r =>
        ⟨hs, ss', cs', hss' _, hcs' r, rfl⟩

theorem cases_maps (hL : L.Follows T I step) :
    ∀ cs : List SwitchCase, (∀ n ∈ casesNodes cs, n.Admitted L.base L.kept T) →
    Maps I (casesMapFuncs step cs) fun cs' =>
      ∀ r, casesFramedAs ⟨L.allowing fun _ => T, none⟩ cs r cs'
  | [], _ => by
    rw [casesMapFuncs]
    exact .pure fun _ => rfl
  | ⟨t, ss⟩ :: cs, h => by
    obtain ⟨ht, hrest⟩ := List.forall_mem_append.1 h
    obtain ⟨hss, hcs⟩ := List.forall_mem_append.1 hrest
    rw [casesMapFuncs]
    exact (expr?_maps hL t ht).bind fun t' ht' => (stmts_maps hL ss hss).bind fun ss' hss' =>
      (cases_maps hL cs hcs).bind fun cs' hcs' => .pure fun r =>
        ⟨t', ss', cs', ht', hss' r, hcs' r, rfl⟩

theorem stmts_maps (hL : L.Follows T I step) :
    ∀ ss : List Stmt, (∀ n ∈ stmtsNodes ss, n.Admitted L.base L.kept T) →
    Maps I (stmtsMapFuncs step ss) fun ss' =>
      ∀ r, stmtsFramedAs ⟨L.allowing fun _ => T, none⟩ ss r ss'
  | [], _ => by
    rw [stmtsMapFuncs]
    exact .pure fun _ => rfl
  | s :: ss, h => by
    obtain ⟨hs, hss⟩ := List.forall_mem_append.1 h
    rw [stmtsMapFuncs]
    exact (s.maps hL hs).bind fun s' hs' => (stmts_maps hL ss hss).bind fun ss' hss' =>
      .pure fun r => ⟨[s'], ss', hs' r, hss' r, rfl⟩

theorem stmt?_maps (hL : L.Follows T I step) :
    ∀ s : Option Stmt, (∀ n ∈ stmtNodes? s, n.Admitted L.base L.kept T) →
    Maps I (stmtMapFuncs? step s) fun s' => ∀ r, stmtFramedAs? ⟨L.allowing fun _ => T, none⟩ s r s'
  | none, _ => by
    rw [stmtMapFuncs?]
    exact .pure fun _ => rfl
  | some s, h => by
    rw [stmtMapFuncs?]
    exact (s.maps hL h).bind fun s' hs' => .pure fun r => ⟨s', ⟨[s'], hs' r, rfl⟩, rfl⟩

theorem Stmt.maps (hL : L.Follows T I step) :
    ∀ s : Stmt, (∀ n ∈ s.nodes, n.Admitted L.base L.kept T) →
    Maps I (s.mapFuncs step) fun s' => ∀ r, s.Framed ⟨L.allowing fun _ => T, none⟩ r [s']
  | .expr p e, h => by
    rw [Stmt.mapFuncs]
    exact (e.maps hL (List.forall_mem_cons.1 h).2).bind fun e' he' => .pure fun r =>
      ⟨e', .inl he', rfl⟩
  | .vars p ds, h => by
    obtain ⟨hs, hds⟩ := List.forall_mem_cons.1 h
    rw [Stmt.mapFuncs]
    exact (decls_maps hL ds hs hds).bind fun ds' hds' => .pure fun r => ⟨ds', hds', rfl⟩
  | .ret p e, h => by
    rw [Stmt.mapFuncs]
    exact (expr?_maps hL e (List.forall_mem_cons.1 h).2).bind fun e' he' => .pure fun r =>
      ⟨e', he', rfl⟩
  | .raise p e, h => by
    rw [Stmt.mapFuncs]
    exact (e.maps hL (List.forall_mem_cons.1 h).2).bind fun e' he' => .pure fun r =>
      ⟨e', .inl he', rfl⟩
  | .branch p c yes no, h => by
    obtain ⟨hc, hrest⟩ := List.forall_mem_append.1 (List.forall_mem_cons.1 h).2
    obtain ⟨hyes, hno⟩ := List.forall_mem_append.1 hrest
    rw [Stmt.mapFuncs]
    exact (c.maps hL hc).bind fun c' hc' => (yes.maps hL hyes).bind fun yes' hyes' =>
      (stmt?_maps hL no hno).bind fun no' hno' =>
      .pure fun r => ⟨c', yes', no', .inl hc', ⟨[yes'], hyes' r, rfl⟩, hno' r, rfl⟩
  | .whileLoop p c b, h => by
    obtain ⟨hc, hb⟩ := List.forall_mem_append.1 (List.forall_mem_cons.1 h).2
    rw [Stmt.mapFuncs]
    exact (c.maps hL hc).bind fun c' hc' => (b.maps hL hb).bind fun b' hb' =>
      .pure fun r => ⟨c', b', .inl hc', ⟨[b'], hb' r, rfl⟩, rfl⟩
  | .doWhile p b c, h => by
    obtain ⟨hb, hc⟩ := List.forall_mem_append.1 (List.forall_mem_cons.1 h).2
    rw [Stmt.mapFuncs]
    exact (b.maps hL hb).bind fun b' hb' => (c.maps hL hc).bind fun c' hc' =>
      .pure fun r => ⟨b', c', ⟨[b'], hb' r, rfl⟩, .inl hc', rfl⟩
  | .forLoop p i c n b, h => by
    obtain ⟨hself, hrest⟩ := List.forall_mem_cons.1 h
    obtain ⟨hi, hrest⟩ := List.forall_mem_append.1 hrest
    obtain ⟨hc, hrest⟩ := List.forall_mem_append.1 hrest
    obtain ⟨hn, hb⟩ := List.forall_mem_append.1 hrest
    rw [Stmt.mapFuncs]
    have hinit : Maps I (forInitMapFuncs step i)
        (forInitFramed ⟨L.allowing fun _ => T, none⟩ i) := by
      rcases i with _ | ds | e
      · rw [forInitMapFuncs]
        exact .pure rfl
      · rw [forInitMapFuncs]
        exact (decls_maps hL ds hself hi).bind fun ds' hds' => .pure ⟨ds', hds', rfl⟩
      · rw [forInitMapFuncs]
        exact (e.maps hL hi).bind fun e' he' => .pure ⟨e', .inl he', rfl⟩
    exact hinit.bind fun i' hi' => (expr?_maps hL c hc).bind fun c' hc' =>
      (expr?_maps hL n hn).bind fun n' hn' =>
      (b.maps hL hb).bind fun b' hb' => .pure fun r =>
        ⟨i', c', n', b', hi', hc', hn', ⟨[b'], hb' r, rfl⟩, rfl⟩
  | .forIn p k d o b, h => by
    obtain ⟨hk, hrest⟩ := List.forall_mem_cons.1 h
    obtain ⟨ho, hb⟩ := List.forall_mem_append.1 hrest
    rw [Stmt.mapFuncs]
    exact (o.maps hL ho).bind fun o' ho' => (b.maps hL hb).bind fun b' hb' =>
      .pure fun r => ⟨hk, o', b', .inl ho', ⟨[b'], hb' r, rfl⟩, rfl⟩
  | .block p ⟨ss, q⟩, h => by
    obtain ⟨-, hss⟩ := List.forall_mem_cons.1 (List.forall_mem_cons.1 h).2
    rw [Stmt.mapFuncs, Block.mapFuncs]
    simp only [bind_assoc, pure_bind]
    exact (stmts_maps hL ss hss).bind fun ss' hss' => .pure fun r => ⟨ss', hss' r, rfl⟩
  | .tryBlock p ⟨ss, q⟩ cs none, h => by
    obtain ⟨⟨hT, hparams⟩, hrest⟩ := List.forall_mem_cons.1 h
    obtain ⟨hb, hrest⟩ := List.forall_mem_append.1 hrest
    obtain ⟨hcs, -⟩ := List.forall_mem_append.1 hrest
    rw [Stmt.mapFuncs, Block.mapFuncs, blockMapFuncs?]
    simp only [bind_assoc, pure_bind]
    exact (stmts_maps hL ss (List.forall_mem_cons.1 hb).2).bind fun ss' hss' =>
      (catches_maps hL cs hparams hcs).bind fun cs' hcs' => .pure fun r =>
        ⟨hT, ss', cs', hss' r, hcs' r, rfl⟩
  | .tryBlock p ⟨ss, q⟩ cs (some ⟨fs, fq⟩), h => by
    obtain ⟨⟨hT, hparams⟩, hrest⟩ := List.forall_mem_cons.1 h
    obtain ⟨hb, hrest⟩ := List.forall_mem_append.1 hrest
    obtain ⟨hcs, hf⟩ := List.forall_mem_append.1 hrest
    rw [Stmt.mapFuncs, Block.mapFuncs, blockMapFuncs?, Block.mapFuncs]
    simp only [bind_assoc, pure_bind]
    exact (stmts_maps hL ss (List.forall_mem_cons.1 hb).2).bind fun ss' hss' =>
      (catches_maps hL cs hparams hcs).bind fun cs' hcs' =>
        (stmts_maps hL fs (List.forall_mem_cons.1 hf).2).bind fun fs' hfs' =>
        .pure fun r => ⟨hT, ss', cs', fs', ⟨fs', fq⟩, hfs' r, rfl, hss' r, hcs' r, rfl⟩
  | .labeled p l b, h => by
    rw [Stmt.mapFuncs]
    exact (b.maps hL (List.forall_mem_cons.1 h).2).bind fun b' hb' => .pure fun r =>
      ⟨b', ⟨[b'], hb' r, rfl⟩, rfl⟩
  | .breakTo p l, _ => by
    rw [Stmt.mapFuncs]
    exact .pure fun _ => rfl
  | .continueTo p l, _ => by
    rw [Stmt.mapFuncs]
    exact .pure fun _ => rfl
  | .switch p d cs, h => by
    obtain ⟨hd, hcs⟩ := List.forall_mem_append.1 (List.forall_mem_cons.1 h).2
    rw [Stmt.mapFuncs]
    exact (d.maps hL hd).bind fun d' hd' => (cases_maps hL cs hcs).bind fun cs' hcs' =>
      .pure fun r => ⟨d', cs', .inl hd', hcs' r, rfl⟩
  | .empty p, _ => by
    rw [Stmt.mapFuncs]
    exact .pure fun _ => rfl

end

end Replacing

theorem declsMapFuncs_append {m : Type → Type} [Monad m] [LawfulMonad m] (f : Func → m Func)
    (b a : List VarDecl) :
    declsMapFuncs f (a ++ b) = do
      let a ← declsMapFuncs f a
      let b ← declsMapFuncs f b
      return a ++ b := by
  induction a with
  | nil => simp [declsMapFuncs]
  | cons d a ih =>
    obtain ⟨s, e, p⟩ := d
    simp [declsMapFuncs, ih]

/-- There is no function in the declarators that make the stack. -/
theorem StackVars.declsMapFuncs_decls {m : Type → Type} [Monad m] [LawfulMonad m]
    (f : Func → m Func) (v : StackVars) :
    declsMapFuncs f v.decls = pure v.decls := by
  rw [decls]
  rcases v.location with _ | s <;> simp [declsMapFuncs, exprMapFuncs?, Expr.mapFuncs, exprsMapFuncs,
    Expr.number]

/-! ## Giving functions their frames -/

/-- A table as it comes up in the pass: the symbols that hold the stack are in it, and are no names
of the root scope. -/
structure ScopeTable.Holds (v : StackVars) (base : Nat) (t : ScopeTable) : Prop where
  base_le : base ≤ t.symbols.size
  vars : ∀ s, v.Uses s → s.index < t.symbols.size
  roots : ∀ x s, t.rootName x = some s → ¬ v.Uses s

namespace Program

section

variable (p : Program) (v : StackVars) (w : SymbolId) (recorder : Option Recorder)

theorem run_frameFunc_skip {f : Func} (h : f.body.isEmpty ∨ p.isImmortal f) (l : Ledger) :
    ((p.frameFunc v w recorder f).run l).1 = f ∧ ((p.frameFunc v w recorder f).run l).2.table =
      l.table := by
  unfold frameFunc
  dsimp only
  split
  · exact ⟨rfl, rfl⟩
  · next hempty =>
    have himm : p.isImmortal f = true := h.resolve_left hempty
    unfold isImmortal at himm
    rcases hn : f.name with _ | s <;> rw [hn] at himm
    · nomatch himm
    · rw [Option.filter_some, if_pos (by simpa using himm)]
      exact ⟨rfl, rfl⟩

theorem run_frameFunc {f : Func} (hempty : f.body.isEmpty = false) (himm : p.isImmortal f = false)
    (l : Ledger) :
    ((p.frameFunc v w recorder f).run l).1 = (f.framed v w recorder l.table).1 ∧
      ((p.frameFunc v w recorder f).run l).2.table = (f.framed v w recorder l.table).2.2 := by
  have hnone : f.name.filter p.immortal.contains = none := by
    unfold isImmortal at himm
    rcases hn : f.name with _ | s <;> rw [hn] at himm
    · rfl
    · rw [Option.filter_some, if_neg (by simpa using himm)]
  unfold frameFunc
  simp only [hempty, hnone]
  exact ⟨rfl, rfl⟩

variable (base : Nat) (kept : SymbolId → Prop) (T : List Catch → Option Block → Prop)
  (tries : Option Own → List Catch → Option Block → Prop)

/-- The layout of a program that goes through the pass. -/
def layout : Layout where
  vars := v
  wrap := w
  base := base
  kept := kept
  pairs f f' := (∀ n ∈ f.nodes, n.Admitted base kept T) ∧ ∃ l : Ledger, l.table.Holds v base ∧
    f' = ((f.mapFuncs (p.frameFunc v w recorder)).run l).1
  exempt f := p.isImmortal f
  tries := tries

end

section

variable {p : Program} {v : StackVars} {w : SymbolId} {recorder : Option Recorder} {base : Nat}
  {kept : SymbolId → Prop} {T : List Catch → Option Block → Prop}
  {tries : Option Own → List Catch → Option Block → Prop}
  (hrecorder : ∀ r, recorder = some r → v.location = some r.location)
  (htries : ∀ own cs f, T cs f → tries (some own) cs f)

include hrecorder htries

/-- The function itself gets a frame, unless it has no body or is immortal. -/
theorem frameFunc_framedAs (hplain : (∀ f, p.isImmortal f = false) ∨ tries = fun _ => T)
    {f f₁ : Func} (hf : ∀ n ∈ f.nodes, n.Admitted base kept T)
    (h : f.Reworked (p.layout v w recorder base kept T tries) T f₁) {l : Ledger}
    (hl : l.table.Holds v base) :
    let y := (p.frameFunc v w recorder f₁).run l
    y.2.table.Holds v base ∧ l.table.Adds y.2.table ∧
      f.FramedAs (p.layout v w recorder base kept T tries) y.1 := by
  dsimp only
  obtain ⟨hname_lt, hparams⟩ : (∀ s, f.name = some s → s.index < base) ∧
    ∀ s ∈ f.params, s.index < base ∧ ¬ kept s :=
    hf _ f.mem_nodes
  have himm : p.isImmortal f₁ = p.isImmortal f := by rw [isImmortal, isImmortal, h.name]
  cases hempty : f₁.body.isEmpty with
  | true =>
    obtain ⟨h₁, h₂⟩ := p.run_frameFunc_skip v w recorder (.inl hempty) l
    rw [h₁, h₂]
    have hnil : f.body.stmts = [] := by
      have hbody := h.body {}
      rw [List.isEmpty_iff.1 hempty] at hbody
      cases hss : f.body.stmts with
      | nil => rfl
      | cons s ss =>
        rw [hss] at hbody
        obtain ⟨first, rest, hfirst, -, heq⟩ := hbody
        obtain ⟨s', rfl, -⟩ := Stmt.Framed.plain hfirst
        nomatch heq
    refine ⟨hl, .refl _, h.name, h.params, hname_lt, hparams, .inl ⟨.inl hnil, ?_⟩⟩
    rw [hnil, List.isEmpty_iff.1 hempty]
    rfl
  | false =>
    cases hi : p.isImmortal f with
    | true =>
      obtain ⟨h₁, h₂⟩ := p.run_frameFunc_skip v w recorder (.inr (himm.trans hi)) l
      rw [h₁, h₂]
      rcases hplain with hplain | rfl
      · exact absurd hi (by simp [hplain])
      · exact ⟨hl, .refl _, h.name, h.params, hname_lt, hparams, .inl ⟨.inr hi, h.body {}⟩⟩
    | false =>
      obtain ⟨h₁, h₂⟩ := p.run_frameFunc v w recorder hempty (himm.trans hi) l
      rw [h₁, h₂]
      obtain ⟨hframed, hadds, hroots⟩ :=
        Func.framedAs_framed (L := p.layout v w recorder base kept T tries)
        ⟨hl.base_le, htries⟩ rfl hrecorder hl.vars hl.roots h.name h.params h.pos h.body_pos
          (h.body {}) hname_lt hparams
      exact ⟨⟨Nat.le_trans hl.base_le hadds.symbols_le, fun s hs => Nat.lt_of_lt_of_le
        (hl.vars s hs) hadds.symbols_le, hroots⟩, hadds, hframed⟩

variable (hplain : (∀ f, p.isImmortal f = false) ∨ tries = fun _ => T)

include hplain

theorem maps_frameFunc {f f₁ : Func} (hf : ∀ n ∈ f.nodes, n.Admitted base kept T)
    (h : f.Reworked (p.layout v w recorder base kept T tries) T f₁) (t : ScopeTable) :
    Maps (fun l : Ledger => l.table.Holds v base ∧ t.Adds l.table) (p.frameFunc v w recorder f₁)
      fun _ => True :=
  fun _ ⟨hl, ht⟩ =>
    have ⟨hl', hadds, _⟩ := frameFunc_framedAs hrecorder htries hplain hf h hl
    ⟨⟨hl', ht.trans hadds⟩, trivial⟩

/-- What was paired with a function is that function, framed. -/
theorem layout_framed {f f' : Func} (h : (p.layout v w recorder base kept T tries).pairs f f') :
    f.FramedAs (p.layout v w recorder base kept T tries) f' := by
  obtain ⟨hf, l, hl, rfl⟩ := h
  obtain ⟨n, ps, b, sc, pos⟩ := f
  have hb := Block.maps (L := p.layout v w recorder base kept T tries)
    ⟨fun _ _ hf h => maps_frameFunc hrecorder htries hplain hf h l.table,
      fun _ l hf hl => ⟨hf, l, hl.1, rfl⟩⟩ b
    (List.forall_mem_cons.1 hf).2 l ⟨hl, .refl _⟩
  have hreworked : Func.Reworked (p.layout v w recorder base kept T tries) T ⟨n, ps, b, sc, pos⟩
      ⟨n, ps, ((b.mapFuncs (p.frameFunc v w recorder)).run l).1, sc, pos⟩ :=
        ⟨rfl, rfl, rfl, hb.2.1, hb.2.2⟩
  rw [Func.mapFuncs]
  exact (frameFunc_framedAs hrecorder htries hplain hf hreworked hb.1.1).2.2

variable (p w recorder tries) in
/-- Code in which the stack is declared, behind declarators of its own. -/
theorem maps_declared {es : List VarDecl} {rest : List Stmt}
    (hnames : ∀ d ∈ es, d.name.index < base ∧ ¬ kept d.name)
    (hes : ∀ n ∈ declsNodes es, n.Admitted base kept T)
    (hrest : ∀ n ∈ stmtsNodes rest, n.Admitted base kept T) (q : Position) (t : ScopeTable) :
    Maps (fun l : Ledger => l.table.Holds v base ∧ t.Adds l.table)
      (stmtsMapFuncs (p.frameFunc v w recorder) (.vars q (es ++ v.decls) :: rest)) fun ss =>
        ∃ es' rest',
          declsFramed ⟨(p.layout v w recorder base kept T tries).allowing fun _ => T, none⟩ es es' ∧
          (∀ r, stmtsFramedAs ⟨(p.layout v w recorder base kept T tries).allowing fun _ => T, none⟩
            rest r rest') ∧ ss = .vars q (es' ++ v.decls) :: rest' := by
  rw [stmtsMapFuncs, Stmt.mapFuncs, declsMapFuncs_append, StackVars.declsMapFuncs_decls]
  simp only [bind_assoc, pure_bind]
  have hfollows : (p.layout v w recorder base kept T tries).Follows T
      (fun l : Ledger => l.table.Holds v base ∧ t.Adds l.table) (p.frameFunc v w recorder) :=
    ⟨fun _ _ hf h => maps_frameFunc hrecorder htries hplain hf h t,
      fun _ l hf hl => ⟨hf, l, hl.1, rfl⟩⟩
  refine (decls_maps hfollows es hnames hes).bind fun es' hes' => ?_
  refine (stmts_maps hfollows rest hrest).bind fun rest' hrest' =>
    .pure ⟨es', rest', hes', hrest', rfl⟩

end

end Program

/-! ## The whole program -/

/-- All symbols of a program are in its table. -/
structure Program.Resolved (p : Program) : Prop where
  code : ∀ n ∈ p.code.nodes, ∀ s ∈ n.symbols, s.index < p.table.symbols.size
  names : ∀ sc x s, p.table.findIn sc x = some s → s.index < p.table.symbols.size
  indexed : ∀ x s, p.indexed.get? x = some s → s.index < p.table.symbols.size

/-- Where nothing else is asked, it is enough that the symbols are in the table. -/
theorem Node.admitted_of_symbols {base : Nat} {n : Node} (h : ∀ s ∈ n.symbols, s.index < base) :
    n.Admitted base (fun _ => False) fun _ _ => True := by
  unfold Node.Admitted
  split
  · exact h _ List.mem_cons_self
  · next _ _ n =>
    cases n with
    | symbol s => exact h s List.mem_cons_self
    | property x => trivial
  · exact fun _ _ _ => id
  · exact fun _ _ => id
  · exact fun _ _ _ => id
  · exact fun _ _ => id
  · exact fun d hd => ⟨h _ (List.mem_map_of_mem hd), id⟩
  · exact fun d hd => ⟨h _ (List.mem_map_of_mem hd), id⟩
  · exact ⟨h _ List.mem_cons_self, id⟩
  · exact ⟨trivial, fun cl hcl => ⟨h _ (List.mem_map_of_mem hcl), id⟩⟩
  · exact ⟨fun s hs => h s (List.mem_append_left _ (by simp [hs])),
      fun s hs => ⟨h s (List.mem_append_right _ hs), id⟩⟩
  · trivial

/-- The declarators that make the stack stand behind those of a leading `var` statement. -/
theorem mergeVars_eq (pos : Position) (ds : List VarDecl) (ss : List Stmt) : ∃ q es rest,
    mergeVars pos ds ss = .vars q (es ++ ds) :: rest ∧
      (ss = .vars q es :: rest ∨ es = [] ∧ ss = rest) := by
  unfold mergeVars
  split
  · exact ⟨_, _, _, rfl, .inl rfl⟩
  · exact ⟨_, [], _, rfl, .inr ⟨rfl, rfl⟩⟩

namespace Program

/-- The variables that hold the stack once the pass is done. -/
def stackVars (p : Program) (r : Recording) : StackVars :=
  (StackVars.allocate (r.hasLines || p.references .location) p.table).1

def recorder (p : Program) (r : Recording) : Option Recorder :=
  if r.hasLines then (p.stackVars r).location.map ({ location := ·, files := r.hasFiles }) else none

section

variable {p : Program} {r : Recording}

theorem uses_stackVars {s : SymbolId} (h : (p.stackVars r).Uses s) :
    p.table.symbols.size ≤ s.index ∧
    s.index <
      (StackVars.allocate (r.hasLines || p.references .location) p.table).2.symbols.size := by
  rw [stackVars, ScopeTable.allocate_eq] at h
  rw [ScopeTable.size_allocate]
  rcases h with rfl | rfl | h
  · exact ⟨Nat.le_refl _, by split <;> simp⟩
  · exact ⟨Nat.le_succ _, by split <;> simp⟩
  · split at h
    · next hl =>
      obtain rfl := Option.some.inj h
      simp [hl]
    · nomatch h

/-- The table after the variables of the stack are declared. -/
theorem Resolved.holds (hp : p.Resolved) (r : Recording) :
    (StackVars.allocate (r.hasLines || p.references .location) p.table).2.Holds (p.stackVars r)
      p.table.symbols.size where
  base_le := by
    rw [ScopeTable.size_allocate]
    exact Nat.le_add_right _ _
  vars s hs := (uses_stackVars hs).2
  roots x s h hu := by
    rw [ScopeTable.rootName_allocate] at h
    exact Nat.not_le_of_lt (hp.names _ x s h) (uses_stackVars hu).1

theorem recorder_location {rec : Recorder} (h : p.recorder r = some rec) :
    (p.stackVars r).location = some rec.location := by
  unfold recorder at h
  split at h
  · obtain ⟨s, hs, rfl⟩ := Option.map_eq_some_iff.1 h
    exact hs
  · nomatch h

/-- What is so for all nodes of the code is so for its parts once the stack is declared in it. -/
theorem forall_nodes {P : Node → Prop} (h : ∀ n ∈ p.code.nodes, P n) {q : Position}
    {es : List VarDecl} {rest : List Stmt}
    (hss : p.code.stmts = .vars q es :: rest ∨ es = [] ∧ p.code.stmts = rest) :
    (es = [] ∨ P (.stmt (.vars q es))) ∧ (∀ n ∈ declsNodes es, P n) ∧ ∀ n ∈ stmtsNodes rest,
      P n := by
  have hnodes : ∀ n ∈ stmtsNodes p.code.stmts, P n := by
    intro n hn
    refine h n ?_
    generalize p.code = b at hn
    obtain ⟨ss, pos⟩ := b
    exact List.mem_cons_of_mem _ hn
  rcases hss with hss | ⟨rfl, hss⟩ <;> rw [hss] at hnodes
  · obtain ⟨hfirst, hrest⟩ := List.forall_mem_append.1 hnodes
    obtain ⟨hself, hes⟩ := List.forall_mem_cons.1 hfirst
    exact ⟨.inr hself, hes, hrest⟩
  · exact ⟨.inl rfl, (fun _ hn => nomatch hn), hnodes⟩

/-- What the pass comes to, where no reserved name is referred to. -/
theorem emulate_eq {w : SymbolId} (hw : p.wrap? = some w)
    (href : ∀ role, p.references role = false) :
    (p.emulate r).1.vars = some (p.stackVars r) ∧ ∃ n,
      let t := (StackVars.allocate (r.hasLines || p.references .location) p.table).2
      let y := (stmtsMapFuncs (p.frameFunc (p.stackVars r) w (p.recorder r))
        (mergeVars .synthetic (p.stackVars r).decls p.code.stmts)).run ⟨t, { substituted := n }, []⟩
      (p.emulate r).2.code.stmts = y.1 ∧ (p.emulate r).2.table = y.2.table ∧
        (p.emulate r).1.stats = y.2.stats := by
  obtain ⟨t, ht⟩ : ∃ t, (StackVars.allocate (r.hasLines || p.references .location) p.table).2 = t :=
    ⟨_, rfl⟩
  have hroots := ScopeTable.rootName_allocate (r.hasLines || p.references .location) p.table
  rw [ht] at hroots
  have hfixed : ∀ n ∈ p.code.nodes, n.Fixed fun s => ((p.stackVars r).replacement? t s).getD s := by
    intro n hn s hs
    dsimp only
    rw [replacement?_eq_none href hroots _ (List.mem_filterMap.2 ⟨n, hn, hs⟩)]
    rfl
  obtain ⟨q, es, rest, heq, hss⟩ := mergeVars_eq .synthetic (p.stackVars r).decls p.code.stmts
  obtain ⟨-, hes, hrest⟩ := forall_nodes hfixed hss
  have hsame : stmtsMapVars (fun s => ((p.stackVars r).replacement? t s).getD s)
      (mergeVars .synthetic (p.stackVars r).decls p.code.stmts) =
        mergeVars .synthetic (p.stackVars r).decls p.code.stmts := by
    rw [heq, stmtsMapVars, Stmt.mapVars, declsMapVars_append, declsMapVars_eq es hes,
      StackVars.declsMapVars_decls, stmtsMapVars_eq rest hrest]
  have hrun : (p.emulate r).1.vars = some (p.stackVars r) ∧ ∃ n,
      let y := (stmtsMapFuncs (p.frameFunc (p.stackVars r) w (p.recorder r))
        (stmtsMapVars (fun s => ((p.stackVars r).replacement? t s).getD s)
          (mergeVars .synthetic (p.stackVars r).decls p.code.stmts))).run
            ⟨t, { substituted := n }, []⟩
      (p.emulate r).2.code.stmts = y.1 ∧ (p.emulate r).2.table = y.2.table ∧
        (p.emulate r).1.stats = y.2.stats := by
    subst ht
    simp only [emulate, hw, substitute_eq]
    exact ⟨rfl, _, rfl, rfl, rfl⟩
  rw [hsame] at hrun
  subst ht
  exact hrun

section

variable {w : SymbolId} {kept : SymbolId → Prop} {T : List Catch → Option Block → Prop}
  {tries : Option Own → List Catch → Option Block → Prop}

/-- The layout is sound, whatever is asked of the program besides. -/
theorem Resolved.layout_sound (hp : p.Resolved) (hw : p.wrap? = some w)
    (htries : ∀ own cs f, T cs f → tries (some own) cs f)
    (hplain : (∀ f, p.isImmortal f = false) ∨ tries = fun _ => T) :
    (p.layout (p.stackVars r) w (p.recorder r) p.table.symbols.size kept T tries).Sound where
  fresh _ hs := (uses_stackVars hs).1
  stack_ne_depth := by
    simp only [layout, stackVars, ScopeTable.allocate_eq]
    simp
  location_ne s hs := by
    simp only [layout, stackVars, ScopeTable.allocate_eq] at hs ⊢
    split at hs
    · obtain rfl := Option.some.inj hs
      simp
    · nomatch hs
  wrap_lt := hp.indexed wrapKey w hw
  framed _ _ h := layout_framed (fun _ hr => recorder_location hr) htries hplain h

end

/-- The global code makes the stack and is what it was otherwise, up to the functions in it. -/
theorem Resolved.emulate_opens (hp : p.Resolved) {w : SymbolId} (hw : p.wrap? = some w)
    (href : ∀ role, p.references role = false) : ∃ L : Layout, L.Sound ∧ L.vars = p.stackVars r ∧
      (∀ f, L.exempt f ↔ p.isImmortal f) ∧ (p.emulate r).2.Opens L ∧
        ∀ x s, (p.emulate r).2.table.rootName x = some s → ¬ L.vars.Uses s := by
  refine ⟨p.layout (p.stackVars r) w (p.recorder r) p.table.symbols.size (fun _ => False)
    (fun _ _ => True)
    (fun _ _ _ => True), hp.layout_sound hw (fun _ _ _ => id) (.inr rfl), rfl, fun _ => Iff.rfl, ?_⟩
  have hadmitted : ∀ n ∈ p.code.nodes, n.Admitted p.table.symbols.size (fun _ => False) fun _ _ =>
      True :=
    fun n hn => Node.admitted_of_symbols (hp.code n hn)
  obtain ⟨-, n, hcode, htable, -⟩ := emulate_eq (r := r) hw href
  obtain ⟨q, es, rest, heq, hss⟩ := mergeVars_eq .synthetic (p.stackVars r).decls p.code.stmts
  obtain ⟨hself, hes, hrest⟩ := forall_nodes hadmitted hss
  have hnames : ∀ d ∈ es, d.name.index < p.table.symbols.size ∧ ¬ False := by
    rcases hself with rfl | hself
    · exact fun _ hd => nomatch hd
    · exact hself
  rw [heq] at hcode htable
  obtain ⟨⟨hholds, -⟩, es', rest', hes', hrest', heq'⟩ :=
    maps_declared p w (p.recorder r) (fun _ _ _ => True)
    (fun _ hr => recorder_location hr) (fun _ _ _ => id) (.inr rfl) hnames hes hrest q _
      ⟨_, { substituted := n }, []⟩
    ⟨hp.holds r, .refl _⟩
  exact ⟨⟨q, es, es', rest, rest', hes', hrest' {}, hcode.trans heq'⟩, htable ▸ hholds.roots⟩

end

end Program

end FrameLedger
