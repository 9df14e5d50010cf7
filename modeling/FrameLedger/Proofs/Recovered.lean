import FrameLedger.Proofs.Balance
import FrameLedger.Proofs.Erased
import FrameLedger.Proofs.Fresh

/-!
# A program is found again

`Program.Resolved.withoutStack_emulate`: what the pass adds can be taken out again, and what is left
is the program with its reserved names redirected.
-/

namespace FrameLedger

/-! ## Nodes of redirected code -/

section

variable (ρ : SymbolId → SymbolId)

def Node.mapVars : Node → Node
  | .block b => .block (b.mapVars ρ)
  | .stmt s => .stmt (s.mapVars ρ)
  | .expr e => .expr (e.mapVars ρ)
  | .func f => .func (f.mapVars ρ)

variable {ρ} in
theorem nodes_append {as bs cs ds : List Node} (h : as = cs.map (Node.mapVars ρ))
    (h' : bs = ds.map (Node.mapVars ρ)) :
    as ++ bs = (cs ++ ds).map (Node.mapVars ρ) := by
  rw [h, h', List.map_append]

mutual

theorem Expr.nodes_mapVars : ∀ e : Expr, (e.mapVars ρ).nodes = e.nodes.map (Node.mapVars ρ)
  | .var .. | .bare .. | .literal .. => rfl
  | .member _ q _ => congrArg (List.cons _) q.nodes_mapVars
  | .index _ a i => congrArg (List.cons _) (nodes_append a.nodes_mapVars i.nodes_mapVars)
  | .call _ f as => congrArg (List.cons _) (nodes_append f.nodes_mapVars (exprsNodes_mapVars as))
  | .new _ f as => congrArg (List.cons _) (nodes_append f.nodes_mapVars (exprsNodes_mapVars as))
  | .prefixed _ _ x => congrArg (List.cons _) x.nodes_mapVars
  | .postfixed _ _ x => congrArg (List.cons _) x.nodes_mapVars
  | .binary _ _ l r => congrArg (List.cons _) (nodes_append l.nodes_mapVars r.nodes_mapVars)
  | .cond _ c t e =>
    congrArg (List.cons _)
      (nodes_append c.nodes_mapVars (nodes_append t.nodes_mapVars e.nodes_mapVars))
  | .array _ es => congrArg (List.cons _) (exprsNodes_mapVars es)
  | .object _ ps => congrArg (List.cons _) (propertiesNodes_mapVars ps)
  | .func _ f => congrArg (List.cons _) f.nodes_mapVars

theorem exprsNodes_mapVars : ∀ es : List Expr, exprsNodes (exprsMapVars ρ es) =
    (exprsNodes es).map (Node.mapVars ρ)
  | [] => rfl
  | e :: es => nodes_append e.nodes_mapVars (exprsNodes_mapVars es)

theorem exprNodes?_mapVars : ∀ e : Option Expr, exprNodes? (exprMapVars? ρ e) =
    (exprNodes? e).map (Node.mapVars ρ)
  | none => rfl
  | some e => e.nodes_mapVars

theorem propertiesNodes_mapVars : ∀ ps : List Property,
    propertiesNodes (propertiesMapVars ρ ps) = (propertiesNodes ps).map (Node.mapVars ρ)
  | [] => rfl
  | ⟨_, e⟩ :: ps => nodes_append e.nodes_mapVars (propertiesNodes_mapVars ps)

theorem Func.nodes_mapVars : ∀ f : Func, (f.mapVars ρ).nodes = f.nodes.map (Node.mapVars ρ)
  | ⟨_, _, b, _, _⟩ => congrArg (List.cons _) b.nodes_mapVars

theorem Block.nodes_mapVars : ∀ b : Block, (b.mapVars ρ).nodes = b.nodes.map (Node.mapVars ρ)
  | ⟨ss, _⟩ => congrArg (List.cons _) (stmtsNodes_mapVars ss)

theorem blockNodes?_mapVars : ∀ b : Option Block,
    blockNodes? (blockMapVars? ρ b) = (blockNodes? b).map (Node.mapVars ρ)
  | none => rfl
  | some b => b.nodes_mapVars

theorem declsNodes_mapVars : ∀ ds : List VarDecl,
    declsNodes (declsMapVars ρ ds) = (declsNodes ds).map (Node.mapVars ρ)
  | [] => rfl
  | ⟨_, e, _⟩ :: ds => nodes_append (exprNodes?_mapVars e) (declsNodes_mapVars ds)

theorem forInitNodes_mapVars : ∀ x : Option ForInit,
    forInitNodes (forInitMapVars ρ x) = (forInitNodes x).map (Node.mapVars ρ)
  | none => rfl
  | some (.vars ds) => declsNodes_mapVars ds
  | some (.expr e) => e.nodes_mapVars

theorem catchesNodes_mapVars : ∀ cs : List Catch,
    catchesNodes (catchesMapVars ρ cs) = (catchesNodes cs).map (Node.mapVars ρ)
  | [] => rfl
  | ⟨_, _, b, _⟩ :: cs => nodes_append b.nodes_mapVars (catchesNodes_mapVars cs)

theorem casesNodes_mapVars : ∀ cs : List SwitchCase,
    casesNodes (casesMapVars ρ cs) = (casesNodes cs).map (Node.mapVars ρ)
  | [] => rfl
  | ⟨t, ss⟩ :: cs =>
    nodes_append (exprNodes?_mapVars t)
      (nodes_append (stmtsNodes_mapVars ss) (casesNodes_mapVars cs))

theorem stmtsNodes_mapVars : ∀ ss : List Stmt, stmtsNodes (stmtsMapVars ρ ss) =
    (stmtsNodes ss).map (Node.mapVars ρ)
  | [] => rfl
  | s :: ss => nodes_append s.nodes_mapVars (stmtsNodes_mapVars ss)

theorem stmtNodes?_mapVars : ∀ s : Option Stmt, stmtNodes? (stmtMapVars? ρ s) =
    (stmtNodes? s).map (Node.mapVars ρ)
  | none => rfl
  | some s => s.nodes_mapVars

theorem Stmt.nodes_mapVars : ∀ s : Stmt, (s.mapVars ρ).nodes = s.nodes.map (Node.mapVars ρ)
  | .expr _ e => congrArg (List.cons _) e.nodes_mapVars
  | .vars _ ds => congrArg (List.cons _) (declsNodes_mapVars ds)
  | .ret _ e => congrArg (List.cons _) (exprNodes?_mapVars e)
  | .raise _ e => congrArg (List.cons _) e.nodes_mapVars
  | .branch _ c t e =>
    congrArg (List.cons _)
      (nodes_append c.nodes_mapVars (nodes_append t.nodes_mapVars (stmtNodes?_mapVars e)))
  | .whileLoop _ c b => congrArg (List.cons _) (nodes_append c.nodes_mapVars b.nodes_mapVars)
  | .doWhile _ b c => congrArg (List.cons _) (nodes_append b.nodes_mapVars c.nodes_mapVars)
  | .forLoop _ i c n b =>
    congrArg (List.cons _)
      (nodes_append (forInitNodes_mapVars i) (nodes_append (exprNodes?_mapVars c)
      (nodes_append (exprNodes?_mapVars n) b.nodes_mapVars)))
  | .forIn _ _ _ o b => congrArg (List.cons _) (nodes_append o.nodes_mapVars b.nodes_mapVars)
  | .block _ b => congrArg (List.cons _) b.nodes_mapVars
  | .tryBlock _ b cs f =>
    congrArg (List.cons _) (nodes_append b.nodes_mapVars (nodes_append (catchesNodes_mapVars cs)
      (blockNodes?_mapVars f)))
  | .labeled _ _ b => congrArg (List.cons _) b.nodes_mapVars
  | .breakTo .. | .continueTo .. | .empty .. => rfl
  | .switch _ d cs => congrArg (List.cons _) (nodes_append d.nodes_mapVars (casesNodes_mapVars cs))

end

theorem params_catchesMapVars :
    ∀ cs : List Catch, (catchesMapVars ρ cs).map (·.param) = cs.map (·.param)
  | [] => rfl
  | ⟨s, _, _, _⟩ :: cs => congrArg (List.cons s) (params_catchesMapVars cs)

variable {ρ} in
/-- A redirected node names what it named, or what that is redirected to. -/
theorem Node.mem_symbols_mapVars {n : Node} {s : SymbolId} (h : s ∈ (n.mapVars ρ).symbols) :
    s ∈ n.symbols ∨ ∃ t ∈ n.symbols, s = ρ t := by
  have hdecls (ds : List VarDecl) (h : s ∈ (declsMapVars ρ ds).map (·.name)) : s ∈ ds.map
      (·.name) := by
    rwa [names_declsMapVars] at h
  cases n with
  | block b => cases h
  | func f =>
    obtain ⟨n, ps, b, sc, p⟩ := f
    exact .inl h
  | expr e =>
    cases e with
    | var p t => exact .inr ⟨t, List.mem_cons_self, List.mem_singleton.1 h⟩
    | member p q n =>
      cases n with
      | symbol t => exact .inl h
      | property x => cases h
    | _ => cases h
  | stmt x =>
    cases x with
    | vars p ds => exact .inl (hdecls ds h)
    | forLoop p i c n b =>
      rcases i with _ | ds | e
      · cases h
      · exact .inl (hdecls ds h)
      · cases h
    | forIn p k d o b => exact .inl h
    | tryBlock p b cs f =>
      replace h : s ∈ (catchesMapVars ρ cs).map (·.param) := h
      rw [params_catchesMapVars] at h
      exact .inl h
    | _ => cases h

end

/-! ## Functions -/

namespace Program

variable {p : Program} {v : StackVars} {w : SymbolId} {recorder : Option Recorder} {base : Nat}

/-- A function stays where it is. -/
theorem fields_frameFunc (p : Program) (v : StackVars) (w : SymbolId) (recorder : Option Recorder)
    (f : Func) (l : Ledger) :
    let f' := ((p.frameFunc v w recorder f).run l).1
    f'.name = f.name ∧ f'.params = f.params ∧ f'.scope = f.scope ∧ f'.pos = f.pos ∧
      f'.body.pos = f.body.pos := by
  cases hover : p.passesOver f with
  | true =>
    rw [(p.run_frameFunc_skip v w recorder (by simpa [passesOver] using hover) l).1]
    exact ⟨rfl, rfl, rfl, rfl, rfl⟩
  | false =>
    obtain ⟨hempty, himm⟩ := Bool.or_eq_false_iff.1 hover
    rw [(p.run_frameFunc v w recorder hempty himm l).1]
    exact ⟨rfl, rfl, rfl, rfl, rfl⟩

/-- The layout of a program of which nothing is asked but that its symbols are below a number. -/
abbrev plainLayout (p : Program) (v : StackVars) (w : SymbolId) (recorder : Option Recorder)
    (base : Nat) : Layout :=
  p.layout v w recorder base (fun _ => False) (fun _ _ => True) fun _ _ _ => True

theorem plainLayout_rewritten (hrecorder : ∀ r, recorder = some r → v.location = some r.location)
    {f f' : Func} (h : (p.plainLayout v w recorder base).pairs f f') :
    f.Rewritten p (p.plainLayout v w recorder base) f' := by
  have hframed := layout_framed hrecorder (fun _ _ _ => id) (.inr rfl) h
  obtain ⟨hf, l, hl, rfl⟩ := h
  obtain ⟨n, ps, b, sc, pos⟩ := f
  have hb := Block.maps (L := p.plainLayout v w recorder base)
    ⟨fun _ _ hf h => maps_frameFunc hrecorder (fun _ _ _ => id) (.inr rfl) hf h l.table,
      fun _ l hf hl => ⟨hf, l, hl.1, rfl⟩⟩ b
    (List.forall_mem_cons.1 hf).2 l ⟨hl, .refl _⟩
  rw [Func.mapFuncs] at hframed ⊢
  obtain ⟨hname, hparams, hscope, hpos, hbpos⟩ := p.fields_frameFunc v w recorder
    ⟨n, ps, ((b.mapFuncs (p.frameFunc v w recorder)).run l).1, sc, pos⟩
    ((b.mapFuncs (p.frameFunc v w recorder)).run l).2
  refine ⟨hname, hparams, hscope, hpos, hbpos.trans hb.2.1, ?_⟩
  cases hover : p.passesOver ⟨n, ps, b, sc, pos⟩ with
  | true =>
    have hskip : Block.isEmpty ((b.mapFuncs (p.frameFunc v w recorder)).run l).1 ∨
        p.isImmortal ⟨n, ps, ((b.mapFuncs (p.frameFunc v w recorder)).run l).1, sc, pos⟩ := by
      refine (Bool.or_eq_true_iff.1 hover).imp_left fun hempty => ?_
      have hnil := hb.2.2 {}
      rw [List.isEmpty_iff.1 hempty] at hnil
      exact List.isEmpty_iff.2 hnil
    have hsame := (p.run_frameFunc_skip v w recorder (f := ⟨n, ps, _, sc, pos⟩) hskip
      ((b.mapFuncs (p.frameFunc v w recorder)).run l).2).1
    refine .inl ⟨rfl, ?_⟩
    rw [StateT.run_bind]
    exact (congrArg (·.body.stmts) hsame) ▸ hb.2.2 {}
  | false =>
    obtain ⟨hempty, himm⟩ := Bool.or_eq_false_iff.1 hover
    refine .inr ⟨rfl, hframed.body.resolve_left ?_⟩
    rintro ⟨hnil | hexempt, -⟩
    · rw [Block.isEmpty, hnil] at hempty
      cases hempty
    · rw [show p.isImmortal ⟨n, ps, b, sc, pos⟩ = true from hexempt] at himm
      cases himm

/-! ## The whole program -/

variable {r : Recording}

theorem redirect_lt {s : SymbolId} (hs : s.index < p.table.symbols.size) :
    (p.redirect r s).index < (p.stackTable r).symbols.size := by
  have hext : p.table.Extends (p.stackTable r) := ScopeTable.extends_allocate _ _
  rcases p.redirect_cases r s with h | h
  · exact (uses_stackVars h).2
  · rw [h]
    exact Nat.lt_of_lt_of_le hs hext.symbols_le

/-- Redirected code is in the table that the stack was added to. -/
theorem admitted_redirected {ns : List Node}
    (h : ∀ n ∈ ns, ∀ s ∈ n.symbols, s.index < p.table.symbols.size) :
    ∀ n ∈ ns.map (Node.mapVars (p.redirect r)), n.Admitted (p.stackTable r).symbols.size
      (fun _ => False) fun _ _ => True := by
  have hext : p.table.Extends (p.stackTable r) := ScopeTable.extends_allocate _ _
  intro n' hn'
  obtain ⟨n, hn, rfl⟩ := List.mem_map.1 hn'
  refine Node.admitted_of_symbols fun s hs => ?_
  rcases Node.mem_symbols_mapVars hs with hs | ⟨t, ht, rfl⟩
  · exact Nat.lt_of_lt_of_le (h n hn s hs) hext.symbols_le
  · exact redirect_lt (h n hn t ht)

/-- A leading `var` statement gets the declarators; else they make one. -/
theorem mergeVars_cases (q : Position) (ds : List VarDecl) (ss : List Stmt) : ∃ q' es rest,
    mergeVars q ds ss = .vars q' (es ++ ds) :: rest ∧
      (ss = .vars q' es :: rest ∨ es = [] ∧ ss = rest ∧ ∀ s ∈ ss.head?, s.isVars = false) := by
  rcases ss with _ | ⟨s, ss⟩
  · exact ⟨q, [], [], rfl, .inr ⟨rfl, rfl, fun _ hs => by cases hs⟩⟩
  · cases s with
    | vars q' es => exact ⟨q', es, ss, rfl, .inl rfl⟩
    | _ => exact ⟨q, [], _, rfl, .inr ⟨rfl, rfl, fun _ hs => Option.some.inj hs ▸ rfl⟩⟩

/-- The code that comes out: what the program has, redirected, with the stack declared in front and
the functions in it framed. -/
theorem Resolved.emulate_redirected (hp : p.Resolved) (hw : p.wrap? = some w) (r : Recording) :
    ∃ q es rest es' rest', (p.code.stmts = .vars q es :: rest ∨
        es = [] ∧ p.code.stmts = rest ∧ ∀ s ∈ p.code.stmts.head?, s.isVars = false) ∧
      (∀ s ∈ es.map (·.name), s.index < p.table.symbols.size) ∧
      declsFramed
        ⟨p.plainLayout (p.stackVars r) w (p.recorder r) (p.stackTable r).symbols.size, none⟩
        (declsMapVars (p.redirect r) es) es' ∧
      stmtsFramedAs
        ⟨p.plainLayout (p.stackVars r) w (p.recorder r) (p.stackTable r).symbols.size, none⟩
        (stmtsMapVars (p.redirect r) rest) {} rest' ∧
      (p.emulate r).2.code = ⟨.vars q (es' ++ (p.stackVars r).decls) :: rest', p.code.pos⟩ := by
  obtain ⟨-, stats, hcode, -⟩ := emulate_run hw r
  obtain ⟨q, es, rest, hmerged, hss⟩ :=
    mergeVars_cases .synthetic (p.stackVars r).decls p.code.stmts
  obtain ⟨hself, hes, hrest⟩ :=
    forall_nodes (P := fun n => ∀ s ∈ n.symbols, s.index < p.table.symbols.size) hp.code
    (hss.imp_right fun h => ⟨h.1, h.2.1⟩)
  have hnames : ∀ s ∈ es.map (·.name), s.index < p.table.symbols.size := by
    rcases hself with rfl | hself
    · exact fun _ hs => by cases hs
    · exact hself
  have hext : p.table.Extends (p.stackTable r) := ScopeTable.extends_allocate _ _
  have hnames' : ∀ d ∈ declsMapVars (p.redirect r) es,
      d.name.index < (p.stackTable r).symbols.size ∧ ¬ False := by
    intro d hd
    refine ⟨Nat.lt_of_lt_of_le (hnames _ ?_) hext.symbols_le, id⟩
    rw [← names_declsMapVars (p.redirect r)]
    exact List.mem_map_of_mem hd
  have hes' := declsNodes_mapVars (p.redirect r) es ▸ admitted_redirected (r := r) hes
  have hrest' := stmtsNodes_mapVars (p.redirect r) rest ▸ admitted_redirected (r := r) hrest
  obtain ⟨-, es', rest', hes', hrest', hout⟩ := maps_declared p w (p.recorder r) (fun _ _ _ => True)
    (fun _ => recorder_location) (fun _ _ _ => id) (.inr rfl) hnames' hes' hrest' q _
      ⟨p.stackTable r, stats, []⟩
    ⟨⟨Nat.le_refl _, fun _ hs => (uses_stackVars hs).2, (hp.holds r).roots⟩, .refl _⟩
  refine ⟨q, es, rest, es', rest', hss, hnames, hes', hrest' {}, ?_⟩
  have hblock : p.redirected r =
      ⟨.vars q (declsMapVars (p.redirect r) es ++ (p.stackVars r).decls) ::
      stmtsMapVars (p.redirect r) rest, p.code.pos⟩ := by
    rw [redirected, StackVars.declareIn, hmerged, Block.mapVars, stmtsMapVars, Stmt.mapVars,
      declsMapVars_append, StackVars.declsMapVars_decls]
  rw [hcode, hblock]
  exact congrArg (Block.mk · p.code.pos) hout

end Program

end FrameLedger
