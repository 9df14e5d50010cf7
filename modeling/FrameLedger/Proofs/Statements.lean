import FrameLedger.Proofs.Expressions

/-!
# Framed statements

`Stmt.ends` and `ends_execStmts`: framed statements respect every regime that governs them, that
is, one that also respects what stands for a `return`, a reset behind a wrapped exception and the
clauses of a `try` statement. The proof is by induction on the statements they were made from.
-/

namespace FrameLedger

open Eval

theorem execStmts_append (c : Setting) (call : Caller) (env : FrameId) (b a : List Stmt) :
    execStmts c call (a ++ b) env = execStmts c call a env >>= fun
      | .next => execStmts c call b env
      | flow => pure flow := by
  induction a with
  | nil => simp [execStmts]
  | cons s a ih =>
    simp only [List.cons_append, execStmts, bind_assoc]
    refine congrArg _ (funext fun _ => congrArg _ (funext fun flow => ?_))
    cases flow with
    | next => exact ih
    | _ => simp

theorem declareVars_append (c : Setting) (call : Caller) (env : FrameId) (es : List VarDecl) :
    ∀ ds : List VarDecl, declareVars c call (ds ++ es) env =
      declareVars c call ds env >>= fun _ => declareVars c call es env
  | [] => rfl
  | d :: ds => by
    have ih := declareVars_append c call env es ds
    unfold declareVars at ih ⊢
    simp only [List.cons_append, List.forM, ih, bind_assoc]

/-- Statements that end with a `return` or a `throw` never run to their end. -/
theorem execStmts_ne_next (c : Setting) (call : Caller) (env : FrameId) :
    ∀ {ss : List Stmt} {q : Position}, Block.endsWithExit ⟨ss, q⟩ = true →
    ∀ m n, (execStmts c call ss env).go m ≠ (.ok .next, n)
  | [], _, h, _, _ => by simp [Block.endsWithExit] at h
  | [s], _, h, m, n => by
    intro hgo
    obtain ⟨_, k, _, hgo⟩ := go_bind_ok hgo
    obtain ⟨flow, l, hs, hgo⟩ := go_bind_ok hgo
    cases s with
    | ret p e =>
      obtain ⟨v, _, _, hv⟩ := go_bind_ok hs
      obtain rfl : Flow.returns v = flow := Except.ok.inj (Prod.mk.inj hv).1
      simp at hgo
    | raise p e =>
      obtain ⟨v, _, _, hs⟩ := go_bind_ok hs
      obtain ⟨_, _, _, hs⟩ := go_bind_ok hs
      simp at hs
    | _ => simp [Block.endsWithExit, Stmt.isExit] at h
  | s :: t :: ss, q, h, m, n => by
    intro hgo
    obtain ⟨_, k, _, hgo⟩ := go_bind_ok hgo
    obtain ⟨flow, l, _, hgo⟩ := go_bind_ok hgo
    cases flow with
    | next =>
      have h : Block.endsWithExit ⟨t :: ss, q⟩ = true := by simpa [Block.endsWithExit] using h
      exact execStmts_ne_next c call env h l n hgo
    | _ => simp at hgo

theorem finish_some (c : Setting) (call : Caller) (ss : List Stmt) (q : Position) (env : FrameId)
    {o : Except Abrupt Flow} (ho : ∀ e, o ≠ .error (.fault e)) :
    finish c call (some ⟨ss, q⟩) o env = execStmts c call ss env >>= fun
      | .next => settle o
      | flow => pure flow := by
  match o with
  | .ok _ => rfl
  | .error (.thrown _ _) => rfl
  | .error (.fault e) => exact absurd rfl (ho e)

namespace Regime

variable (J : Regime) (c : Setting) (call : Caller)

/-- How a statement leaves the machine. -/
def Leaves (r : Place) : Flow → Machine → Prop
  | .returns v, n => J.left r.exit n ∧ J.Clear v n
  | _, n => J.steady n

/-- What a statement becomes respects the regime. -/
def Chunk (s : Stmt) (r : Place) : Prop :=
  ∀ ss label env m, J.site.Reset r s (s.Framed J.site r) ss → J.steady m →
    m.store.Inside J.site J.frame env → J.Ends ((oneStmt s.pos ss).exec c call label env) m
      (J.Leaves r)

/-- A regime that also the parts of framed statements respect which the program itself does not
have. -/
structure Governs : Prop extends J.Serves c call where
  left_steady : ∀ x m, J.site.own = none ∨ x.isSome → J.left x m → J.steady m
  left_mono : ∀ x m n, J.site.own = none ∨ x.isSome → J.left x m → J.Grows m n → J.steady n →
    J.left x n
  returns : ∀ m r p e e' ss label env, exprFramed? J.site e e' → J.site.Returned r p e' ss →
    J.steady m →
    m.store.Inside J.site J.frame env → J.Ends ((oneStmt p ss).exec c call label env) m (J.Leaves r)
  resets : ∀ m own p env, J.site.own = some own → J.steady m → m.store.Inside J.site J.frame env →
    J.Keeps ((resetCode J.site.vars own.index p).exec c call none env) m fun flow _ => flow = .next
  catches : ∀ m r cs f cl ss env v, J.site.tries J.site.own cs f → cl ∈ cs →
    (∀ s ∈ cl.body.stmts, J.Chunk c call s { r with inCatch := true }) →
    stmtsFramedAs J.site cl.body.stmts { r with inCatch := true } ss → J.unwinding m →
    m.store.Inside J.site J.frame env → m.store.local? env cl.param = some v →
    J.Ends (execStmts c call ss env) m (J.Leaves r)
  /-- A `finally` block runs in whatever state it is reached. -/
  resumes : ∀ cs f, J.site.tries J.site.own cs (some f) → ∀ m, J.unwinding m → J.steady m
  rethrows : ∀ m own r cs f e sc p env v, J.site.own = some own →
    J.site.tries J.site.own cs (some f) →
    J.site.base ≤ e.index → ¬ J.site.vars.Uses e → ¬ own.Uses e → J.unwinding m →
    m.store.Inside J.site J.frame env → J.Clear v m →
    J.Ends (do
      let inner ← onStore (·.newFrame env)
      modifyStore (·.define inner e v)
      execStmts c call (rethrowCode J.site.vars J.site.wrap own.index e sc p).body.stmts inner) m
        (J.Leaves r)
  guards : ∀ m own cs f s p env, J.site.own = some own → J.site.tries J.site.own cs (some f) →
    s ∈ own.flags → J.steady m → m.store.Inside J.site J.frame env →
    J.Keeps ((Stmt.ofExpr (.binary p .and (.var p s) (popCode J.site.vars own.index p))).exec c call
      none env) m fun flow n => flow = .next ∧
        (m.store.local? J.frame s = some (.bool true) → J.left none n)
  left_flag : ∀ own flag m, J.site.own = some own → J.left (some flag) m →
    ∃ s, flag = some s ∧ m.store.local? J.frame s = some (.bool true)

variable {J c call} {m n : Machine} {env : FrameId} {r : Place}

/-- How a turn of a loop leaves the machine. -/
def Turns (J : Regime) (r : Place) : Option Flow → Machine → Prop
  | none, n => J.steady n
  | some flow, n => J.Leaves r flow n

theorem Leaves.leaving (label : Option String) {flow : Flow} (hf : J.Leaves r flow n) :
    J.Turns r (flow.leaving? label) n := by
  cases flow with
  | next => exact hf
  | returns v => exact hf
  | breaks l => cases l <;> exact hf
  | continues l =>
    cases l with
    | none => exact hf
    | some l =>
      simp only [Flow.leaving?]
      split <;> exact hf

namespace Serves

variable (hJ : J.Serves c call)

include hJ

/-- The statements of one chunk run, and then the others. -/
theorem append {p : Position} {a b : List Stmt}
    (ha : ∀ m, J.steady m → m.store.Inside J.site J.frame env →
      J.Ends ((oneStmt p a).exec c call none env) m (J.Leaves r))
    (hb : ∀ m, J.steady m → m.store.Inside J.site J.frame env →
      J.Ends (execStmts c call b env) m (J.Leaves r))
    (hm : J.steady m) (hi : m.store.Inside J.site J.frame env) :
    J.Ends (execStmts c call (a ++ b) env) m (J.Leaves r) := by
  rw [execStmts_append]
  have hrun : J.Ends (execStmts c call a env) m (J.Leaves r) := by
    match a, ha with
    | [], ha => exact .pure hm
    | [s], ha =>
      refine (hJ.tick hm c).bind_ends fun _ n hg hn _ => ?_
      refine (ha n hn (hJ.inside_mono hi hg)).bind fun flow k _ hf => ?_
      cases flow <;> exact .pure hf
    | s :: t :: rest, ha => exact ha m hm hi
  refine hrun.bind fun flow n hg hf => ?_
  cases flow with
  | next => exact hb n hf (hJ.inside_mono hi hg)
  | _ => exact .pure hf

theorem stmts : ∀ {ss ss' : List Stmt} {m : Machine}, (∀ s ∈ ss, J.Chunk c call s r) →
    stmtsFramedAs J.site ss r ss' → J.steady m → m.store.Inside J.site J.frame env →
    J.Ends (execStmts c call ss' env) m (J.Leaves r)
  | [], _, _, _, rfl, hm, _ => .pure hm
  | s :: _, _, _, hs, ⟨first, rest, hfirst, hrest, rfl⟩, hm, hi =>
    hJ.append (p := s.pos) (fun m hm hi => hs s List.mem_cons_self first none env m hfirst hm hi)
      (fun _ hm hi => stmts (fun s h => hs s (List.mem_cons_of_mem _ h)) hrest hm hi) hm hi

/-- A loop turn either goes on in the steady state or ends the loop. -/
theorem iterate {turn : Eval (Option Flow)}
    (ht : ∀ m, J.steady m → m.store.Inside J.site J.frame env → J.Ends turn m (J.Turns r)) :
    ∀ (k : Nat) (m : Machine), J.steady m → m.store.Inside J.site J.frame env →
      J.Ends (iterate c turn k) m (J.Leaves r)
  | 0, m, hm, _ => .fault (hJ.failed hm)
  | k + 1, m, hm, hi => by
    refine (ht m hm hi).bind fun o n hg ho => ?_
    cases o with
    | none => exact iterate ht k n ho (hJ.inside_mono hi hg)
    | some flow => exact .pure ho

theorem loop {turn : Eval (Option Flow)}
    (ht : ∀ m, J.steady m → m.store.Inside J.site J.frame env → J.Ends turn m (J.Turns r))
    (hm : J.steady m) (hi : m.store.Inside J.site J.frame env) :
    J.Ends (loop c turn) m (J.Leaves r) :=
  .get_bind (hJ.iterate ht _ m hm hi)

theorem overKeys {turn : String → Eval (Option Flow)}
    (ht : ∀ key m, J.steady m → m.store.Inside J.site J.frame env →
      J.Ends (turn key) m (J.Turns r)) :
    ∀ (ks : List String) (m : Machine), J.steady m → m.store.Inside J.site J.frame env →
      J.Ends (overKeys turn ks) m (J.Leaves r)
  | [], m, hm, _ => .pure hm
  | key :: ks, m, hm, hi => by
    refine (ht key m hm hi).bind fun o n hg ho => ?_
    cases o with
    | none => exact overKeys ht ks n ho (hJ.inside_mono hi hg)
    | some flow => exact .pure ho

theorem evalOptional {e e' : Option Expr} (he : exprFramed? J.site e e') (hm : J.steady m)
    (hi : m.store.Inside J.site J.frame env) : J.Keeps (evalOptional c call e' env) m J.Clear := by
  cases e with
  | none =>
    obtain rfl := he
    exact .pure hm trivial
  | some e =>
    obtain ⟨e₁, he, rfl⟩ := he
    exact hJ.noted he (e.keeps_eval hJ) hm hi

theorem testHolds {e e' : Option Expr} (he : exprFramed? J.site e e') (hm : J.steady m)
    (hi : m.store.Inside J.site J.frame env) : J.Keeps (testHolds c call e' env) m fun _ _ =>
      True := by
  cases e with
  | none =>
    obtain rfl := he
    exact .pure hm trivial
  | some e =>
    obtain ⟨e₁, he, rfl⟩ := he
    exact (hJ.noted he (e.keeps_eval hJ) hm hi).map fun _ _ _ _ => trivial

theorem declareVars : ∀ {ds ds' : List VarDecl} {m : Machine}, declsFramed J.site ds ds' →
    J.steady m →
    m.store.Inside J.site J.frame env → J.Keeps (declareVars c call ds' env) m fun _ _ => True
  | [], _, _, rfl, hm, _ => .pure hm trivial
  | ⟨s, none, p⟩ :: _, _, _, ⟨hs, _, rest, rfl, hds, rfl⟩, hm, hi =>
    (hJ.declare hm env hs).bind fun _ _ hg hn _ => declareVars hds hn (hJ.inside_mono hi hg)
  | ⟨s, some e, p⟩ :: _, _, _, ⟨hs, _, rest, ⟨e₁, he, rfl⟩, hds, rfl⟩, hm, hi =>
    ((hJ.noted he (e.keeps_eval hJ) hm hi).bind fun _ _ _ hn hv => hJ.bindIn hn env env hs hv).bind
      fun _ _ hg hn _ => declareVars hds hn (hJ.inside_mono hi hg)

theorem startFor {i i' : Option ForInit} (h : forInitFramed J.site i i') (hm : J.steady m)
    (hi : m.store.Inside J.site J.frame env) : J.Keeps (startFor c call i' env) m fun _ _ =>
      True := by
  match i, h with
  | none, rfl => exact .pure hm trivial
  | some (.vars ds), ⟨ds', hds, rfl⟩ => exact hJ.declareVars hds hm hi
  | some (.expr e), ⟨e', he, rfl⟩ => exact (hJ.noted he (e.keeps_eval hJ) hm hi).discard

theorem matchingCase (v : Value) :
    ∀ {cs cs' : List SwitchCase} {m : Machine}, casesFramedAs J.site cs r cs' →
    J.steady m → m.store.Inside J.site J.frame env →
    J.Keeps (matchingCase c call cs' v env) m fun _ _ => True
  | [], _, _, rfl, hm, _ => .pure hm trivial
  | ⟨t, _⟩ :: cs, _, m, ⟨t', ss', rest, ht, _, hcs, rfl⟩, hm, hi => by
    cases t with
    | none =>
      obtain rfl := ht
      exact (matchingCase v hcs hm hi).map fun _ _ _ _ => trivial
    | some t =>
      obtain ⟨t₁, ht, rfl⟩ := ht
      refine (hJ.noted ht (t.keeps_eval hJ) hm hi).bind fun w n hg hn _ => ?_
      split
      · exact .pure hn trivial
      · exact (matchingCase v hcs hn (hJ.inside_mono hi hg)).map fun _ _ _ _ => trivial

end Serves

namespace Governs

variable (hJ : J.Governs c call)

include hJ

/-! ## Catching and cleaning up -/

/-- The body of a catch clause runs in a frame of its own that binds what was caught. -/
theorem caught {cs : List Catch} {f : Option Block} {cl : Catch} {ss : List Stmt} {v : Value}
    (htries : J.site.tries J.site.own cs f) (hcl : cl ∈ cs)
    (hs : ∀ s ∈ cl.body.stmts, J.Chunk c call s { r with inCatch := true })
    (hframed : stmtsFramedAs J.site cl.body.stmts { r with inCatch := true } ss)
    (hparam : J.site.Writes cl.param) (hm : J.unwinding m) (hv : J.Clear v m)
    (hi : m.store.Inside J.site J.frame env) :
    J.Ends (do
      let inner ← onStore (·.newFrame env)
      modifyStore (·.define inner cl.param v)
      execStmts c call ss inner) m (J.Leaves r) := by
  have hf := (hJ.unwinding_fits m hm).newFrame hi.has
  have h₁ := m.store.ordinary_newFrame J.site.toLayout J.guarded env
  have h₂ := Store.ordinary_define (h := (m.store.newFrame env).2) J.guarded hparam
    (m.store.newFrame env).1 v
  have ho := (Machine.Ordinary.setStore (m := m) h₁ hf).trans
    (.setStore h₂ (hf.define _ (hJ.sound.not_uses hparam.1) hv))
  have hg := hJ.sound.grows (h₁.trans h₂) J.frame
  have hown (own : Own) (ho : J.site.own = some own) (hu : own.Uses cl.param) : False :=
    (hJ.sound.own_fresh ho hu).1 hparam
  have hinner := Store.Inside.newFrame hown v hi.has_body
    (hi.mono hg fun _ _ ho hu => hJ.sound.own_fresh ho hu)
  have hrun := hJ.catches _ r cs f cl ss (m.store.newFrame env).1 v htries hcl hs hframed
    (hJ.unwinding_ordinary m _ hm ho) hinner
    (Store.local?_define_self _ _ _ _ ((Store.has_newFrame _ _).2 (.inr rfl)))
  exact ⟨Store.Grows.trans hg hrun.1, hrun.2⟩

theorem handle {cs cs' : List Catch} {f : Option Block} (htries : J.site.tries J.site.own cs f)
    (hs : ∀ cl ∈ cs, ∀ s ∈ cl.body.stmts, J.Chunk c call s { r with inCatch := true })
    (hframed : catchesFramedAs J.site cs r cs') {o : Except Abrupt Flow}
    (ho : J.Result (J.Leaves r) o m) (hi : m.store.Inside J.site J.frame env) :
    J.Ends (handle c call cs' o env) m (J.Result (J.Leaves r)) := by
  match cs, cs', hframed with
  | [], _, rfl => exact .pure ho
  | ⟨s, sc, ⟨ss, q⟩, p⟩ :: cs, _, ⟨hparam, ss', rest, hss, _, rfl⟩ =>
    match o, ho with
    | .ok flow, ho => exact .pure ho
    | .error (.fault e), ho => exact .pure ho
    | .error (.thrown v _), ho =>
      have hcl : ⟨s, sc, ⟨ss, q⟩, p⟩ ∈ (⟨s, sc, ⟨ss, q⟩, p⟩ :: cs : List Catch) :=
        List.mem_cons_self
      exact (hJ.caught htries hcl (hs _ hcl) hss hparam ho.1 ho.2 hi).observe

/-- A `finally` block is reached in the steady state, unless by a fault. -/
theorem steady_of_result {cs : List Catch} {f : Block}
    (htries : J.site.tries J.site.own cs (some f)) (hx : J.site.own = none ∨ r.exit.isSome)
    {o : Except Abrupt Flow}
    (ho : J.Result (J.Leaves r) o m) (hfault : ∀ e, o ≠ .error (.fault e)) :
    J.steady m := by
  match o, ho with
  | .ok (.returns v), ho => exact hJ.left_steady _ _ hx ho.1
  | .ok .next, ho => exact ho
  | .ok (.breaks _), ho => exact ho
  | .ok (.continues _), ho => exact ho
  | .error (.thrown v p), ho => exact hJ.resumes cs f htries _ ho.1
  | .error (.fault e), _ => exact absurd rfl (hfault e)

/-- What was on its way out before a `finally` block is still after it. -/
theorem result_mono {r' : Place} {o : Except Abrupt Flow} (ho : J.Result (J.Leaves r) o m)
    (hg : J.Grows m n) (hn : J.steady n) (hleft : J.left r.exit m → J.left r'.exit n)
    (hfault : ∀ e, o ≠ .error (.fault e)) : J.Result (J.Leaves r') o n := by
  match o, ho with
  | .ok (.returns v), ho => exact ⟨hleft ho.1, ho.2.mono hg⟩
  | .ok .next, _ => exact hn
  | .ok (.breaks _), _ => exact hn
  | .ok (.continues _), _ => exact hn
  | .error (.thrown v p), ho => exact ⟨hJ.unwinding_of_steady n hn, ho.2.mono hg⟩
  | .error (.fault e), _ => exact absurd rfl (hfault e)

/-- A `finally` block through which every `return` passes on. -/
theorem finish {cs : List Catch} {f : Block} {fs : List Stmt} {q : Position}
    (htries : J.site.tries J.site.own cs (some f)) (hx : J.site.own = none ∨ r.exit.isSome)
    (hfs : ∀ m, J.steady m → m.store.Inside J.site J.frame env →
      J.Ends (execStmts c call fs env) m (J.Leaves r))
    {o : Except Abrupt Flow} (ho : J.Result (J.Leaves r) o m)
    (hi : m.store.Inside J.site J.frame env) :
    J.Ends (finish c call (some ⟨fs, q⟩) o env) m (J.Leaves r) := by
  by_cases hfault : ∃ e, o = .error (.fault e)
  · obtain ⟨e, rfl⟩ := hfault
    exact .fault ho
  · have hfault (e : Fault) (he : o = .error (.fault e)) : False := hfault ⟨e, he⟩
    have hm := hJ.steady_of_result htries hx ho hfault
    rw [finish_some c call fs q env hfault]
    refine (hfs m hm hi).bind fun flow n hg hf => ?_
    cases flow with
    | next =>
      exact .settle (hJ.result_mono ho hg hf (fun hl => hJ.left_mono _ m n hx hl hg hf) hfault)
    | _ => exact .pure hf

/-- The outermost `finally` block pops the frame if a `return` led to it. -/
theorem finish_guarded {own : Own} {flag : Option SymbolId} {cs : List Catch} {f f' : Block}
    {fs : List Stmt} {q : Position} (hown : J.site.own = some own)
    (htries : J.site.tries J.site.own cs (some f)) (hr : r.exit = none)
    (hguarded : J.site.Guarded flag ⟨fs, q⟩ f')
    (hfs : ∀ m, J.steady m → m.store.Inside J.site J.frame env →
      J.Ends (execStmts c call fs env) m (J.Leaves r))
    {o : Except Abrupt Flow} (ho : J.Result (J.Leaves { r with exit := some flag }) o m)
    (hi : m.store.Inside J.site J.frame env) :
    J.Ends (FrameLedger.finish c call (some f') o env) m (J.Leaves r) := by
  by_cases hfault : ∃ e, o = .error (.fault e)
  · obtain ⟨e, rfl⟩ := hfault
    exact .fault ho
  · have hfault (e : Fault) (he : o = .error (.fault e)) : False := hfault ⟨e, he⟩
    have hm := hJ.steady_of_result htries (.inr rfl) ho hfault
    have hrun : J.Ends (execStmts c call f'.stmts env) m fun flow n => J.Leaves r flow n ∧
        (flow = .next → ∀ s, flag = some s → m.store.local? J.frame s = some (.bool true) →
          J.left none n) := by
      simp only [Site.Guarded, hown] at hguarded
      cases flag with
      | none =>
        subst hguarded
        exact (hfs m hm hi).mono fun flow n _ hf => ⟨hf, by rintro _ _ ⟨⟩⟩
      | some s =>
        obtain ⟨hs, hb⟩ := hguarded
        split at hb
        · next hexit =>
          subst hb
          refine (hfs m hm hi).and_go fun flow n hgo hn => ?_
          subst hn
          exact absurd hgo (execStmts_ne_next c call env hexit m n)
        · subst hb
          simp only [execStmts_append]
          refine (hfs m hm hi).bind fun flow n hg hf => ?_
          cases flow with
          | next =>
            refine (hJ.tick hf c).bind_ends fun _ k hg' hk hstore => ?_
            have hi' := hJ.inside_mono (hJ.inside_mono hi hg) hg'
            refine (hJ.guards k own cs f s q env hown htries hs hk hi').bind_ends
              fun flow l _ hl hflow => ?_
            obtain ⟨rfl, hpop⟩ := hflow
            refine .pure ⟨hl, fun _ t ht hflag => hpop ?_⟩
            obtain rfl := Option.some.inj ht
            rw [hstore]
            exact hg.flag own s hown hs hflag
          | _ => exact .pure ⟨hf, by rintro ⟨⟩⟩
    obtain ⟨fs', q'⟩ := f'
    rw [finish_some c call fs' q' env hfault]
    refine hrun.bind fun flow n hg hf => ?_
    cases flow with
    | next =>
      obtain ⟨hn, hleft⟩ := hf
      refine .settle (hJ.result_mono ho hg hn (fun hl => ?_) hfault)
      obtain ⟨s, hs, hflag⟩ := hJ.left_flag own flag m hown hl
      rw [hr]
      exact hleft rfl s hs hflag
    | _ => exact .pure hf.1

/-- The depth is reset after the statement itself. -/
theorem chunk {s : Stmt} (hs : ∀ ss label env m, s.Framed J.site r ss → J.steady m →
    m.store.Inside J.site J.frame env → J.Ends ((oneStmt s.pos ss).exec c call label env) m
      (J.Leaves r)) :
    J.Chunk c call s r := by
  intro ss label env m hss hm hi
  unfold Site.Reset at hss
  split at hss
  · exact hs ss label env m hss hm hi
  · next own hown =>
    split at hss
    · next hreset =>
      obtain ⟨ss₁, hss₁, rfl⟩ := hss
      cases s with
      | expr p e =>
        obtain ⟨e', he, rfl⟩ := hss₁
        refine hJ.append (p := p) (a := [.expr p e'])
          (fun m hm hi => hs [.expr p e'] none env m ⟨e', he, rfl⟩ hm hi) (fun m hm hi => ?_) hm hi
        refine (hJ.tick hm c).bind_ends fun _ n hg hn _ => ?_
        refine (hJ.resets n own p env hown hn (hJ.inside_mono hi hg)).bind_ends
          fun flow k _ hk hflow => ?_
        subst hflow
        exact .pure hk
      | _ => simp [Stmt.assignsWrapped] at hreset
    · exact hs ss label env m hss hm hi

omit hJ in
theorem body {s s' : Stmt} (hs : J.Chunk c call s r) (hb : J.site.Body r s (s.Framed J.site r) s')
    (label : Option String) (hm : J.steady m) (hi : m.store.Inside J.site J.frame env) :
    J.Ends (s'.exec c call label env) m (J.Leaves r) := by
  obtain ⟨ss, hss, rfl⟩ := hb
  exact hs ss label env m hss hm hi

theorem execCases {cs : List SwitchCase} (hs : ∀ cl ∈ cs, ∀ s ∈ cl.body, J.Chunk c call s r) :
    ∀ {cs' : List SwitchCase} (k : Nat) {m : Machine}, casesFramedAs J.site cs r cs' → J.steady m →
      m.store.Inside J.site J.frame env → J.Ends (execCases c call cs' k env) m (J.Leaves r) := by
  induction cs with
  | nil =>
    rintro _ k m rfl hm _
    exact .pure hm
  | cons cl cs ih =>
    obtain ⟨t, ss⟩ := cl
    rintro _ k m ⟨t', ss', rest, _, hss, hcs, rfl⟩ hm hi
    replace ih := @ih fun cl hcl => hs cl (List.mem_cons_of_mem _ hcl)
    cases k with
    | succ k => exact ih k hcs hm hi
    | zero =>
      refine (hJ.stmts (hs ⟨t, ss⟩ List.mem_cons_self) hss hm hi).bind fun flow n hg hf => ?_
      match flow, hf with
      | .next, hn => exact ih 0 hcs hn (hJ.inside_mono hi hg)
      | .breaks none, hn => exact .pure hn
      | .breaks (some l), hn => exact .pure hn
      | .continues l, hn => exact .pure hn
      | .returns v, hf => exact .pure hf

end Governs

end Regime

section

variable {J : Regime} {c : Setting} {call : Caller}

mutual

theorem Stmt.ends (hJ : J.Governs c call) :
    ∀ (s : Stmt) (r : Place) (ss : List Stmt) (label : Option String) (env : FrameId) (m : Machine),
    s.Framed J.site r ss → J.steady m → m.store.Inside J.site J.frame env →
    J.Ends ((oneStmt s.pos ss).exec c call label env) m (J.Leaves r)
  | .expr p e, r, _, label, env, m, ⟨e', he, rfl⟩, hm, hi => by
    show J.Ends ((Stmt.expr p e').exec c call label env) m (J.Leaves r)
    simp only [Stmt.exec]
    split
    · exact .pure hm
    · exact (hJ.noted he (e.keeps_eval hJ.toServes) hm hi).discard.bind_ends fun _ _ _ hn _ =>
        .pure hn
  | .vars p ds, r, _, label, env, m, ⟨ds', hds, rfl⟩, hm, hi =>
    (hJ.declareVars hds hm hi).bind_ends fun _ _ _ hn _ => .pure hn
  | .ret p e, r, ss, label, env, m, ⟨e', he, hret⟩, hm, hi =>
    hJ.returns m r p e e' ss label env he hret hm hi
  | .raise p e, r, _, label, env, m, ⟨e', he, rfl⟩, hm, hi =>
    (hJ.noted he (e.keeps_eval hJ.toServes) hm hi).bind_ends fun _ _ _ hn hv =>
      hJ.recordThrow_bind hn c hv p
  | .branch p t yes no, r, _, label, env, m, ⟨t', yes', no', ht, hyes, hno, rfl⟩, hm, hi => by
    refine (hJ.noted ht (t.keeps_eval hJ.toServes) hm hi).bind_ends fun v n hg hn _ => ?_
    split
    · refine (hJ.tick hn c).bind_ends fun _ k hg' hk _ => ?_
      exact Regime.Governs.body (hJ.chunk (yes.ends hJ r)) hyes none hk
        (hJ.inside_mono hi (hg.trans hg'))
    · exact ends_execElse hJ no r no' env n hno hn (hJ.inside_mono hi hg)
  | .whileLoop p t b, r, _, label, env, m, ⟨t', b', ht, hb, rfl⟩, hm, hi => by
    refine hJ.loop (fun m hm hi => ?_) hm hi
    refine (hJ.noted ht (t.keeps_eval hJ.toServes) hm hi).bind_ends fun v n hg hn _ => ?_
    split
    · refine (hJ.tick hn c).bind_ends fun _ k hg' hk _ => ?_
      exact (Regime.Governs.body (hJ.chunk (b.ends hJ r)) hb none hk
        (hJ.inside_mono hi (hg.trans hg'))).bind fun flow l _ hf => .pure (hf.leaving label)
    · exact .pure hn
  | .doWhile p b t, r, _, label, env, m, ⟨b', t', hb, ht, rfl⟩, hm, hi => by
    refine hJ.loop (fun m hm hi => ?_) hm hi
    refine (hJ.tick hm c).bind_ends fun _ n hg hn _ => ?_
    refine (Regime.Governs.body (hJ.chunk (b.ends hJ r)) hb none hn (hJ.inside_mono hi hg)).bind
      fun flow k hg' hf => ?_
    have hf := hf.leaving label
    split
    · next heq =>
      rw [heq] at hf
      exact .pure hf
    · next heq =>
      rw [heq] at hf
      refine (hJ.noted ht (t.keeps_eval hJ.toServes) hf
        (hJ.inside_mono hi (hg.trans hg'))).bind_ends fun v l _ hl _ => ?_
      split <;> exact .pure hl
  | .forLoop p init t incr b, r, _, label, env, m,
      ⟨init', t', incr', b', hinit, ht, hincr, hb, rfl⟩, hm, hi => by
    refine (hJ.startFor hinit hm hi).bind_ends fun _ n hg hn _ => ?_
    refine hJ.loop (fun m hm hi => ?_) hn (hJ.inside_mono hi hg)
    refine (hJ.testHolds ht hm hi).bind_ends fun v n hg hn _ => ?_
    split
    · refine (hJ.tick hn c).bind_ends fun _ k hg' hk _ => ?_
      have hi' := hJ.inside_mono hi (hg.trans hg')
      refine (Regime.Governs.body (hJ.chunk (b.ends hJ r)) hb none hk hi').bind
        fun flow l hg'' hf => ?_
      have hf := hf.leaving label
      split
      · next heq =>
        rw [heq] at hf
        exact .pure hf
      · next heq =>
        rw [heq] at hf
        exact (hJ.evalOptional hincr hf (hJ.inside_mono hi' hg'')).discard.bind_ends
          fun _ _ _ ho _ => .pure ho
    · exact .pure hn
  | .forIn p k d o b, r, _, label, env, m, ⟨hk, o', b', ho, hb, rfl⟩, hm, hi => by
    refine (hJ.noted ho (o.keeps_eval hJ.toServes) hm hi).bind_ends fun v n hg hn _ => ?_
    refine (Regime.Keeps.keys hn v).bind_ends fun ks l hg' hl _ => ?_
    refine hJ.overKeys (fun key m hm hi => ?_) ks l hl (hJ.inside_mono hi (hg.trans hg'))
    have hkey : J.Clear (.string key) m := trivial
    refine (hJ.bindIn hm env env hk hkey).bind_ends fun _ n hg hn _ => ?_
    refine (hJ.tick hn c).bind_ends fun _ k hg' hk _ => ?_
    exact (Regime.Governs.body (hJ.chunk (b.ends hJ r)) hb none hk
      (hJ.inside_mono hi (hg.trans hg'))).bind fun flow l _ hf => .pure (hf.leaving label)
  | .block p ⟨ss, q⟩, r, _, label, env, m, ⟨ss', hss, rfl⟩, hm, hi =>
    hJ.stmts (stmts_chunk hJ ss r) hss hm hi
  | .tryBlock p ⟨ss, q⟩ cs none, r, _, label, env, m, ⟨htries, ss', cs', hss, hcs, rfl⟩, hm,
      hi => by
    refine (hJ.stmts (stmts_chunk hJ ss r) hss hm hi).observe_bind fun o n hg ho => ?_
    refine (hJ.handle htries (catches_chunk hJ cs r) hcs ho (hJ.inside_mono hi hg)).bind
      fun o k _ ho => ?_
    exact .settle ho
  | .tryBlock p ⟨ss, q⟩ cs (some ⟨fs, fq⟩), r, _, label, env, m,
      ⟨htries, ss', cs', fs', f', hfs, rfl, htry⟩, hm, hi => by
    have hcleanup (m : Machine) (hm : J.steady m) (hi : m.store.Inside J.site J.frame env) :=
      hJ.stmts (stmts_chunk hJ fs r) hfs hm hi
    have hnested (hx : J.site.own = none ∨ r.exit.isSome)
        (htry : stmtsFramedAs J.site ss r ss' ∧ catchesFramedAs J.site cs r cs' ∧ f' = ⟨fs', fq⟩) :
        J.Ends ((Stmt.tryBlock p ⟨ss', q⟩ cs' (some f')).exec c call label env) m (J.Leaves r) := by
      obtain ⟨hss, hcs, rfl⟩ := htry
      refine (hJ.stmts (stmts_chunk hJ ss r) hss hm hi).observe_bind fun o n hg ho => ?_
      refine (hJ.handle htries (catches_chunk hJ cs r) hcs ho (hJ.inside_mono hi hg)).bind
        fun o k hg' ho => ?_
      exact hJ.finish htries hx hcleanup ho (hJ.inside_mono hi (hg.trans hg'))
    split at htry
    · next own hown hexit =>
      obtain ⟨flag, hss, hguarded, hcs⟩ := htry
      refine (hJ.stmts (stmts_chunk hJ ss { r with exit := some flag }) hss hm hi).observe_bind
        fun o n hg ho => ?_
      have hhandle : J.Ends (handle c call cs' o env) n
          (J.Result (J.Leaves { r with exit := some flag })) := by
        cases cs with
        | nil =>
          obtain ⟨e, sc, hbase, hvars, huses, rfl⟩ := hcs
          match o, ho with
          | .ok flow, ho => exact .pure ho
          | .error (.fault e), ho => exact .pure ho
          | .error (.thrown v _), ho =>
            exact (hJ.rethrows n own _ [] _ e sc p env v hown htries hbase hvars huses ho.1
              (hJ.inside_mono hi hg) ho.2).observe
        | cons cl cs =>
          exact hJ.handle htries (catches_chunk hJ (cl :: cs) { r with exit := some flag }) hcs ho
            (hJ.inside_mono hi hg)
      refine hhandle.bind fun o k hg' ho => ?_
      exact hJ.finish_guarded hown htries hexit hguarded hcleanup ho
        (hJ.inside_mono hi (hg.trans hg'))
    · next hcase =>
      refine hnested ?_ htry
      rcases hown : J.site.own with _ | own
      · exact .inl rfl
      · rcases hexit : r.exit with _ | x
        · exact (hcase own hown hexit).elim
        · exact .inr rfl
  | .labeled p l b, r, _, label, env, m, ⟨b', hb, rfl⟩, hm, hi => by
    have hrun (m : Machine) (hm : J.steady m) (hi : m.store.Inside J.site J.frame env) :
        J.Ends (do
          match ← b'.exec c call (some l) env with
          | .breaks (some l') => return if l' = l then .next else .breaks (some l')
          | flow => return flow) m (J.Leaves r) := by
      refine (Regime.Governs.body (hJ.chunk (b.ends hJ r)) hb (some l) hm hi).bind
        fun flow n _ hf => ?_
      split
      · split <;> exact .pure hf
      · exact .pure hf
    show J.Ends ((Stmt.labeled p l b').exec c call label env) m (J.Leaves r)
    simp only [Stmt.exec]
    split
    · exact hrun m hm hi
    · exact (hJ.tick hm c).bind_ends fun _ n hg hn _ => hrun n hn (hJ.inside_mono hi hg)
  | .breakTo p l, r, _, label, env, m, rfl, hm, hi => .pure hm
  | .continueTo p l, r, _, label, env, m, rfl, hm, hi => .pure hm
  | .switch p d cs, r, _, label, env, m, ⟨d', cs', hd, hcs, rfl⟩, hm, hi => by
    refine (hJ.noted hd (d.keeps_eval hJ.toServes) hm hi).bind_ends fun v n hg hn _ => ?_
    refine (hJ.matchingCase v hcs hn (hJ.inside_mono hi hg)).bind_ends fun o k hg' hk _ => ?_
    split
    · exact hJ.execCases (cases_chunk hJ cs r) _ hcs hk (hJ.inside_mono hi (hg.trans hg'))
    · exact .pure hk
  | .empty p, r, _, label, env, m, rfl, hm, hi => .pure hm

theorem stmts_chunk (hJ : J.Governs c call) :
    ∀ (ss : List Stmt) (r : Place), ∀ s ∈ ss, J.Chunk c call s r
  | [], _ => fun _ h => absurd h List.not_mem_nil
  | s :: ss, r => List.forall_mem_cons.2 ⟨hJ.chunk (s.ends hJ r), stmts_chunk hJ ss r⟩

theorem ends_execElse (hJ : J.Governs c call) :
    ∀ (s : Option Stmt) (r : Place) (s' : Option Stmt) (env : FrameId) (m : Machine),
    stmtFramedAs? J.site s r s' → J.steady m → m.store.Inside J.site J.frame env →
    J.Ends (execElse c call s' env) m (J.Leaves r)
  | none, _, _, _, _, rfl, hm, _ => .pure hm
  | some s, r, _, _, _, ⟨s', hs, rfl⟩, hm, hi =>
    (hJ.tick hm c).bind_ends fun _ _ hg hn _ =>
      Regime.Governs.body (hJ.chunk (s.ends hJ r)) hs none hn (hJ.inside_mono hi hg)

theorem catches_chunk (hJ : J.Governs c call) : ∀ (cs : List Catch) (r : Place),
    ∀ cl ∈ cs, ∀ s ∈ cl.body.stmts, J.Chunk c call s { r with inCatch := true }
  | [], _ => fun _ h => absurd h List.not_mem_nil
  | ⟨_, _, ⟨ss, _⟩, _⟩ :: cs, r =>
    List.forall_mem_cons.2 ⟨stmts_chunk hJ ss { r with inCatch := true }, catches_chunk hJ cs r⟩

theorem cases_chunk (hJ : J.Governs c call) :
    ∀ (cs : List SwitchCase) (r : Place), ∀ cl ∈ cs, ∀ s ∈ cl.body,
    J.Chunk c call s r
  | [], _ => fun _ h => absurd h List.not_mem_nil
  | ⟨_, ss⟩ :: cs, r => List.forall_mem_cons.2 ⟨stmts_chunk hJ ss r, cases_chunk hJ cs r⟩

end

/-- Framed statements respect a regime that governs them. -/
theorem ends_execStmts (hJ : J.Governs c call) {ss ss' : List Stmt} {r : Place} {env : FrameId}
    {m : Machine} (hss : stmtsFramedAs J.site ss r ss') (hm : J.steady m)
    (hi : m.store.Inside J.site J.frame env) :
    J.Ends (execStmts c call ss' env) m (J.Leaves r) :=
  hJ.stmts (stmts_chunk hJ ss r) hss hm hi

end

/-- A regime for code that keeps no frame governs all of it, if what is caught there is caught in a
state in which the code may go on. -/
theorem Regime.Serves.governs_plain {J : Regime} {c : Setting} {call : Caller}
    (hJ : J.Serves c call) (hown : J.site.own = none)
    (hsteady : ∀ cs f, J.site.tries J.site.own cs f → ∀ m, J.unwinding m → J.steady m)
    (hleft : ∀ x m, J.left x m ↔ J.steady m)
    (hret : ∀ m p e e' label env, exprFramed? J.site e e' → J.steady m →
      m.store.Inside J.site J.frame env →
      J.Keeps ((Stmt.ret p e').exec c call label env) m fun flow n => ∃ v, flow = .returns v ∧
        J.Clear v n) :
    J.Governs c call :=
  have hno (o : Own) (ho : J.site.own = some o) : False := nomatch hown.symm.trans ho
  { toServes := hJ
    left_steady := fun x m _ hl => (hleft x m).1 hl
    left_mono := fun x _ n _ _ _ hn => (hleft x n).2 hn
    returns := fun m r p e e' ss label env he hss hm hi => by
      obtain rfl : ss = [.ret p e'] := by simpa [Site.Returned, hown] using hss
      refine Ends.mono (hret m p e e' label env he hm hi) fun flow n _ h => ?_
      obtain ⟨hn, v, rfl, hv⟩ := h
      exact ⟨(hleft _ n).2 hn, hv⟩
    resets := fun _ o _ _ ho => (hno o ho).elim
    catches := fun m r cs f cl ss env v htries _ hs hss hm hi _ =>
      (hJ.stmts hs hss (hsteady cs f htries m hm) hi).mono fun flow _ _ h => by
        cases flow <;> exact h
    resumes := fun cs f htries m hm => hsteady cs _ htries m hm
    rethrows := fun _ o _ _ _ _ _ _ _ _ ho => (hno o ho).elim
    guards := fun _ o _ _ _ _ _ ho => (hno o ho).elim
    left_flag := fun o _ _ ho => (hno o ho).elim }

end FrameLedger
