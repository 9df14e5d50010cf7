import FrameLedger.Builder
import FrameLedger.Proofs.Keeping

/-!
# Bookkeeping in plays

`Reaches` lists the points that evaluation passes on its way, those inside the tasks that it asks
for included. `Play.bookkeeping`: however a program is played and wherever an act of the play
stands, calls nest no deeper than they may, nothing that was bound is lost, every task leaves as
many calls as it enters, and a function whose body runs is bound to its name in the environment of
the call.
-/

namespace FrameLedger

open Eval Code

/-- On its way from a machine, code comes to a point where other code is what is left to do. -/
inductive Reaches (c : Setting) : {α β : Type} → Code α → Machine → Code β → Machine → Prop
  | here {α : Type} (x : Code α) (m : Machine) : Reaches c x m x m
  | perform {α β γ : Type} {shown : Machine → List Value} {x : Eval β}
      {next : Except Abrupt β → Code α} {m k : Machine} {y : Code γ}
      (hx : Reaches c (next (x.go m).1) (x.go m).2 y k) : Reaches c (.perform shown x next) m y k
  | inside {α β γ : Type} {t : Task β} {next : Except Abrupt β → Code α} {m k : Machine}
      {y : Code γ} (ht : Reaches c (t.code c) m y k) : Reaches c (.ask t next) m y k
  | behind {α β γ : Type} {t : Task β} {next : Except Abrupt β → Code α} {m n k : Machine}
      {r : Except Abrupt β} {y : Code γ} (ht : Comes c (t.code c) m (r, n))
      (hx : Reaches c (next r) n y k) : Reaches c (.ask t next) m y k

/-- On its way, code asks for a task from this machine. -/
def Asks {α β : Type} (c : Setting) (x : Code α) (m : Machine) (t : Task β) (k : Machine) : Prop :=
  ∃ (γ : Type) (next : Except Abrupt β → Code γ), Reaches c x m (.ask t next) k

section

variable {α β γ : Type} {c : Setting} {m k n : Machine}

/-! ## Points on the way -/

theorem Comes.unique {x : Code α} {out : Except Abrupt α × Machine} (hx : Comes c x m out) :
    ∀ {out'}, Comes c x m out' → out' = out := by
  induction hx with
  | ret r m =>
    intro out' h
    cases h
    rfl
  | perform _ ih =>
    intro out' h
    cases h with
    | perform h => exact ih h
  | ask _ _ iht ih =>
    intro out' h
    cases h with
    | ask ht h =>
      obtain ⟨rfl, rfl⟩ := Prod.mk.inj (iht ht)
      exact ih h

/-- Code that comes to something does so from every point on the way. -/
theorem Comes.of_reaches {x : Code α} {y : Code β} (hx : Reaches c x m y k) :
    ∀ {out}, Comes c x m out → ∃ out', Comes c y k out' := by
  induction hx with
  | here x m => exact fun h => ⟨_, h⟩
  | perform _ ih =>
    intro out h
    cases h with
    | perform h => exact ih h
  | inside _ ih =>
    intro out h
    cases h with
    | ask ht _ => exact ih ht
  | behind ht _ ih =>
    intro out h
    cases h with
    | ask ht' h =>
      obtain ⟨rfl, rfl⟩ := Prod.mk.inj (ht.unique ht')
      exact ih h

theorem Comes.sound {x : Code α} {out : Except Abrupt α × Machine} (hx : Comes c x m out) :
    ∀ {P : Except Abrupt α → Machine → Prop}, x.Sound c P m → P out.1 out.2 := by
  induction hx with
  | ret r m => exact id
  | perform _ ih => exact fun h => ih h.2.2
  | ask _ _ iht ih => exact fun h => ih (h.2 _ _ (iht ((Task.within _).sound _ h.1)))

/-- A task that started from a machine that fits leaves one. -/
theorem Task.fit_of_comes {t : Task α} {r : Except Abrupt α}
    (hm : m.Fit c m.store t.frame m.callDepth) (ht : Comes c (t.code c) m (r, n)) :
    n.Fit c m.store t.frame m.callDepth :=
  ht.sound (t.within.sound m hm)

/-- What is known at a point on the way. -/
theorem Reaches.sound {x : Code α} {y : Code β} (hx : Reaches c x m y k) :
    ∀ {P : Except Abrupt α → Machine → Prop}, x.Sound c P m → m.callDepth ≤ c.limits.calls →
      m.store.Keeps k.store ∧ k.callDepth ≤ c.limits.calls ∧ ∃ Q, y.Sound c Q k := by
  induction hx with
  | here x m => exact fun h hm => ⟨.refl _, hm, _, h⟩
  | perform _ ih =>
    intro P h _
    obtain ⟨hkeeps, hcalls, h⟩ := h
    obtain ⟨hk, hcalls, hQ⟩ := ih h hcalls
    exact ⟨hkeeps.trans hk, hcalls, hQ⟩
  | inside _ ih => exact fun h hm => ih ((Task.within _).sound _ h.1) hm
  | behind ht _ ih =>
    intro P h hm
    have hn := Task.fit_of_comes h.1 ht
    obtain ⟨hk, hcalls, hQ⟩ := ih (h.2 _ _ hn) (hn.callDepth.trans_le hm)
    exact ⟨hn.keeps.trans hk, hcalls, hQ⟩

theorem Asks.fit {x : Code α} {t : Task β} {P : Except Abrupt α → Machine → Prop}
    (hx : Asks c x m t k) (h : x.Sound c P m) (hm : m.callDepth ≤ c.limits.calls) :
    k.Fit c k.store t.frame k.callDepth := by
  obtain ⟨γ, next, hx⟩ := hx
  obtain ⟨-, -, Q, hQ⟩ := hx.sound h hm
  exact hQ.1

namespace Asks

variable {t : Task β} {x : Code α}

theorem comes {out : Except Abrupt α × Machine} (hx : Asks c x m t k) (h : Comes c x m out) :
    ∃ out', Comes c (t.code c) k out' := by
  obtain ⟨γ, next, hx⟩ := hx
  obtain ⟨_, h⟩ := Comes.of_reaches hx h
  cases h with
  | ask ht _ => exact ⟨_, ht⟩

theorem request (t : Task β) (m : Machine) : Asks c (request t) m t m := ⟨β, .ret, .here _ _⟩

theorem perform {y : Eval γ} {next : Except Abrupt γ → Code α} {shown : Machine → List Value}
    {r : Except Abrupt γ} (hy : y.go m = (r, n)) (hx : Asks c (next r) n t k) :
    Asks c (.perform shown y next) m t k := by
  obtain ⟨δ, cont, hx⟩ := hx
  refine ⟨δ, cont, .perform ?_⟩
  rw [hy]
  exact hx

theorem bind (hx : Asks c x m t k) (f : α → Code γ) : Asks c (x >>= f) m t k := by
  obtain ⟨δ, cont, hx⟩ := hx
  generalize hy : Code.ask t cont = y at hx
  induction hx with
  | here x m =>
    subst hy
    exact ⟨γ, _, .here _ _⟩
  | perform _ ih =>
    obtain ⟨δ, cont, h⟩ := ih f cont hy
    exact ⟨δ, cont, .perform h⟩
  | inside ht => exact ⟨_, cont, .inside (hy ▸ ht)⟩
  | behind ht _ ih =>
    obtain ⟨δ, cont, h⟩ := ih f cont hy
    exact ⟨δ, cont, .behind ht h⟩

theorem attempt (hx : Asks c x m t k) : Asks c x.attempt m t k := by
  obtain ⟨δ, cont, hx⟩ := hx
  generalize hy : Code.ask t cont = y at hx
  induction hx with
  | here x m =>
    subst hy
    exact ⟨_, _, .here _ _⟩
  | perform _ ih =>
    obtain ⟨δ, cont, h⟩ := ih cont hy
    exact ⟨δ, cont, .perform h⟩
  | inside ht => exact ⟨_, cont, .inside (hy ▸ ht)⟩
  | behind ht _ ih =>
    obtain ⟨δ, cont, h⟩ := ih cont hy
    exact ⟨δ, cont, .behind ht h⟩

theorem inside {s : Task γ} {next : Except Abrupt γ → Code α} (hx : Asks c (s.code c) m t k) :
    Asks c (.ask s next) m t k := by
  obtain ⟨δ, cont, hx⟩ := hx
  exact ⟨δ, cont, .inside hx⟩

/-- A call of a function comes to its body, in a frame under that of the closure. -/
theorem body {r : ClosureRef} {f : Closure} (hr : m.store.closure? r = some f)
    (hsteps : m.steps < c.limits.steps) (hdepth : m.callDepth < c.limits.calls) (args : List Value)
    (pos : Position) :
    ∃ env k,
      Asks c (Task.code c (.call (.function r) args pos)) m (.execAll f.func.body.stmts env) k ∧
      k.store.closure? r = some f ∧ k.store.parent? env = some f.env ∧
      k.callDepth = m.callDepth + 1 := by
  set m₁ : Machine := { m with steps := m.steps + 1, trace := .of [] }
  have htick : (tick c).go { m with trace := .of [] } = (.ok (), m₁) := by
    rw [go_tick]
    exact if_neg (Nat.not_lt.2 hsteps)
  obtain ⟨n, hgo, hbinds, -, hparent⟩ := Eval.binds_prepare Store.globals f args m₁
  have henter : Asks c (Code.enter c f args pos) m₁
      (.execAll f.func.body.stmts (m₁.store.newFrame f.env).1)
      { n with callDepth := n.callDepth + 1 } := by
    refine perform (go_get m₁) ?_
    show Asks c (if c.limits.calls ≤ m.callDepth then _ else _) m₁ _ _
    rw [if_neg (Nat.not_le.2 hdepth)]
    exact perform hgo (bind (perform (go_modify _ n) (bind (attempt (request _ _)) _)) _)
  refine ⟨_, { n with callDepth := n.callDepth + 1 },
    perform rfl (bind (attempt (perform htick (perform (go_store m₁) ?_))) _),
    hbinds.keeps.closure? r f hr, hparent, congrArg (· + 1) hbinds.callDepth⟩
  simp only [Code.bind, m₁, hr]
  exact henter

end Asks

end

/-! ## Acts -/

/-- Calls nest no deeper than they may, and what was bound in a frame or seen from an environment
still is. -/
structure Machine.Retains (c : Setting) (m n : Machine) : Prop where
  calls : n.callDepth ≤ c.limits.calls
  local? : ∀ f s, (m.store.local? f s).isSome → (n.store.local? f s).isSome
  lookup : ∀ env s, (m.store.lookup env s).isSome → (n.store.lookup env s).isSome

theorem Machine.retains_of_keeps {c : Setting} {m n : Machine} (hk : m.store.Keeps n.store)
    (hn : n.callDepth ≤ c.limits.calls) : m.Retains c n := ⟨hn, hk.bound, fun _ _ => hk.lookup⟩

section

variable {c : Setting} {m : Machine}

theorem comes_execAll (ss : List Stmt) (hm : m.Idle) :
    Comes c (Task.code c (.execAll ss Store.globals)) m
      ((execStmts c c.caller ss Store.globals).go m) := by
  by_cases hle : m.steps ≤ c.limits.steps
  · exact (describes_stmts (describes_call _) ss _ m).comes (hm.primed hle)
  · cases ss with
    | nil => exact .ret _ _
    | cons s ss =>
      rw [execStmts, go_tick_bind (Nat.lt_of_not_le hle)]
      exact (runs_tick_bind hm.grounded (Nat.lt_of_not_le hle) _).comes

theorem comes_call (v : Value) (args : List Value) (p : Position) (hm : m.Idle) :
    Comes c (Task.code c (.call v args p)) m ((c.caller v args p).go m) := by
  by_cases hle : m.steps ≤ c.limits.steps
  · exact (describes_call _ v args p _ m).comes (hm.primed hle)
  · have hlt := Nat.lt_of_not_le hle
    obtain ⟨enter', henter, -⟩ := exists_within_eq c c.limits.calls
    have hgo : (Caller.invoke c enter' v args p).go { m with trace := .of [] } =
      (c.outOfSteps, { m with steps := m.steps + 1, trace := .of [] }) :=
        go_tick_bind (m := { m with trace := .of [] }) hlt _
    rw [Setting.caller, henter, Caller.ofEnter, go_together, hgo]
    exact (runs_tick_bind (m := { m with trace := .of [] }) hm.grounded hlt _).comes.together _

theorem comes_exec (p : Program) (hm : m.Idle) : Comes c (p.execCode c) m ((p.exec c).go m) := by
  have hhoist : Comes c (act c [] (hoist p.code.stmts Store.globals)) m
      ((hoist p.code.stmts Store.globals).go m) :=
    .perform (.ret _ _)
  refine hhoist.go_bind fun _ k hk => ?_
  have hidle : k.Idle := by
    have := hm.next (c := c) ((Orderly.hoist p.code.stmts).leads m)
    rwa [hk] at this
  have hbody : Comes c (request (.execAll p.code.stmts Store.globals)) k
      ((execStmts c c.caller p.code.stmts Store.globals).go k) :=
        .ask (comes_execAll p.code.stmts hidle) (.ret _ _)
  exact hbody.go_bind fun flow n _ => .perform (.ret _ _)

theorem Comes.report {α : Type} {x : Code α} {k : Machine} {r : Except Abrupt α}
    (hx : Comes c x m (r, k)) :
    Comes c (Code.report c x) m (.ok (r.mapError (.ofAbrupt k)), k) := by
  refine hx.attempt.bind ?_
  match r with
  | .ok a => exact .ret _ _
  | .error (.fault f) => exact .ret _ _
  | .error (.thrown v p) => exact .perform (.ret _ _)

theorem Code.Within.report {α : Type} {h₀ : Store} {x : Code α}
    (hx : Within c h₀ Store.globals 0 x) :
    Within c h₀ Store.globals 0 (Code.report c x) := by
  refine hx.attempt.bind fun r => ?_
  match r with
  | .ok a => exact .pure _
  | .error (.fault f) => exact .pure _
  | .error (.thrown v p) => exact (act (.text v) _).bind fun _ => .pure _

theorem Program.within_execCode (p : Program) (h₀ : Store) :
    Within c h₀ Store.globals 0 (p.execCode c) := by
  refine (Within.perform (fun m => ?_) _).bind fun _ => (Within.request (by rfl)).bind fun flow =>
    Within.act ?_ _
  · obtain ⟨n, hgo, hn⟩ := Eval.binds_hoist p.code.stmts Store.globals m
    rw [hgo]
    exact hn
  · cases flow with
    | next => exact .pure _
    | _ => exact .throw _

namespace Play

variable {p : Program} {x : Play}

/-- An act comes to the result and the machine that the play goes on with. -/
theorem Idle.comes (hx : x.Idle p c) (a : Act) : ∃ r, (x.act a).results = x.results ++ [r] ∧
    Comes c (x.code a) (x.supplied a).2.machine (.ok r, (x.act a).session.machine) := by
  obtain ⟨⟨q, c, m⟩, results⟩ := x
  obtain ⟨rfl, rfl, hm⟩ := hx
  cases a with
  | run =>
    have hrun : Comes c (q.execCode c >>= fun _ => pure Value.undefined) m
        ((q.exec c >>= fun _ => pure Value.undefined).go m) :=
          (comes_exec q hm).go_bind fun _ _ _ => .ret _ _
    have hgo : (q.exec c >>= fun _ => pure Value.undefined).go m =
        (((q.exec c).go m).1.map fun _ => Value.undefined, ((q.exec c).go m).2) := by
      rw [go_bind]
      rcases (q.exec c).go m with ⟨_ | _, _⟩ <;> rfl
    rw [hgo] at hrun
    simp only [Play.act, Session.run, Session.perform_eq]
    refine ⟨_, ?_, hrun.report⟩
    rcases ((q.exec c).go m).1 with _ | _ <;> rfl
  | call name args =>
    have hm' := hm.supplied args
    simp only [Play.act, Session.call, Play.code, Play.supplied, Session.alloc]
    refine ⟨_, rfl, ?_⟩
    cases hcallee : Session.global _ name with
    | none => exact .ret _ _
    | some callee =>
      by_cases hc : callee.isCallable
      · simp only [if_pos hc]
        rw [Session.perform_eq]
        exact Comes.report
          (.ask (comes_call callee (allocAll args m.store).1 q.code.pos hm') (.ret _ _))
      · simp only [if_neg hc]
        exact .ret _ _

theorem within_code (x : Play) (hc : x.session.setting = c) (a : Act) (h₀ : Store) :
    Within c h₀ Store.globals 0 (x.code a) := by
  subst hc
  cases a with
  | run => exact ((x.session.program.within_execCode h₀).bind fun _ => .pure _).report
  | call name args =>
    simp only [Play.code]
    split
    · split
      · exact (Within.call ..).report
      · exact .pure _
    · exact .pure _

/-- Between two acts nothing is left of a call, and functions are bound to their names. -/
theorem fit_supplied (hm : x.session.machine.Fit c x.session.machine.store Store.globals 0)
    (a : Act) :
    (x.supplied a).2.machine.Fit c (x.supplied a).2.machine.store Store.globals 0 := by
  cases a with
  | run => exact hm
  | call name args =>
    obtain ⟨hframes, hclosures⟩ := allocAll_frames args x.session.machine.store
    have hquiet : x.session.machine.store.Quiet (allocAll args x.session.machine.store).2 :=
      .of_eq hframes hclosures
    have hn := hm.binds (n := (x.supplied (.call name args)).2.machine)
      ⟨hquiet.toKeeps, fun h _ => hquiet.named h, rfl⟩
    exact { hn with keeps := .refl _ }

theorem fit_act (hx : x.Idle p c)
    (hm : x.session.machine.Fit c x.session.machine.store Store.globals 0) (a : Act) :
    (x.act a).session.machine.Fit c (x.act a).session.machine.store Store.globals 0 := by
  obtain ⟨r, -, hcomes⟩ := hx.comes a
  have hn := hcomes.sound ((x.within_code hx.setting a _).sound _ (fit_supplied hm a))
  exact { hn with keeps := .refl _ }

theorem fit_start (p : Program) (probe : Option StackVars) (limits : Limits) :
    (Machine.start p.table).Fit ⟨p.table, probe, limits⟩ (Machine.start p.table).store Store.globals
      0 := by
  have hidle := Machine.idle_start p.table
  refine ⟨.refl _, hidle.has_globals, hidle.has_globals, ?_, fun r cl s hr => ?_, rfl,
    Nat.zero_le _⟩
  · rcases hp : (Machine.start p.table).store.parent? Store.globals with _ | f
    · rfl
    · exact absurd (hidle.grounded.parent_lt _ _ hp) (Nat.not_lt_zero _)
  · have hnone : (Machine.start p.table).store.closures = #[] := by
      dsimp only [Machine.start]
      refine List.foldlRecOn (motive := fun h : Store => h.closures = #[]) ErrorKind.all _ rfl
        fun h hh k _ => ?_
      split
      · exact hh
      · exact hh
    rw [Store.closure?, hnone] at hr
    simp at hr

theorem fit_of (p : Program) (probe : Option StackVars) (limits : Limits) (acts : List Act) :
    (Play.of p probe limits acts).session.machine.Fit ⟨p.table, probe, limits⟩
      (Play.of p probe limits acts).session.machine.store Store.globals 0 := by
  have h : (Play.of p probe limits acts).Idle p ⟨p.table, probe, limits⟩ ∧
      (Play.of p probe limits acts).session.machine.Fit ⟨p.table, probe, limits⟩
        (Play.of p probe limits acts).session.machine.store Store.globals 0 :=
    List.foldlRecOn (motive := fun x : Play => x.Idle p ⟨p.table, probe, limits⟩ ∧
      x.session.machine.Fit ⟨p.table, probe, limits⟩ x.session.machine.store Store.globals 0) acts
        Play.act
      ⟨⟨rfl, rfl, Machine.idle_start _⟩, fit_start p probe limits⟩ fun x hx a _ =>
        ⟨hx.1.act a, fit_act hx.1 hx.2 a⟩
  exact h.2

/-- However a program was played so far, the next act comes to a result with no call open, as none
was before. At every point on its way calls nest no deeper than they may and nothing bound is lost.
Every task on the way, of which an expression, a statement or a call is one, comes to one outcome,
with as many calls open as before. Where the body of a function with a name runs, in a frame under
that of the function, the name is bound, and calls do come to the body that way. -/
theorem bookkeeping (p : Program) (probe : Option StackVars) (limits : Limits) (acts : List Act)
    (a : Act) :
    let x := Play.of p probe limits acts
    let c : Setting := ⟨p.table, probe, limits⟩
    let m := (x.supplied a).2.machine
    (∃ r, (x.act a).results = x.results ++ [r] ∧
      Comes c (x.code a) m (.ok r, (x.act a).session.machine)) ∧
    m.callDepth = 0 ∧ (x.act a).session.machine.callDepth = 0 ∧
    (∀ (β : Type) (y : Code β) k, Reaches c (x.code a) m y k → m.Retains c k) ∧
    (∀ (β : Type) (t : Task β) k, Asks c (x.code a) m t k →
      (∃! out, Comes c (t.code c) k out) ∧
      (∀ r n, Comes c (t.code c) k (r, n) → n.callDepth = k.callDepth ∧ k.Retains c n) ∧
      ∀ (γ : Type) (y : Code γ) l, Reaches c (t.code c) k y l → k.Retains c l) ∧
    (∀ f env k r s, Asks c (x.code a) m (.execAll f.func.body.stmts env) k →
      k.store.closure? r = some f →
      k.store.parent? env = some f.env → f.func.name = some s → (k.store.lookup env s).isSome) ∧
    (∀ r f args pos k, Asks c (x.code a) m (.call (.function r) args pos) k →
      k.store.closure? r = some f → k.steps < limits.steps → k.callDepth < limits.calls →
      ∃ env l, Asks c (Task.code c (.call (.function r) args pos)) k
        (.execAll f.func.body.stmts env) l ∧
        l.store.closure? r = some f ∧ l.store.parent? env = some f.env ∧
          l.callDepth = k.callDepth + 1 ∧
        ∀ s, f.func.name = some s → (l.store.lookup env s).isSome) ∧
    ∀ (β : Type) (t : Task β) k, ((t.run c c.caller).go k).2.callDepth = k.callDepth := by
  intro x c m
  have hx : x.Idle p c := Play.idle_of p probe limits acts
  have hfit : m.Fit c m.store Store.globals 0 := fit_supplied (fit_of p probe limits acts) a
  have hcalls : m.callDepth ≤ c.limits.calls := hfit.callDepth.trans_le (Nat.zero_le _)
  have hsound := (x.within_code hx.setting a m.store).sound m hfit
  obtain ⟨result, hresults, hcomes⟩ := hx.comes a
  have hnamed {f : Closure} {env : FrameId} {k : Machine} {r : ClosureRef} {s : SymbolId}
      (hk : k.Fit c k.store env k.callDepth) (hr : k.store.closure? r = some f)
      (hp : k.store.parent? env = some f.env)
        (hs : f.func.name = some s) : (k.store.lookup env s).isSome :=
    Store.isSome_lookup_of_parent? hk.rooted hp (hk.named r f s hr hs)
  refine ⟨⟨result, hresults, hcomes⟩, hfit.callDepth,
    (fit_act hx (fit_of p probe limits acts) a).callDepth, ?_, ?_, ?_, ?_, ?_⟩
  · intro β y k hy
    obtain ⟨hkeeps, hk, -⟩ := hy.sound hsound hcalls
    exact Machine.retains_of_keeps hkeeps hk
  · intro β t k ht
    have hk := ht.fit hsound hcalls
    obtain ⟨out, hout⟩ := ht.comes hcomes
    refine ⟨⟨out, hout, fun _ => hout.unique⟩, fun r n hn => ?_, fun γ y l hy => ?_⟩
    · have hfit := Task.fit_of_comes hk hn
      exact ⟨hfit.callDepth, Machine.retains_of_keeps hfit.keeps (hfit.callDepth.trans_le hk.calls)⟩
    · obtain ⟨hkeeps, hl, -⟩ := hy.sound (t.within.sound k hk) hk.calls
      exact Machine.retains_of_keeps hkeeps hl
  · exact fun f env k r s hbody hr hp hs => hnamed (hbody.fit hsound hcalls) hr hp hs
  · intro r f args pos k hcall hr hsteps hdepth
    obtain ⟨env, l, hbody, hl, hp, hlcalls⟩ := Asks.body (c := c) hr hsteps hdepth args pos
    have hk := hcall.fit hsound hcalls
    exact ⟨env, l, hbody, hl, hp, hlcalls,
      fun s hs => hnamed (hbody.fit ((Task.within _).sound k hk) hk.calls) hl hp hs⟩
  · exact fun β t k => (t.describes (n := c.limits.calls) k).leads.callDepth

end Play

end

open Builder in
/-- `function f() { return f(); }` -/
@[irreducible] def bottomless : Program :=
  ((do
    let p ← getPos
    let f ← declareLocal "f"
    let (_, decl) ← functionDecl "f" [] fun _ => return [.ret p (some (.call p (.var p f) []))]
    Builder.push decl : StateM Builder Unit).run (.start "bottomless.js")).2.program

def bottomlessPlay : Play := .of bottomless none ⟨60, 4⟩ [.run, .call "f" []]

theorem bottomless_evaluated :
    bottomlessPlay.results = [.ok .undefined, .error (.fault (.callDepth 4))] ∧
      bottomlessPlay.session.global "f" = some (.function ⟨0⟩) ∧
      ((bottomlessPlay.session.machine.store.closure? ⟨0⟩).bind (·.func.name)).isSome ∧
      bottomlessPlay.session.machine.steps < 60 := by decide +kernel

/-- After a call that nested too deep, the next one finds the name of the function bound again. -/
theorem Play.bookkeeping_bottomless :
    let m := bottomlessPlay.session.machine
    let c : Setting := ⟨bottomless.table, none, ⟨60, 4⟩⟩
    ∃ f s env l, m.store.closure? ⟨0⟩ = some f ∧ f.func.name = some s ∧
      Asks c (Task.code c (.call (.function ⟨0⟩) [] bottomless.code.pos)) m
        (.execAll f.func.body.stmts env) l ∧
      l.callDepth = 1 ∧ (l.store.lookup env s).isSome := by
  intro m c
  obtain ⟨-, hglobal, hname, hsteps⟩ := bottomless_evaluated
  obtain ⟨-, hdepth, -, -, -, -, hbody, -⟩ :=
    Play.bookkeeping bottomless none ⟨60, 4⟩ [.run, .call "f" []] (.call "f" [])
  obtain ⟨s, hs⟩ := Option.isSome_iff_exists.1 hname
  obtain ⟨f, hf, hs⟩ := Option.bind_eq_some_iff.1 hs
  have hcall : Asks c (bottomlessPlay.code (.call "f" [])) m
      (.call (.function ⟨0⟩) [] bottomless.code.pos) m := by
    have hcode : bottomlessPlay.code (.call "f" []) =
        Code.report c (request (.call (.function ⟨0⟩) [] bottomless.code.pos)) := by
      have hsupplied : bottomlessPlay.supplied (.call "f" []) = ([], bottomlessPlay.session) := rfl
      have hidle := Play.idle_of bottomless none ⟨60, 4⟩ [.run, .call "f" []]
      have hcallable : (Value.function ⟨0⟩).isCallable := rfl
      simp only [Play.code, hsupplied, hglobal, if_pos hcallable]
      rw [bottomlessPlay, hidle.setting, hidle.program]
    rw [hcode]
    exact (Asks.request _ m).attempt.bind _
  obtain ⟨env, l, hasks, -, -, hl, hbound⟩ :=
    hbody ⟨0⟩ f [] bottomless.code.pos m hcall hf hsteps (hdepth.trans_lt (by decide))
  exact ⟨f, s, env, l, hf, hs, hasks, hl.trans (congrArg (· + 1) hdepth), hbound s hs⟩

end FrameLedger
