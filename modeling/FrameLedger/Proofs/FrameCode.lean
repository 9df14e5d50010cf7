import FrameLedger.Proofs.Activation

/-!
# The code of a frame under watch

What a function inserts to keep its frame respects the regime of the watch: popping takes the depth
down one from the frame's index, resetting takes it to the index itself. `governs_framed` puts this
together for functions that keep a frame, `governs_plain` for code that keeps none.
-/

namespace FrameLedger

open Eval

namespace Watch

variable {W : Watch} {own : Option Own} {o : Own} {B env : FrameId} {D E S : Float → Prop}
  {I : (Float → Prop) → Nat → Value → Prop} {m n : Machine} {φ : Stage} {c : Setting}
  {call : Caller} {p : Position}

/-! ## The depth -/

theorem State.owner?_depth (x : W.State own B D I m) (henv : m.store.Has env) :
    m.store.owner? env W.layout.vars.depth = some Store.globals := by
  obtain ⟨d, -, -, -, hs⟩ := x.stacked
  exact x.fits.owner?_var (.inr (.inl rfl)) (by simp [hs.depth]) henv

theorem State.setDepth (x : W.State own B D I m) (hK : Site.Sound ⟨W.layout, own⟩)
    (hI : Lasts I) {d : Float} (hD : E d) (hd : W.Climbs (W.passed m.trace.val) m.steps d) :
    W.State own B E I
      (m.setStore (m.store.define Store.globals W.layout.vars.depth (.number d))) := by
  obtain ⟨d', -, -, -, hs⟩ := x.stacked
  refine x.setStore (x.fits.defineVar (.inr (.inl rfl)) _)
    (x.agrees.mono fun _ hy => passed_setStore hy _)
    ⟨d, hD, hd.mono (fun _ hy => passed_setStore hy _) (Nat.le_refl _), hs.setDepth hK.toSound d⟩
      fun i hi => ?_
  obtain ⟨w, hw, hIw⟩ := x.index i hi
  refine ⟨w, ?_, hI hIw (fun _ hy => passed_setStore hy _) (Nat.le_refl _)⟩
  rw [Store.local?_define_of_ne _ _ _ _ fun he => (hK.own_fresh hi (.inl rfl)).2 (.inr (.inl he)),
    hw]

theorem grows_setDepth (hK : Site.Sound ⟨W.layout, own⟩) (h : Store) (v : Value) :
    h.Grows ⟨W.layout, own⟩ B (h.define Store.globals W.layout.vars.depth v) :=
  Store.grows_defineVar (.inr (.inl rfl)) v fun _ _ ho ht => (hK.own_fresh ho (.inr (.inr ht))).2

/-- Popping takes the depth down one from the index. -/
theorem State.pop (x : W.State (some o) B D W.Pushed m) (hK : Site.Sound ⟨W.layout, some o⟩)
    (hi : m.store.Inside ⟨W.layout, some o⟩ B env) (c : Setting) (call : Caller)
    (p : Position) : ∃ v h,
      ((popCode W.layout.vars o.index p).eval c call env).go m = (.ok v, m.setStore h) ∧
      W.State (some o) B (W.layout.Level W.depth) W.Pushed (m.setStore h) ∧
      m.store.Grows ⟨W.layout, some o⟩ B h ∧ ∀ s, s ≠ W.layout.vars.depth →
        h.local? B s = m.store.local? B s := by
  obtain ⟨w, hw, d, rfl, hd⟩ := x.lookup_index rfl hi
  have hgo := go_popCode c call p hw (x.owner?_depth hi.has)
  rw [Value.toNumber_number] at hgo
  exact ⟨_, _, hgo, x.setDepth hK lasts_pushed hd.1.again (hd.climbs.around hd.2.2.1),
    grows_setDepth hK _ _, fun s hs => Store.local?_define_of_ne _ _ _ _ hs⟩

/-- Resetting takes the depth to the index of the frame. -/
theorem keeps_reset (hK : Site.Sound ⟨W.layout, some o⟩)
    (hm : (W.regime (some o) B .running).steady m) (hi : m.store.Inside ⟨W.layout, some o⟩ B env) :
    (W.regime (some o) B .running).Keeps
      ((resetCode W.layout.vars o.index p).exec c call none env) m fun flow _ => flow = .next := by
  obtain ⟨w, hw, d, rfl, hd⟩ := State.lookup_index hm rfl hi
  have hgo := go_resetCode c call p none hw (State.owner?_depth hm hi.has)
  have hnext := State.setDepth hm hK lasts_indexAt (E := fun _ => True) trivial hd.climbs_succ
  exact .of_ok hgo (grows_setDepth hK _ _) hnext rfl

/-! ## The other variables of a frame -/

theorem State.defineOwn (x : W.State (some o) B D (W.indexAt φ) m)
    (hK : Site.Sound ⟨W.layout, some o⟩) {s : SymbolId} (hs : o.Uses s) (hne : s ≠ o.index)
    {v : Value} (hv : m.store.Clear W.guarded v) :
    W.State (some o) B D (W.indexAt φ) (m.setStore (m.store.define B s v)) := by
  have hvars := (hK.own_fresh rfl hs).2
  refine x.setStore_same lasts_indexAt (x.fits.define B hvars hv) x.agrees
    (fun _ hst => hst.define hvars B v) fun i hi => ?_
  obtain rfl := Option.some.inj hi
  rw [Store.local?_define_of_ne _ _ _ _ (Ne.symm hne)]

/-- Another frame than that of the function. -/
theorem State.defineElsewhere (x : W.State own B D (W.indexAt φ) m) {f : FrameId} (hf : f ≠ B)
    {s : SymbolId} (hs : ¬ W.layout.vars.Uses s) {v : Value} (hv : m.store.Clear W.guarded v) :
    W.State own B D (W.indexAt φ) (m.setStore (m.store.define f s v)) := by
  refine x.setStore_same lasts_indexAt (x.fits.define f hs hv) x.agrees
    (fun _ hst => hst.define hs f v) fun i hi => ?_
  rw [Store.local?_define, if_neg fun he => hf he.1.symm]

theorem State.owner?_own (x : W.State (some o) B D I m)
    (hi : m.store.Inside ⟨W.layout, some o⟩ B env) {s : SymbolId} (hs : o.Uses s) :
    m.store.owner? env s = some B :=
  hi.owner? x.fits.toRooted rfl hs

theorem State.lookup_own (x : W.State (some o) B D I m) (hK : Site.Sound ⟨W.layout, some o⟩)
    (hi : m.store.Inside ⟨W.layout, some o⟩ B env) {s : SymbolId} (hs : o.Uses s) :
    ∃ v, m.store.lookup env s = some v ∧ m.store.Clear W.guarded v := by
  have howner := x.owner?_own hi hs
  obtain ⟨v, hv⟩ := Option.isSome_iff_exists.1 (Store.isSome_of_owner? s howner)
  rw [← Store.lookup_eq_of_owner? howner] at hv
  exact ⟨v, hv, x.fits.lookup_clear (hK.own_fresh rfl hs).2 hv⟩

/-- A result is put aside. -/
theorem keeps_setTemp (hK : Site.Sound ⟨W.layout, some o⟩) {temp : SymbolId}
    (htemp : o.temp = some temp) {e : Expr}
    (he : (W.regime (some o) B φ).Keeps (e.eval c call env) m (W.regime (some o) B φ).Clear)
    (hi : m.store.Inside ⟨W.layout, some o⟩ B env) :
    (W.regime (some o) B φ).Keeps ((Expr.assign p (.var p temp) e).eval c call env) m fun _ _ =>
      True := by
  obtain ⟨declared, hapart⟩ := hK.apart o rfl
  have huses : o.Uses temp := .inr (.inl htemp)
  simp only [Expr.assign, Expr.eval, Expr.reference, pure_bind, write]
  refine he.bind fun v n hg hn hv => ?_
  have hi' := hi.mono hg fun _ _ ho hu => hK.own_fresh ho hu
  have hbind : (W.regime (some o) B φ).Keeps (bindIn env Store.globals temp v) n fun _ _ => True :=
    .of_ok (go_bindIn Store.globals v (State.owner?_own hn hi' huses))
      (Store.grows_defineOwn rfl huses v fun hf => absurd hf (hapart.temp_not_mem temp htemp))
      (State.defineOwn hn hK huses (by rintro rfl; exact hapart.temp_ne htemp) hv) trivial
  exact hbind.bind fun _ k _ hk _ => .pure hk trivial

theorem keeps_setFlag (hK : Site.Sound ⟨W.layout, some o⟩) {flag : SymbolId}
    (hflag : flag ∈ o.flags) (hm : (W.regime (some o) B φ).steady m)
    (hi : m.store.Inside ⟨W.layout, some o⟩ B env) :
    (W.regime (some o) B φ).Keeps ((Expr.assign p (.var p flag) (.bool p true)).eval c call env) m
      fun _ n => n.store.local? B flag = some (.bool true) := by
  obtain ⟨declared, hapart⟩ := hK.apart o rfl
  have huses : o.Uses flag := .inr (.inr hflag)
  refine .of_ok
    (go_assign_var c call p (go_eval_literal c call p (.bool true)) (State.owner?_own hm hi huses))
    (Store.grows_defineOwn rfl huses _ fun _ => rfl) (State.defineOwn hm hK huses ?_ trivial)
    (Store.local?_define_self _ _ _ _ hi.has_body)
  rintro rfl
  exact hapart.index_not_mem hflag

/-! ## Returns -/

/-- The watch for what is kept together in one event, where the depths `S` have been passed. -/
def fresh (W : Watch) (S : Float → Prop) : Watch := { W with known := S, past := [] }

theorem State.fresh (x : W.State own B D (W.indexAt φ) m) :
    (W.fresh (W.passed m.trace.val)).State own B D (W.indexAt φ) { m with trace := .of [] } := by
  refine ⟨x.fits, fun hc => x.agrees.mono (fun _ => .inl) hc, ?_, fun o ho => ?_,
    ⟨[], by simp [Watch.fresh], by simp⟩⟩
  · obtain ⟨d, hD, hp, hd, hs⟩ := x.stacked
    exact ⟨d, hD, .inl hp, hd.mono (fun _ => .inl) (Nat.le_refl _), hs⟩
  · obtain ⟨w, hw, hI⟩ := x.index o ho
    exact ⟨w, hw, lasts_indexAt hI (fun _ => .inl) (Nat.le_refl _)⟩

theorem State.of_fresh (x : W.State own B D I m) {n' : Machine}
    (y : (W.fresh (W.passed m.trace.val)).State own B E (W.indexAt φ) n)
    (ht : n'.trace.val = m.trace.val ++ [.result n.trace.val]) (hs : n'.store = n.store)
    (hsteps : n.steps ≤ n'.steps) : W.State own B E (W.indexAt φ) n' := by
  have hmono (z : Float) (hz : (W.fresh (W.passed m.trace.val)).passed n.trace.val z) :
      W.passed n'.trace.val z := by
    rw [ht]
    rcases hz with hz | hz
    · exact passed_append hz _
    · exact .inr (Attains.append_right (.within (e := .result n.trace.val) hz) _)
  obtain ⟨es, hes, hall⟩ := y.events
  replace hes : n.trace.val = es := hes
  refine ⟨hs ▸ y.fits, fun hc => hs ▸ y.agrees.mono hmono hc, ?_, fun o ho => ?_,
    x.events_append ht ?_⟩
  · obtain ⟨d, hD, hp, hd, hst⟩ := y.stacked
    exact ⟨d, hD, hmono d hp, hd.mono hmono hsteps, hs ▸ hst⟩
  · obtain ⟨w, hw, hI⟩ := y.index o ho
    exact ⟨w, hs ▸ hw, lasts_indexAt hI hmono hsteps⟩
  · rw [List.forall_mem_singleton, hes]
    exact allows_result fun e he => Allows.mono (hall e he) hmono

/-- The result of a `return` is computed under the same watch. -/
theorem keeps_result {x : Eval Value} {Q : Value → Store → Prop} (hm : W.State own B D I m)
    (hx : ((W.fresh (W.passed m.trace.val)).regime own B φ).Keeps x { m with trace := .of [] }
      fun v n => Q v n.store) :
    (W.regime own B φ).Keeps (together (fun _ inside _ _ => .result inside) x) m fun v n =>
      Q v n.store := by
  rw [Regime.Keeps, Regime.Ends, go_together]
  obtain ⟨hg, hr⟩ := hx
  refine ⟨hg, ?_⟩
  rcases hgo : x.go { m with trace := .of [] } with ⟨(⟨v, p⟩ | e) | v, n⟩ <;> rw [hgo] at hr
  · exact ⟨hm.of_fresh hr.1 (by simp) rfl (Nat.le_refl _), hr.2⟩
  · exact hm.of_fresh hr (by simp) rfl (Nat.le_refl _)
  · exact ⟨hm.of_fresh hr.1 (by simp) rfl (Nat.le_refl _), hr.2⟩

/-- The frame is popped, then the other statements run. -/
theorem ends_pop (hK : Site.Sound ⟨W.layout, some o⟩)
    (hm : (W.regime (some o) B .running).steady m) (hi : m.store.Inside ⟨W.layout, some o⟩ B env)
    {rest : List Stmt} {Q : Flow → Machine → Prop}
    (hrest : ∀ n, (W.regime (some o) B .running).Grows m n →
      (W.regime (some o) B .leaving).steady n →
      (∀ s, s ≠ W.layout.vars.depth → n.store.local? B s = m.store.local? B s) →
      (W.regime (some o) B .running).Ends (execStmts c call rest env) n Q) :
    (W.regime (some o) B .running).Ends
      (execStmts c call (.ofExpr (popCode W.layout.vars o.index p) :: rest) env) m Q := by
  have hJ : (W.regime (some o) B .running).Lawful := lawful hK
  refine (hJ.tick hm c).bind_ends fun _ n hg hn hs => ?_
  have hi' : n.store.Inside ⟨W.layout, some o⟩ B env := hs ▸ hi
  obtain ⟨v, h, hgo, hst, hg', hlocal⟩ := State.pop hn hK hi' c call p
  have hpop : (W.regime (some o) B .running).Ends
      ((Stmt.ofExpr (popCode W.layout.vars o.index p)).exec c call none env) n
      fun flow k => flow = .next ∧ k = n.setStore h := by
    refine .of_ok (n := n.setStore h) ?_ hg' ⟨rfl, rfl⟩
    rw [exec_ofExpr c call none rfl, go_bind, hgo]
    rfl
  refine hpop.bind fun flow k hg'' hk => ?_
  obtain ⟨rfl, rfl⟩ := hk
  exact hrest _ (hg.trans hg'') hst fun s hs' => (hlocal s hs').trans (by rw [hs])

/-- The result of a `return` where the frame has been popped. -/
theorem ends_returnPopped (hK : Site.Sound ⟨W.layout, some o⟩) {r : Place} (hr : r.exit = none)
    (hm : (W.regime (some o) B .leaving).steady m) {e : Option Expr}
    (he : ∀ S m, ((W.fresh S).regime (some o) B .leaving).steady m →
      m.store.Inside ⟨W.layout, some o⟩ B env →
      ((W.fresh S).regime (some o) B .leaving).Keeps (evalOptional c call e env) m
        ((W.fresh S).regime (some o) B .leaving).Clear)
    (hi : m.store.Inside ⟨W.layout, some o⟩ B env) :
    (W.regime (some o) B .running).Ends (execStmts c call [.ret p e] env) m
      ((W.regime (some o) B .running).Leaves r) := by
  have hJ : (W.regime (some o) B .leaving).Lawful := lawful hK
  refine (hJ.tick hm c).bind_ends fun _ n hg hn hs => ?_
  have hresult :=
    keeps_result (Q := fun v h => h.Clear W.guarded v) hn (he _ _ (State.fresh hn) (hs ▸ hi))
  have hret : (W.regime (some o) B .leaving).Ends ((Stmt.ret p e).exec c call none env) n
      fun flow k =>
      ∃ v, flow = .returns v ∧ (W.regime (some o) B .leaving).steady k ∧
        k.store.Clear W.guarded v :=
    hresult.bind_ends fun v k _ hk hv => .pure ⟨v, rfl, hk, hv⟩
  refine hret.bind fun flow k _ hk => ?_
  obtain ⟨v, rfl, hk, hv⟩ := hk
  refine .pure ⟨?_, hv⟩
  rw [hr]
  exact hk

/-- A `return` pops the frame, or sets the flag of the `finally` block ahead. -/
theorem ends_return (hK : Site.Sound ⟨W.layout, some o⟩) (hcall : call.Watched W.layout W.terms)
    {e e' : Option Expr} (he : exprFramed? ⟨W.layout, some o⟩ e e') {r : Place} {ss : List Stmt}
    (hret : Site.Returned ⟨W.layout, some o⟩ r p e' ss) (label : Option String)
    (hm : (W.regime (some o) B .running).steady m) (hi : m.store.Inside ⟨W.layout, some o⟩ B env) :
    (W.regime (some o) B .running).Ends ((oneStmt p ss).exec c call label env) m
      ((W.regime (some o) B .running).Leaves r) := by
  have hJ : (W.regime (some o) B .running).Serves c call := serves hK hcall
  obtain ⟨declared, hapart⟩ := hK.apart o rfl
  unfold Site.Returned at hret
  split at hret
  · next ho => cases ho
  next o' ho =>
  obtain rfl := Option.some.inj ho
  split at hret
  · next hr =>
    rcases hret with ⟨e₁, temp, rfl, htemp, rfl⟩ | ⟨-, rfl⟩
    · refine (hJ.tick hm c).bind_ends fun _ n hg hn _ => ?_
      have hi' := hJ.inside_mono hi hg
      have hset := keeps_ofExpr c call none rfl
        (keeps_setTemp (p := p) hK htemp (hJ.evalOptional he hn hi') hi')
      refine hset.bind_ends fun flow k hg' hk hflow => ?_
      obtain rfl := hflow.1
      have hi'' := hJ.inside_mono hi' hg'
      refine ends_pop hK hk hi'' fun l hg'' hl _ => ?_
      refine ends_returnPopped hK hr hl (fun _ j hj hi => ?_) (hJ.inside_mono hi'' hg'')
      obtain ⟨v, hv, hclear⟩ := State.lookup_own hj hK hi (.inr (.inl htemp))
      exact .of_ok (go_eval_var c call p hv) (.refl _ j) hj hclear
    · refine ends_pop hK hm hi fun n hg hn _ => ?_
      exact ends_returnPopped hK hr hn
        (fun S k hk hi => (serves (W := W.fresh S) hK hcall).evalOptional he hk hi)
          (hJ.inside_mono hi hg)
  · exact hret.elim
  · next flag hr =>
    obtain ⟨hflag, hret⟩ := hret
    have hleft {v : Value} {n : Machine} (hn : (W.regime (some o) B .running).steady n)
        (hv : n.store.Clear W.guarded v) (hset : n.store.local? B flag = some (.bool true)) :
        (W.regime (some o) B .running).Leaves r (.returns v) n := by
      refine ⟨?_, hv⟩
      rw [hr]
      exact ⟨hn, hflag, hset⟩
    rcases hret with ⟨e₁, rfl, rfl⟩ | ⟨rfl, rfl⟩
    · have hF : ((W.fresh (W.passed m.trace.val)).regime (some o) B .running).Serves c call :=
        serves hK hcall
      have heval : ((W.fresh (W.passed m.trace.val)).regime (some o) B .running).Keeps
          (evalOptional c call (some (.comma p (.assign p (.var p flag) (.bool p true)) e₁)) env)
          { m with trace := .of [] } fun v n =>
            n.store.Clear W.guarded v ∧ n.store.local? B flag = some (.bool true) := by
        have hm' : ((W.fresh (W.passed m.trace.val)).regime (some o) B .running).steady
            { m with trace := .of [] } := State.fresh hm
        refine ((keeps_setFlag (W := W.fresh _) (p := p) hK hflag hm' hi).map
          (R := fun _ n => n.store.local? B flag = some (.bool true)) fun _ _ _ h => h).bind
          fun _ n hg hn hset => ?_
        refine (hF.evalOptional he hn (hF.inside_mono hi hg)).mono fun v k hg' _ hv => ⟨hv, ?_⟩
        exact hg'.flag o flag rfl hflag hset
      exact (keeps_result
        (Q := fun v h => h.Clear W.guarded v ∧ h.local? B flag = some (.bool true))
        hm heval).bind_ends fun v n _ hn hv => .pure (hleft hn hv.1 hv.2)
    · refine (hJ.tick hm c).bind_ends fun _ n hg hn _ => ?_
      have hi' := hJ.inside_mono hi hg
      refine (keeps_ofExpr c call none rfl (keeps_setFlag (p := p) hK hflag hn hi')).bind_ends
        fun flow k hg' hk hflow => ?_
      obtain ⟨rfl, -, hset⟩ := hflow
      refine (hJ.tick hk c).bind_ends fun _ l _ hl hs => ?_
      have hnone : ((W.fresh (W.passed l.trace.val)).regime (some o) B .running).Keeps
          (evalOptional c call none env)
          { l with trace := .of [] } fun v n =>
            n.store.Clear W.guarded v ∧ n.store.local? B flag = some (.bool true) :=
        .pure (State.fresh hl) ⟨trivial, hs ▸ hset⟩
      refine ((keeps_result
        (Q := fun v h => h.Clear W.guarded v ∧ h.local? B flag = some (.bool true))
        hl hnone).bind_ends (R := (W.regime (some o) B .running).Leaves r)
        fun v n _ hn hv => .pure (hleft hn hv.1 hv.2)).bind fun flow n _ hf => ?_
      cases flow <;> exact .pure hf

/-! ## Catching and cleaning up -/

/-- A `finally` block pops the frame if the flag is set. -/
theorem keeps_guard (hK : Site.Sound ⟨W.layout, some o⟩) {s : SymbolId}
    (hs : s ∈ o.flags) (hm : (W.regime (some o) B .running).steady m)
    (hi : m.store.Inside ⟨W.layout, some o⟩ B env) :
    (W.regime (some o) B .running).Keeps
      ((Stmt.ofExpr (.binary p .and (.var p s) (popCode W.layout.vars o.index p))).exec
        c call none env) m
      fun flow n => flow = .next ∧ (m.store.local? B s = some (.bool true) →
        (W.regime (some o) B .running).left none n) := by
  have howner := State.owner?_own hm hi (.inr (.inr hs))
  obtain ⟨v, hv⟩ := Option.isSome_iff_exists.1 (Store.isSome_of_owner? s howner)
  have hlookup := (Store.lookup_eq_of_owner? howner).trans hv
  have heval : (W.regime (some o) B .running).Keeps
      ((Expr.binary p .and (.var p s) (popCode W.layout.vars o.index p)).eval c call env) m
        fun _ n =>
        m.store.local? B s = some (.bool true) → (W.regime (some o) B .running).left none n := by
    rw [Expr.eval]
    refine (Regime.Keeps.of_ok (Q := fun w n => w = v ∧ n = m) (go_eval_var c call p hlookup)
      (.refl _ m) hm ⟨rfl, rfl⟩).bind fun w n _ hn hw => ?_
    obtain ⟨rfl, rfl⟩ := hw
    split
    · obtain ⟨u, h, hgo, hst, hg, -⟩ := State.pop hn hK hi c call p
      exact .of_ok hgo hg (hst.mono_depth fun _ _ => trivial) fun _ => hst
    · next hfalse =>
      refine .pure hn fun htrue => ?_
      obtain rfl := Option.some.inj (hv.symm.trans htrue)
      exact absurd rfl hfalse
  exact (keeps_ofExpr c call none rfl heval).mono fun _ _ _ _ h => ⟨h.1, h.2.elim fun _ h => h⟩

/-- A machine that runs a catch clause in the frame `inner`, which was made after `m`. -/
structure Catching (W : Watch) (o : Own) (B inner : FrameId) (e : SymbolId) (m n : Machine) :
    Prop where
  state : (W.regime (some o) B .running).steady n
  inside : n.store.Inside ⟨W.layout, some o⟩ B inner
  bound : (n.store.local? inner e).isSome
  grows : (W.regime (some o) B .running).Grows m n

namespace Catching

variable {inner : FrameId} {e : SymbolId} {α : Type} {x : Eval α} {P : α → Machine → Prop}

theorem mono {k : Machine} (hn : Catching W o B inner e m n) (hK : Site.Sound ⟨W.layout, some o⟩)
    (hg : (W.regime (some o) B .running).Grows n k) (hk : (W.regime (some o) B .running).steady k) :
    Catching W o B inner e m k :=
  ⟨hk, hn.inside.mono hg fun _ _ ho hu => hK.own_fresh ho hu, hg.bound _ _ hn.bound,
    hn.grows.trans hg⟩

theorem ends (hn : Catching W o B inner e m n) (hK : Site.Sound ⟨W.layout, some o⟩)
    (hx : (W.regime (some o) B .running).Keeps x n P) :
    (W.regime (some o) B .running).EndsFrom m x n fun a k => Catching W o B inner e m k ∧ P a k :=
  (Regime.Ends.mono hx fun _ _ hg hk => ⟨hn.mono hK hg hk.1, hk.2⟩).since hn.grows

/-- The parameter of the clause gets another value. -/
theorem define (hn : Catching W o B inner e m n) (hnew : ¬ m.store.Has inner) (hne : inner ≠ B)
    (hvars : ¬ W.layout.vars.Uses e) (huses : ¬ o.Uses e) {v : Value}
    (hv : n.store.Clear W.guarded v) :
    Catching W o B inner e m (n.setStore (n.store.define inner e v)) where
  state := State.defineElsewhere hn.state hne hvars hv
  inside := hn.inside.define (fun _ ho => by obtain rfl := Option.some.inj ho; exact huses) v
  bound := by
    rw [Machine.setStore_store, Store.local?_define_self _ _ _ _ hn.inside.has]
    rfl
  grows := Store.Grows.define_new hn.grows hnew e v

/-- The parameter is found in the frame of the clause. -/
theorem lookup (hn : Catching W o B inner e m n) (hvars : ¬ W.layout.vars.Uses e) :
    ∃ v, n.store.lookup inner e = some v ∧ n.store.Clear W.guarded v := by
  obtain ⟨v, hv⟩ := Option.isSome_iff_exists.1 hn.bound
  exact ⟨v, Store.lookup_of_local? hv, hn.state.fits.binding inner e v hv hvars⟩

end Catching

/-- The wrapper is called with what was caught. -/
theorem keeps_callWrap (hK : Site.Sound ⟨W.layout, some o⟩) (hcall : call.Watched W.layout W.terms)
    {e : SymbolId} {inner : FrameId} (hvars : ¬ W.layout.vars.Uses e)
    (hn : Catching W o B inner e m n) :
    (W.regime (some o) B .running).Keeps
      ((Expr.call p (.var p W.layout.wrap) [.var p e]).eval c call inner) n
      (W.regime (some o) B .running).Clear := by
  have hJ : (W.regime (some o) B .running).Serves c call := serves hK hcall
  rw [Expr.eval]
  refine (hJ.readVar hn.state c p inner hK.wrap_lt).bind fun callee k hg hk hcallee => ?_
  obtain ⟨v, hv, hclear⟩ := (hn.mono hK hg hk).lookup hvars
  have hargs : (W.regime (some o) B .running).Keeps (evalAll c call [.var p e] inner) k
      fun args l => ∀ w ∈ args, (W.regime (some o) B .running).Clear w l := by
    refine .of_ok (a := [v]) (n := k) ?_ (.refl _ k) hk (List.forall_mem_singleton.2 hclear)
    simp only [evalAll, go_bind, go_eval_var c call p hv, go_pure]
  refine hargs.bind fun args l hg' hl hargs => ?_
  split
  · next hcallable => exact hJ.calls l callee args p hl (hcallee.mono hg') hargs hcallable
  · exact (hJ.ofDangling hl _).bind fun _ _ _ hi _ => hJ.raise hi c p _ _

/-- The clause that was put in wraps what it caught, resets the depth and throws it on. -/
theorem ends_rethrow (hK : Site.Sound ⟨W.layout, some o⟩) (hcall : call.Watched W.layout W.terms)
    {r : Place} {e : SymbolId} (sc : ScopeId) {inner : FrameId} (hnew : ¬ m.store.Has inner)
    (hne : inner ≠ B) (hvars : ¬ W.layout.vars.Uses e) (huses : ¬ o.Uses e)
    (hn : Catching W o B inner e m n) :
    (W.regime (some o) B .running).EndsFrom m
      (execStmts c call (rethrowCode W.layout.vars W.layout.wrap o.index e sc p).body.stmts inner) n
      ((W.regime (some o) B .running).Leaves r) := by
  have hJ : (W.regime (some o) B .running).Serves c call := serves hK hcall
  have hwrap (n : Machine)
      (hn : Catching W o B inner e m n) : (W.regime (some o) B .running).EndsFrom m
      ((Expr.assign p (.var p e) (.call p (.var p W.layout.wrap) [.var p e])).eval c call inner) n
      fun _ k => Catching W o B inner e m k := by
    rw [Expr.assign, Expr.eval]
    simp only [Expr.reference, pure_bind, write]
    refine (hn.ends hK (keeps_callWrap hK hcall hvars hn)).bind fun v k hk => ?_
    obtain ⟨hk, hv⟩ := hk
    refine (Regime.EndsFrom.of_ok (go_bindIn Store.globals v (Store.owner?_of_local? hk.bound)) ?_
      ?_).bind fun _ l (hl : Catching W o B inner e m l) => .of_ok (go_pure _ _) hl.grows hl
    · exact (hk.define hnew hne hvars huses hv).grows
    · exact hk.define hnew hne hvars huses hv
  refine (hn.ends hK (hJ.tick hn.state c)).bind fun _ n₁ hn₁ => ?_
  rw [exec_ofExpr c call none rfl, bind_assoc]
  refine (hwrap n₁ hn₁.1).bind fun _ n₂ hn₂ => ?_
  refine (hn₂.ends hK (hJ.tick hn₂.state c)).bind fun _ n₃ hn₃ => ?_
  refine (hn₃.1.ends hK (keeps_reset hK hn₃.1.state hn₃.1.inside)).bind fun flow n₄ hn₄ => ?_
  obtain ⟨hn₄, rfl⟩ := hn₄
  refine (hn₄.ends hK (hJ.tick hn₄.state c)).bind fun _ n₅ hn₅ => ?_
  replace hn₅ := hn₅.1
  obtain ⟨v, hv, hclear⟩ := hn₅.lookup hvars
  have hraise : (W.regime (some o) B .running).Ends
      ((Stmt.raise p (.var p e)).exec c call none inner) n₅
      ((W.regime (some o) B .running).Leaves r) :=
    (Regime.Keeps.of_ok (go_eval_var c call p hv) (.refl _ n₅) hn₅.state hclear).bind_ends
      fun _ _ _ hk hv => hJ.recordThrow_bind hk c hv p
  exact (hraise.bind fun flow k _ hf => by cases flow <;> exact .pure hf).since hn₅.grows

theorem ends_caught (hK : Site.Sound ⟨W.layout, some o⟩) (hcall : call.Watched W.layout W.terms)
    {r : Place} {e : SymbolId} {sc : ScopeId} (hvars : ¬ W.layout.vars.Uses e) (huses : ¬ o.Uses e)
    (hm : (W.regime (some o) B .running).unwinding m) (hi : m.store.Inside ⟨W.layout, some o⟩ B env)
    {v : Value} (hv : (W.regime (some o) B .running).Clear v m) :
    (W.regime (some o) B .running).Ends (do
      let inner ← onStore (·.newFrame env)
      modifyStore (·.define inner e v)
      execStmts c call (rethrowCode W.layout.vars W.layout.wrap o.index e sc p).body.stmts inner) m
      ((W.regime (some o) B .running).Leaves r) := by
  have hJ : (W.regime (some o) B .running).Lawful := lawful hK
  have hord := m.store.ordinary_newFrame W.layout W.guarded env
  have hmade := hJ.unwinding_ordinary m _ hm (.setStore hord (hm.fits.newFrame hi.has))
  have hnew := m.store.not_has_newFrame env
  have hne : (m.store.newFrame env).1 ≠ B := by
    rintro hB
    exact hnew (hB ▸ hi.has_body)
  have hgrows := Store.Grows.define_new (hK.grows hord B) hnew e v
  have hown (own : Own) (ho : some o = some own) : ¬ own.Uses e := by
    obtain rfl := Option.some.inj ho
    exact huses
  have hcatching : Catching W o B (m.store.newFrame env).1 e m
      ((m.setStore (m.store.newFrame env).2).setStore
      ((m.store.newFrame env).2.define (m.store.newFrame env).1 e v)) := {
    state := State.defineElsewhere hmade hne hvars hv
    inside := Store.Inside.newFrame hown v hi.has_body
      (hi.mono hgrows fun _ _ ho hu => hK.own_fresh ho hu)
    bound := by
      rw [Machine.setStore_store, Store.local?_define_self _ _ _ _
        ((Store.has_newFrame _ _).2 (.inr rfl))]
      rfl
    grows := hgrows }
  exact ends_rethrow hK hcall sc hnew hne hvars huses hcatching

/-! ## Statements -/

/-- The statements of a function that has pushed its frame respect the watch. -/
theorem governs_framed (hK : Site.Sound ⟨W.layout, some o⟩)
    (hcall : call.Watched W.layout W.terms) : (W.regime (some o) B .running).Governs c call where
  toServes := serves hK hcall
  left_steady x m hx hl := by
    match x, hx, hl with
    | some (some s), _, hl => exact hl.1
  left_mono x m n hx hl hg hn := by
    match x, hx, hl with
    | some (some s), _, ⟨_, hs, hset⟩ => exact ⟨hn, hs, hg.flag o s rfl hs hset⟩
  returns m r p e e' ss label env he hret hm hi := ends_return hK hcall he hret label hm hi
  resets m o' p env ho hm hi := by
    obtain rfl := Option.some.inj ho
    exact keeps_reset hK hm hi
  catches m r cs f cl ss env v _ _ hs hss hm hi _ :=
    ((serves hK hcall).stmts hs hss hm hi).mono fun flow _ _ h => by cases flow <;> exact h
  resumes _ _ _ _ hm := hm
  rethrows m o' r cs f e sc p env v ho _ _ hvars huses hm hi hv := by
    obtain rfl := Option.some.inj ho
    exact ends_caught hK hcall hvars huses hm hi hv
  guards m o' cs f s p env ho _ hs hm hi := by
    obtain rfl := Option.some.inj ho
    exact keeps_guard hK hs hm hi
  left_flag o' flag m ho hl := by
    obtain rfl := Option.some.inj ho
    match flag, hl with
    | some s, ⟨_, _, hset⟩ => exact ⟨s, rfl, hset⟩

/-- Code that keeps no frame respects the watch, as long as the depth may be anything above. -/
theorem governs_plain (hL : W.layout.Sound) (hcall : call.Watched W.layout W.terms) :
    (W.regime none B .running).Governs c call :=
  (serves (.plain hL) hcall).governs_plain rfl (fun _ _ _ _ => id) (fun _ _ => Iff.rfl)
    fun m p e e' label env he hm hi => by
      have hF : ((W.fresh (W.passed m.trace.val)).regime none B .running).Serves c call :=
        serves (.plain hL) hcall
      have hm' : ((W.fresh (W.passed m.trace.val)).regime none B .running).steady
          { m with trace := .of [] } := State.fresh hm
      exact (keeps_result (Q := fun v h => h.Clear W.guarded v) hm (hF.evalOptional he hm' hi)).bind
        fun v n _ hn hv => .pure hn ⟨v, rfl, hv⟩

end Watch

end FrameLedger
