import FrameLedger.Proofs.Budget

/-!
# What evaluation comes to

Evaluation within its bounds comes to what the recursion without bounds comes to (`Code.Describes`),
if calls do. The bound on loops is never what ends one: it has as many turns left as there are
steps, and every turn spends one (`Code.Describes.iterate`).
-/

namespace FrameLedger

open Eval Code

section

variable {α β : Type} {c : Setting} {n : Nat} {env : FrameId} {m k : Machine}

/-- A machine from which evaluation in this frame, with so many calls nested, ends. -/
structure Machine.Primed (c : Setting) (n : Nat) (env : FrameId) (m : Machine) : Prop where
  budget : m.steps ≤ c.limits.steps
  calls : c.limits.calls ≤ m.callDepth + n
  grounded : m.store.Grounded
  has : m.store.Has env

theorem Machine.Primed.next {r : Except Abrupt α} (hm : m.Primed c n env) (h : m.Leads c env (r, k))
    (hr : r ≠ c.outOfSteps) : k.Primed c n env where
  budget := h.budget hm.budget hr
  calls := h.callDepth ▸ hm.calls
  grounded := h.store.grounded hm.grounded hm.has
  has := hm.has.trans_le h.store.frames_le

/-- No array or object that stands in itself is turned into text on the way. -/
def Code.Writable (c : Setting) (x : Code α) (m : Machine) : Prop :=
  ∀ h v, Converts c x m h v → ¬ h.Cyclic v

/-- From this machine the computation keeps to its budget, and comes to what the code does. -/
structure Code.Describes (c : Setting) (n : Nat) (env : FrameId) (x : Code α) (y : Eval α)
    (m : Machine) : Prop where
  leads : m.Leads c env (y.go m)
  comes : m.Primed c n env → Comes c x m (y.go m)
  runs : m.Primed c n env → x.Writable c m → Runs c x m (y.go m)

namespace Code.Describes

variable {x : Code α} {y : Eval α}

theorem ret {r : Except Abrupt α} (h : y.go m = (r, m)) : Describes c n env (.ret r) y m := by
  refine ⟨?_, fun _ => ?_, fun _ _ => ?_⟩ <;> rw [h]
  · exact .same _ rfl rfl (.refl env _)
  · exact .ret r m
  · exact .ret r m

theorem pure (a : α) : Describes c n env (pure a) (pure a) m := ret rfl

theorem perform (hl : m.Leads c env (y.go m)) (vs : List Value) :
    Describes c n env (Code.act c vs y) y m where
  leads := hl
  comes _ := .perform (.ret _ _)
  runs hm hw := .perform hm.grounded (fun _ hv => ⟨_, Store.hasText_text (hw _ _ (.here hv))⟩)
    (.ret _ _)

theorem act (hy : y.Orderly c env) (vs : List Value) : Describes c n env (Code.act c vs y) y m :=
  perform (hy.leads m) vs

theorem of_has {inner : FrameId} (h : Describes c n inner x y m) (hinner : m.store.Has inner) :
    Describes c n env x y m where
  leads :=
    { h.leads with
      store := ⟨h.leads.store.frames_le, fun hm _ => h.leads.store.grounded hm hinner⟩ }
  comes hm := h.comes { hm with has := hinner }
  runs hm := h.runs { hm with has := hinner }

theorem request {t : Task α} (h : Describes c n env (t.code c) y m) :
    Describes c n env (request t) y m where
  leads := h.leads
  comes hm := .ask (h.comes hm) (.ret _ _)
  runs hm hw := .ask (h.runs hm fun _ _ hv => hw _ _ (.inside hv)) (.ret _ _)

theorem bind {f : α → Code β} {g : α → Eval β} (hx : Describes c n env x y m)
    (hf : ∀ a k, y.go m = (.ok a, k) → Describes c n env (f a) (g a) k) :
    Describes c n env (x >>= f) (y >>= g) m := by
  obtain ⟨hl, hc, hr⟩ := hx
  refine ⟨?_, fun hm => ?_, fun hm hw => ?_⟩
  · rw [go_bind]
    generalize y.go m = r at hl hf
    obtain ⟨e | a, k⟩ := r
    · exact hl.error
    · exact hl.trans nofun (hf a k rfl).leads
  · refine (hc hm).go_bind fun a k hk => ?_
    rw [hk] at hl
    exact (hf a k hk).comes (hm.next hl nofun)
  · have hr := hr hm fun h v hv => hw h v (hv.bind_left f)
    refine hr.go_bind fun a k hk => ?_
    rw [hk] at hl hr
    exact (hf a k hk).runs (hm.next hl nofun) fun h v hv => hw h v (.bind_right hr hv)

theorem map (hx : Describes c n env x y m) (f : α → β) :
    Describes c n env (x >>= fun a => Pure.pure (f a)) (f <$> y) m := by
  rw [← bind_pure_comp]
  exact hx.bind fun a k _ => .pure (f a)

theorem andThen {f : α → Code β} {g : α → Eval β} (hx : Describes c n env x y m)
    (hf : ∀ a k, Describes c n env (f a) (g a) k) : Describes c n env (x >>= f) (y >>= g) m :=
  hx.bind fun a k _ => hf a k

theorem discard_bind {z : Code β} {w : Eval β} (hx : Describes c n env x y m)
    (hz : ∀ k, Describes c n env z w k) :
    Describes c n env (x >>= fun _ => z) (discard y >>= fun _ => w) m := by
  have hdiscard : (discard y >>= fun _ => w) = y >>= fun _ => w := Eval.ext fun k => by
    simp only [go_bind, go_discard]
    rcases y.go k with ⟨_ | _, l⟩ <;> rfl
  rw [hdiscard]
  exact hx.andThen fun _ k => hz k

/-- What follows on an end that was observed, unless it was for want of steps, which ends all. -/
theorem attempt_bind {f : Except Abrupt α → Code β} {g : Except Abrupt α → Eval β}
    (hx : Describes c n env x y m) (hf : ∀ r k, r ≠ c.outOfSteps → Describes c n env (f r) (g r) k)
    (hstop : ∀ k, Runs c (f c.outOfSteps) k (c.outOfSteps, k) ∧
      (g c.outOfSteps).go k = (c.outOfSteps, k)) :
    Describes c n env (x.attempt >>= f) (observe y >>= g) m := by
  obtain ⟨hl, hc, hr⟩ := hx
  have hgo : (observe y >>= g).go m = (g (y.go m).1).go (y.go m).2 := by simp [go_bind]
  refine ⟨?_, fun hm => ?_, fun hm hw => ?_⟩
  · rw [hgo]
    generalize y.go m = r at hl
    obtain ⟨r, k⟩ := r
    by_cases h : r = c.outOfSteps
    · subst h
      dsimp only
      rw [(hstop k).2]
      exact hl.error
    · exact hl.trans h (hf r k h).leads
  · have hc := hc hm
    rw [hgo]
    generalize y.go m = r at hl hc
    obtain ⟨r, k⟩ := r
    refine hc.attempt.bind ?_
    by_cases h : r = c.outOfSteps
    · subst h
      dsimp only
      rw [(hstop k).2]
      exact (hstop k).1.comes
    · exact (hf r k h).comes (hm.next hl h)
  · have hr := hr hm fun h v hv => hw h v (hv.attempt.bind_left f)
    rw [hgo]
    generalize y.go m = r at hl hr
    obtain ⟨r, k⟩ := r
    refine hr.attempt.bind ?_
    by_cases h : r = c.outOfSteps
    · subst h
      dsimp only
      rw [(hstop k).2]
      exact (hstop k).1
    · exact (hf r k h).runs (hm.next hl h) fun h v hv => hw h v (.bind_right hr.attempt hv)

theorem together {e : Store → List Event → Except Abrupt α → Store → Event}
    (hx : Describes c n env x y { m with trace := .of [] }) :
    Describes c n env (Code.together c e x) (Eval.together e y) m := by
  obtain ⟨hl, hc, hr⟩ := hx
  have hprimed (hm : m.Primed c n env) : Machine.Primed c n env { m with trace := .of [] } :=
    ⟨hm.budget, hm.calls, hm.grounded, hm.has⟩
  refine ⟨?_, fun hm => ?_, fun hm hw => ?_⟩
  · rw [go_together]
    exact ⟨hl.steps_le, hl.budget, hl.callDepth, hl.store⟩
  · rw [go_together]
    exact (hc (hprimed hm)).together e
  · have hm₀ := hprimed hm
    have hinside := hr hm₀ fun h v hv => hw h v hv.together
    rw [go_together]
    exact hinside.together e hm.grounded (hl.store.grounded hm.grounded hm.has)

/-- Code in a frame of its own, one call deeper. -/
theorem nested {inner : FrameId}
    (hx : Describes c n inner x y { m with callDepth := m.callDepth + 1 })
    (hinner : m.store.Has inner) : Describes c (n + 1) env (Code.nested c x) (do
      modify fun m => { m with callDepth := m.callDepth + 1 }
      let outcome ← observe y
      modify fun m => { m with callDepth := m.callDepth - 1 }
      settle outcome) m := by
  obtain ⟨hl, hc, hr⟩ := hx
  have hdepth := hl.callDepth
  have hprimed (hm : m.Primed c (n + 1) env) :
      Machine.Primed c n inner { m with callDepth := m.callDepth + 1 } :=
    ⟨hm.budget, by have := hm.calls; dsimp only; omega, hm.grounded, hinner⟩
  refine ⟨?_, fun hm => ?_, fun hm hw => ?_⟩ <;>
    simp only [go_bind, go_modify, go_observe, go_settle]
  · refine ⟨hl.steps_le, hl.budget, ?_,
      ⟨hl.store.frames_le, fun hm _ => hl.store.grounded hm hinner⟩⟩
    exact (congrArg (· - 1) hdepth).trans (Nat.add_sub_cancel ..)
  · exact (hc (hprimed hm)).nested
  · have hm' := hprimed hm
    have hinside := hr hm' fun h v hv => hw h v hv.nested
    exact hinside.nested hm.grounded (hl.store.grounded hm.grounded hinner)

/-! ## Loops -/

theorem again {t : Task Flow} {turn : Eval (Option Flow)} {rest : Eval Flow}
    {x : Code (Option Flow)} (hx : Describes c n env x turn m)
    (hrest : ∀ k, Describes c n env (t.code c) rest k) :
    Describes c n env (Code.again t x) (turn >>= fun | none => rest | some flow => Pure.pure flow)
      m := by
  refine hx.andThen fun o k => ?_
  cases o with
  | none => exact (hrest k).request
  | some flow => exact .pure flow

/-- As many turns as there are steps left suffice, when every turn that is not the last spends
one. -/
theorem iterate {t : Task Flow} {turn : Eval (Option Flow)} {x : Code (Option Flow)}
    (ht : t.code c = Code.again t x) (hx : ∀ m, Describes c n env x turn m)
    (hspends : ∀ m k, turn.go m = (.ok none, k) → m.steps < k.steps) (fuel : Nat) :
    ∀ m : Machine, m.Leads c env ((iterate c turn fuel).go m) ∧
      (c.limits.steps < m.steps + fuel → m.Primed c n env →
        Comes c (t.code c) m ((iterate c turn fuel).go m)) ∧
      (c.limits.steps < m.steps + fuel → m.Primed c n env → (t.code c).Writable c m →
        Runs c (t.code c) m ((iterate c turn fuel).go m)) := by
  induction fuel with
  | zero =>
    refine fun m => ⟨.same _ rfl rfl (.refl env _), fun hlt hm => ?_, fun hlt hm => ?_⟩ <;>
    · have := hm.budget
      omega
  | succ fuel ih =>
    intro m
    obtain ⟨hl, hc, hr⟩ := hx m
    have hspends := hspends m
    rw [Eval.iterate, go_bind]
    refine ⟨?_, fun hlt hm => ?_, fun hlt hm hw => ?_⟩
    · generalize turn.go m = r at hl
      obtain ⟨e | _ | flow, k⟩ := r
      · exact hl.error
      · exact hl.trans nofun (ih k).1
      · exact hl.trans nofun (.same _ rfl rfl (.refl env _))
    · have hc := hc hm
      rw [ht]
      generalize turn.go m = r at hl hc hspends
      obtain ⟨e | _ | flow, k⟩ := r
      · exact hc.bind_error _
      · have hlt : c.limits.steps < k.steps + fuel := by
          have := hspends k rfl
          omega
        exact hc.bind (.ask ((ih k).2.1 hlt (hm.next hl nofun)) (.ret _ _))
      · exact hc.bind (.ret _ _)
    · rw [ht] at hw ⊢
      have hr := hr hm fun h v hv => hw h v (hv.bind_left _)
      generalize turn.go m = r at hl hr hspends
      obtain ⟨e | _ | flow, k⟩ := r
      · exact hr.bind_error _
      · have hlt : c.limits.steps < k.steps + fuel := by
          have := hspends k rfl
          omega
        refine hr.bind (.ask ((ih k).2.2 hlt (hm.next hl nofun) fun h v hv => ?_) (.ret _ _))
        exact hw h v (.bind_right hr (.inside hv))
      · exact hr.bind (.ret _ _)

theorem loop {t : Task Flow} {turn : Eval (Option Flow)} {x : Code (Option Flow)}
    (ht : t.code c = Code.again t x) (hx : ∀ m, Describes c n env x turn m)
    (hspends : ∀ m k, turn.go m = (.ok none, k) → m.steps < k.steps) :
    Describes c n env (t.code c) (loop c turn) m := by
  have hgo : (Eval.loop c turn).go m =
      (Eval.iterate c turn (c.limits.steps + 1 - m.steps)).go m := by
    simp [Eval.loop, go_bind]
  obtain ⟨hl, hc, hr⟩ := iterate ht hx hspends (c.limits.steps + 1 - m.steps) m
  refine ⟨hgo ▸ hl, fun hm => ?_, fun hm hw => ?_⟩ <;> rw [hgo]
  · exact hc (by have := hm.budget; omega) hm
  · exact hr (by have := hm.budget; omega) hm hw

theorem steps_lt_of_tick {y : Eval α} (hy : ∀ m, Describes c n env x y m) {r : Except Abrupt α}
    (h : (tick c >>= fun _ => y).go m = (r, k)) : m.steps < k.steps := by
  rw [go_bind, go_tick] at h
  by_cases hlt : c.limits.steps < m.steps + 1
  · rw [if_pos hlt] at h
    obtain ⟨-, rfl⟩ := Prod.mk.inj h
    exact Nat.lt_succ_self _
  · rw [if_neg hlt] at h
    have hle := (hy { m with steps := m.steps + 1 }).leads.steps_le
    rwa [show y.go { m with steps := m.steps + 1 } = (r, k) from h] at hle

theorem steps_lt_of_bind {f : α → Eval β} (hy : ∀ m, Describes c n env x y m) {b : β}
    (hf : ∀ a m k, (f a).go m = (.ok b, k) → m.steps < k.steps) (h : (y >>= f).go m = (.ok b, k)) :
    m.steps < k.steps := by
  obtain ⟨a, l, hl, hk⟩ := go_bind_ok h
  have := (hy m).leads.steps_le
  rw [hl] at this
  exact this.trans_lt (hf a l k hk)

end Code.Describes

/-! ## Expressions -/

/-- The code of a call describes what the caller does, whatever is called. -/
def Caller.Described (call : Caller) (c : Setting) (n : Nat) : Prop :=
  ∀ v args p env m, Describes c n env (Task.code c (.call v args p)) (call v args p) m

section

variable {call : Caller}

theorem describes_construct (hcall : call.Described c n) (p : Position) (e : Expr) (ctor : Value)
    (args : List Value) :
    Describes c n env (Code.construct c p e ctor args) (Eval.construct c call p e ctor args) m := by
  cases ctor with
  | native k => exact (Describes.act .tick _).andThen fun _ _ => .act (.makeError k args) _
  | function r =>
    refine (hcall _ args p env m).request.andThen fun v k => ?_
    have hnew : Describes c n env (Code.act c [] (onStore (·.newObject ⟨∅, some (.function r)⟩)))
        (onStore (·.newObject ⟨∅, some (.function r)⟩)) k :=
      .act (.onStore fun h => h.follows_newObject env _) _
    cases v with
    | object q => exact .pure _
    | array q => exact .pure _
    | _ => exact hnew
  | _ => exact (Describes.act (.ofDangling _) _).andThen fun _ _ => .act (.raise ..) _

theorem describes_update (p q : Position) (r : Reference) (amount : Float) :
    Describes c n env (Code.update c p q env r amount) (Eval.update c p q env r amount) m :=
  (Describes.act (.read ..) _).andThen fun _ _ =>
    (Describes.act (.write ..) _).andThen fun _ _ => .pure _

mutual

theorem Expr.describes (hcall : call.Described c n) : ∀ (e : Expr) (env : FrameId) (m : Machine),
    Describes c n env (Task.code c (.eval e env)) (e.eval c call env) m
  | .var p s, env, m => .act (.read ..) _
  | .bare p name, env, m => .act (.raiseUnbound ..) _
  | .member p q k, env, m =>
    (q.describes hcall env m).request.andThen fun _ _ => (Describes.act (.memberKey k) _).andThen
      fun _ _ => .act (.getProperty ..) _
  | .index p a i, env, m =>
    (a.describes hcall env m).request.andThen fun _ m => (i.describes hcall env m).request.andThen
      fun _ _ => (Describes.act (.text _) _).andThen fun _ _ => .act (.getProperty ..) _
  | .call p f as, env, m => by
    refine (f.describes hcall env m).request.andThen fun callee m => ?_
    refine (describes_evalAll hcall as env m).request.andThen fun args m => ?_
    split
    · exact (hcall callee args p env m).request
    · exact (Describes.act (.ofDangling _) _).andThen fun _ _ => .act (.raise ..) _
  | .new p f as, env, m =>
    (f.describes hcall env m).request.andThen fun ctor m =>
      (describes_evalAll hcall as env m).request.andThen
      fun args m => describes_construct hcall p f ctor args
  | .prefixed p op x, env, m => by
    have hx := fun m => (x.describes hcall env m).request
    have href := fun m => (x.describes_reference hcall env m).request
    cases op with
    | inc =>
      exact (href m).andThen fun r _ => (describes_update p x.pos r 1).andThen fun _ _ => .pure _
    | dec =>
      exact (href m).andThen fun r _ => (describes_update p x.pos r (-1)).andThen fun _ _ => .pure _
    | typeof =>
      simp only [Task.code, Expr.code, Expr.eval]
      cases x.symbol? with
      | some s => exact (Describes.act .store _).andThen fun _ _ => .pure _
      | none => exact (hx m).andThen fun _ _ => .pure _
    | delete =>
      have hdel : Describes c n env (do
          match ← Code.request (.refer x env) with
          | .property o k => Code.act c [] (deleteProperty o k)
          | .binding _ => pure ()
          return Value.bool true) (do
          match ← x.reference c call env with
          | .property o k => deleteProperty o k
          | .binding _ => pure ()
          return Value.bool true) m := by
        refine (href m).andThen fun r k => ?_
        cases r with
        | binding s => exact .pure _
        | property o k => exact (Describes.act (.deleteProperty o k) _).andThen fun _ _ => .pure _
      cases x with
      | var | bare => exact .pure _
      | member | index => exact hdel
      | _ => exact (hx m).discard_bind fun _ => .pure _
    | neg => exact (hx m).andThen fun _ _ => .pure _
    | plus => exact (hx m).andThen fun _ _ => .pure _
    | not => exact (hx m).andThen fun _ _ => .pure _
    | void => exact (hx m).discard_bind fun _ => .pure _
  | .postfixed p op x, env, m => by
    refine (x.describes_reference hcall env m).request.andThen fun r k => ?_
    cases op with
    | inc => exact (describes_update p x.pos r 1).andThen fun _ _ => .pure _
    | dec => exact (describes_update p x.pos r (-1)).andThen fun _ _ => .pure _
  | .binary p op l r, env, m => by
    have hl := fun m => (l.describes hcall env m).request
    have hr := fun m => (r.describes hcall env m).request
    have href := (l.describes_reference hcall env m).request
    cases op with
    | assign =>
      exact href.andThen fun ref k => (hr k).andThen fun v k =>
        (Describes.act (.write ..) _).andThen fun _ _ => .pure _
    | assignWith op =>
      exact href.andThen fun ref k => (Describes.act (.read ..) _).andThen fun old k =>
        (hr k).andThen fun new k =>
        (Describes.act (.arithmetic ..) _).andThen fun v k => (Describes.act (.write ..) _).andThen
          fun _ _ => .pure _
    | comma => exact (hl m).discard_bind hr
    | or =>
      refine (hl m).andThen fun v k => ?_
      split
      · exact .pure v
      · exact hr k
    | and =>
      refine (hl m).andThen fun v k => ?_
      split
      · exact hr k
      · exact .pure v
    | eager op => exact (hl m).andThen fun v k => (hr k).andThen fun w k => .act (.operate ..) _
  | .cond _ t yes no, env, m => by
    refine (t.describes hcall env m).request.andThen fun v k => ?_
    split
    · exact (yes.describes hcall env k).request
    · exact (no.describes hcall env k).request
  | .literal _ l, env, m => .pure _
  | .array _ es, env, m =>
    (describes_evalAll hcall es env m).request.andThen fun vs _ =>
      .act (.onStore fun h => h.follows_newArray env _) _
  | .object _ ps, env, m =>
    (describes_evalProperties hcall ps env m).request.andThen fun ps _ =>
      .act (.onStore fun h => h.follows_newObject env _) _
  | .func _ f, env, m => by
    refine (Describes.act (.closure f) _).andThen fun v k => ?_
    cases f.name with
    | some s =>
      exact (Describes.act (.modifyStore fun h => h.follows_define ..) _).andThen fun _ _ => .pure v
    | none => exact .pure v

theorem Expr.describes_reference (hcall : call.Described c n) :
    ∀ (e : Expr) (env : FrameId) (m : Machine),
    Describes c n env (Task.code c (.refer e env)) (e.reference c call env) m
  | .var .., _, _ => .pure _
  | .member _ q k, env, m =>
    (q.describes hcall env m).request.andThen fun _ _ => (Describes.act (.memberKey k) _).andThen
      fun _ _ => .pure _
  | .index _ a i, env, m =>
    (a.describes hcall env m).request.andThen fun _ m => (i.describes hcall env m).request.andThen
      fun _ _ => (Describes.act (.text _) _).andThen fun _ _ => .pure _
  | .bare .., _, _ => .act (.raiseUnbound ..) _
  | .call .., _, _ | .new .., _, _ | .prefixed .., _, _ | .postfixed .., _, _ | .binary .., _, _
  | .cond .., _, _
  | .literal .., _, _ | .array .., _, _ | .object .., _, _ | .func .., _, _ => .act (.raise ..) _

theorem describes_evalAll (hcall : call.Described c n) :
    ∀ (es : List Expr) (env : FrameId) (m : Machine),
    Describes c n env (Task.code c (.evalAll es env)) (evalAll c call es env) m
  | [], _, _ => .pure _
  | e :: es, env, m =>
    (e.describes hcall env m).request.andThen fun _ m =>
      (describes_evalAll hcall es env m).request.andThen
      fun _ _ => .pure _

theorem describes_evalProperties (hcall : call.Described c n) :
    ∀ (ps : List Property) (env : FrameId) (m : Machine),
    Describes c n env (Task.code c (.evalProperties ps env)) (evalProperties c call ps env) m
  | [], _, _ => .pure _
  | ⟨_, e⟩ :: ps, env, m =>
    (e.describes hcall env m).request.andThen fun _ m =>
      (describes_evalProperties hcall ps env m).request.andThen fun _ _ => .pure _

end

/-! ## Statements -/

theorem describes_testHolds (hcall : call.Described c n) (t : Option Expr) :
    Describes c n env (Code.holds t env) (testHolds c call t env) m := by
  cases t with
  | none => exact .pure _
  | some e => exact (e.describes hcall env m).request.andThen fun _ _ => .pure _

theorem describes_evalOptional (hcall : call.Described c n) (e : Option Expr) :
    Describes c n env (Code.optional e env) (evalOptional c call e env) m := by
  cases e with
  | none => exact .pure _
  | some e => exact (e.describes hcall env m).request

theorem describes_declareVars (hcall : call.Described c n) : ∀ (ds : List VarDecl) (m : Machine),
    Describes c n env (Task.code c (.declare ds env)) (declareVars c call ds env) m
  | [], _ => .pure _
  | ⟨s, none, _⟩ :: ds, m =>
    (Describes.act (.modifyStore fun h => h.follows_declare ..) _).andThen fun _ k =>
      (describes_declareVars hcall ds k).request
  | ⟨s, some e, p⟩ :: ds, m => by
    have hassoc : declareVars c call (⟨s, some e, p⟩ :: ds) env =
        e.eval c call env >>= fun v => bindIn env env s v >>= fun _ => declareVars c call ds env :=
          bind_assoc ..
    rw [hassoc]
    exact (e.describes hcall env m).request.andThen fun v k =>
      (Describes.act (.bindIn ..) _).andThen fun _ k => (describes_declareVars hcall ds k).request

theorem describes_startFor (hcall : call.Described c n) (init : Option ForInit) :
    Describes c n env (Code.start init env) (startFor c call init env) m := by
  rcases init with _ | (ds | e)
  · exact .pure _
  · exact (describes_declareVars hcall ds m).request
  · exact (e.describes hcall env m).request.map _

theorem describes_matchingCase (hcall : call.Described c n) (v : Value) :
    ∀ (cs : List SwitchCase) (m : Machine),
    Describes c n env (Task.code c (.select cs v env)) (matchingCase c call cs v env) m
  | [], _ => .pure _
  | ⟨none, _⟩ :: cs, m => (describes_matchingCase hcall v cs m).request.andThen fun _ _ => .pure _
  | ⟨some t, _⟩ :: cs, m => by
    refine (t.describes hcall env m).request.andThen fun w k => ?_
    split
    · exact .pure _
    · exact (describes_matchingCase hcall v cs k).request.andThen fun _ _ => .pure _

/-- A catch clause runs in a frame of its own. -/
theorem describes_handle {cs : List Catch} {r : Except Abrupt Flow}
    {f : Except Abrupt Flow → Code Flow} {g : Except Abrupt Flow → Eval Flow}
    (hcs : ∀ cl ∈ cs, ∀ env m, Describes c n env (Task.code c (.execAll cl.body.stmts env))
      (execStmts c call cl.body.stmts env) m)
    (hf : ∀ r k, r ≠ c.outOfSteps → Describes c n env (f r) (g r) k)
    (hstop : ∀ k, Runs c (f c.outOfSteps) k (c.outOfSteps, k) ∧
      (g c.outOfSteps).go k = (c.outOfSteps, k))
    (hr : r ≠ c.outOfSteps) :
    Describes c n env (Code.handle c cs r env >>= f) (handle c call cs r env >>= g) m := by
  match cs, r with
  | [], r => exact hf r m hr
  | ⟨_, _, ⟨_, _⟩, _⟩ :: _, .ok flow => exact hf _ m hr
  | ⟨_, _, ⟨_, _⟩, _⟩ :: _, .error (.fault e) => exact hf _ m hr
  | ⟨s, _, ⟨ss, q⟩, _⟩ :: _, .error (.thrown v _) =>
    refine Describes.attempt_bind ?_ hf hstop
    refine (Describes.act (.onStore fun h => h.follows_newFrame env) _).bind fun inner k hk => ?_
    cases hk
    refine (Describes.act (.modifyStore fun h => h.follows_define ..) _).bind fun _ l hl => ?_
    cases hl
    exact (hcs _ List.mem_cons_self _ _).request.of_has
      ((Store.has_define ..).2 (m.store.has_newFrame_self env))

theorem describes_finish {cleanup : Option Block}
    (hb : ∀ b ∈ cleanup, ∀ m, Describes c n env (Task.code c (.execAll b.stmts env))
      (execStmts c call b.stmts env) m)
    (r : Except Abrupt Flow) :
    Describes c n env (Code.finish cleanup r env) (finish c call cleanup r env) m := by
  match cleanup, r with
  | none, r => exact .ret (go_settle r m)
  | some _, .error (.fault e) => exact .ret rfl
  | some ⟨ss, q⟩, .error (.thrown v p) =>
    refine (hb _ rfl m).request.andThen fun flow k => ?_
    cases flow with
    | next => exact .ret rfl
    | _ => exact .pure _
  | some ⟨ss, q⟩, .ok flow =>
    refine (hb _ rfl m).request.andThen fun flow' k => ?_
    cases flow' with
    | next => exact .ret rfl
    | _ => exact .pure _

/-- The turns of a `for` loop. -/
theorem describes_turns (hcall : call.Described c n) (t incr : Option Expr) {b : Stmt}
    (label : Option String)
    (hb : ∀ m, Describes c n env (Task.code c (.exec b none env)) (b.exec c call none env) m) :
    Describes c n env (Task.code c (.turns t incr b label env)) (loop c do
      if ← testHolds c call t env then
        tick c
        match (← b.exec c call none env).leaving? label with
        | some flow => return some flow
        | none =>
          discard (evalOptional c call incr env)
          return none
      else return some .next) m := by
  have ht (k : Machine) : Describes c n env (Code.holds t env) (testHolds c call t env) k :=
    describes_testHolds hcall t
  have hbody (k : Machine) : Describes c n env (do
      match (← Code.request (.exec b none env)).leaving? label with
      | some flow => return some flow
      | none =>
        let _ ← Code.optional incr env
        return none) (do
      match (← b.exec c call none env).leaving? label with
      | some flow => return some flow
      | none =>
        discard (evalOptional c call incr env)
        return none) k := by
    refine (hb k).request.andThen fun flow k => ?_
    cases flow.leaving? label with
    | some flow => exact .pure _
    | none => exact (describes_evalOptional hcall incr).discard_bind fun _ => .pure _
  refine Describes.loop rfl (fun k => (ht k).andThen fun holds k => ?_) fun _ _ =>
    Describes.steps_lt_of_bind ht fun holds k l h => ?_
  · cases holds with
    | true => exact (Describes.act .tick _).andThen fun _ k => hbody k
    | false => exact .pure _
  · cases holds with
    | true => exact Describes.steps_lt_of_tick hbody h
    | false => cases h

/-- The turns of a loop over keys. -/
theorem describes_visit (s : SymbolId) {b : Stmt} (label : Option String)
    (hb : ∀ m, Describes c n env (Task.code c (.exec b none env)) (b.exec c call none env) m) :
    ∀ (ks : List String) (m : Machine),
      Describes c n env (Task.code c (.visit s b label env ks)) (overKeys (fun key => do
        bindIn env env s (.string key)
        tick c
        return (← b.exec c call none env).leaving? label) ks) m
  | [], _ => .pure _
  | key :: ks, m => by
    refine Describes.again ?_ (describes_visit s label hb ks)
    exact (Describes.act (.bindIn ..) _).andThen fun _ _ =>
      (Describes.act .tick _).andThen fun _ k => (hb k).request.andThen fun _ _ => .pure _

mutual

theorem Stmt.describes (hcall : call.Described c n) :
    ∀ (s : Stmt) (label : Option String) (env : FrameId) (m : Machine),
    Describes c n env (Task.code c (.exec s label env)) (s.exec c call label env) m
  | .expr _ e, _, env, m => by
    simp only [Task.code, Stmt.code, Stmt.exec]
    cases e.isDeclaration with
    | true => exact .pure _
    | false => exact (e.describes hcall env m).request.discard_bind fun _ => .pure _
  | .vars _ ds, _, env, m => (describes_declareVars hcall ds m).request.andThen fun _ _ => .pure _
  | .ret _ e, _, env, m => (describes_evalOptional hcall e).together.andThen fun _ _ => .pure _
  | .raise p e, _, env, m =>
    (e.describes hcall env m).request.andThen fun _ _ =>
      .act (Orderly.recordThrow.bind fun _ => .throw _) _
  | .branch _ t yes no, _, env, m => by
    refine (t.describes hcall env m).request.andThen fun v k => ?_
    split
    · exact (Describes.act .tick _).andThen fun _ k => (yes.describes hcall none env k).request
    · cases no with
      | none => exact .pure _
      | some s => exact (Describes.act .tick _).andThen fun _ k =>
        (s.describes hcall none env k).request
  | .whileLoop p t b, label, env, m => by
    have ht (k : Machine) := (t.describes hcall env k).request
    have hbody (k : Machine) := (b.describes hcall none env k).request.andThen fun flow k =>
      Describes.pure (c := c) (n := n) (m := k) (flow.leaving? label)
    refine Describes.loop rfl (fun k => (ht k).andThen fun v k => ?_) fun _ _ =>
      Describes.steps_lt_of_bind ht fun v k l h => ?_
    · split
      · exact (Describes.act .tick _).andThen fun _ k => hbody k
      · exact .pure _
    · split at h
      · exact Describes.steps_lt_of_tick hbody h
      · cases h
  | .doWhile p b t, label, env, m => by
    have hbody (k : Machine) : Describes c n env (do
        match (← Code.request (.exec b none env)).leaving? label with
        | some flow => return some flow
        | none =>
          if (← Code.request (.eval t env)).isTruthy then return none else return some .next) (do
        match (← b.exec c call none env).leaving? label with
        | some flow => return some flow
        | none => if (← t.eval c call env).isTruthy then return none else return some .next) k := by
      refine (b.describes hcall none env k).request.andThen fun flow k => ?_
      cases flow.leaving? label with
      | some flow => exact .pure _
      | none =>
        refine (t.describes hcall env k).request.andThen fun v k => ?_
        split <;> exact .pure _
    exact Describes.loop rfl (fun k => (Describes.act .tick _).andThen fun _ k => hbody k)
      fun _ _ h => Describes.steps_lt_of_tick hbody h
  | .forLoop _ init t incr b, label, env, m =>
    (describes_startFor hcall init).andThen fun _ k =>
      (describes_turns hcall t incr label fun k => b.describes hcall none env k).request
  | .forIn _ s _ o b, label, env, m =>
    (o.describes hcall env m).request.andThen fun v _ => (Describes.act (.keys v) _).andThen
      fun ks m => (describes_visit s label (fun k => b.describes hcall none env k) ks m).request
  | .block _ ⟨ss, _⟩, _, env, m => (describes_stmts hcall ss env m).request
  | .tryBlock _ ⟨ss, _⟩ cs cleanup, _, env, m => by
    have hfinish (r : Except Abrupt Flow) (k : Machine) (_ : r ≠ c.outOfSteps) :=
      describes_finish (m := k)
      (fun b hb => describes_cleanup hcall cleanup b hb env) r
    have hstop (k : Machine) : Runs c (Code.finish cleanup c.outOfSteps env) k (c.outOfSteps, k) ∧
        (finish c call cleanup c.outOfSteps env).go k = (c.outOfSteps, k) := by
      cases cleanup <;> exact ⟨.ret _ _, rfl⟩
    refine (describes_stmts hcall ss env m).request.attempt_bind
      (fun r k hr => describes_handle (describes_catches hcall cs) hfinish hstop hr) fun k => ?_
    match cs with
    | [] => exact hstop k
    | ⟨_, _, ⟨_, _⟩, _⟩ :: _ => exact hstop k
  | .labeled _ l b, _, env, m => by
    have hbody (k : Machine) : Describes c n env
        (do return (← Code.request (.exec b (some l) env)).behind l) (do
        match ← b.exec c call (some l) env with
        | .breaks (some l') => return if l' = l then .next else .breaks (some l')
        | flow => return flow) k := by
      refine (b.describes hcall (some l) env k).request.andThen fun flow k => ?_
      match flow with
      | .next | .continues _ | .returns _ | .breaks none | .breaks (some _) => exact .pure _
    simp only [Task.code, Stmt.code, Stmt.exec]
    cases b.isLoop with
    | true => exact hbody m
    | false => exact (Describes.act .tick _).andThen fun _ k => hbody k
  | .breakTo _ l, _, _, _ => .pure _
  | .continueTo _ l, _, _, _ => .pure _
  | .switch _ d cs, _, env, m => by
    refine (d.describes hcall env m).request.andThen fun v k => ?_
    refine (describes_matchingCase hcall v cs k).request.andThen fun i k => ?_
    cases i <|> cs.findIdx? (·.test.isNone) with
    | some start => exact (describes_cases hcall cs start env k).request
    | none => exact .pure _
  | .empty _, _, _, _ => .pure _

theorem describes_stmts (hcall : call.Described c n) :
    ∀ (ss : List Stmt) (env : FrameId) (m : Machine),
    Describes c n env (Task.code c (.execAll ss env)) (execStmts c call ss env) m
  | [], _, _ => .pure _
  | s :: ss, env, m => by
    refine (Describes.act .tick _).andThen fun _ k =>
      (s.describes hcall none env k).request.andThen fun flow k => ?_
    cases flow with
    | next => exact (describes_stmts hcall ss env k).request
    | _ => exact .pure _

theorem describes_catches (hcall : call.Described c n) :
    ∀ (cs : List Catch), ∀ cl ∈ cs, ∀ (env : FrameId) (m : Machine),
    Describes c n env (Task.code c (.execAll cl.body.stmts env))
      (execStmts c call cl.body.stmts env) m
  | ⟨_, _, ⟨ss, _⟩, _⟩ :: cs, cl, hcl, env, m => by
    rcases List.mem_cons.1 hcl with rfl | hcl
    · exact describes_stmts hcall ss env m
    · exact describes_catches hcall cs cl hcl env m

theorem describes_cleanup (hcall : call.Described c n) :
    ∀ (cleanup : Option Block), ∀ b ∈ cleanup, ∀ (env : FrameId) (m : Machine),
    Describes c n env (Task.code c (.execAll b.stmts env)) (execStmts c call b.stmts env) m
  | some ⟨ss, _⟩, b, hb, env, m => by
    obtain rfl := Option.some.inj hb
    exact describes_stmts hcall ss env m

theorem describes_cases (hcall : call.Described c n) :
    ∀ (cs : List SwitchCase) (start : Nat) (env : FrameId) (m : Machine),
    Describes c n env (Task.code c (.execCases cs start env)) (execCases c call cs start env) m
  | [], _, _, _ => .pure _
  | ⟨_, _⟩ :: cs, start + 1, env, m => (describes_cases hcall cs start env m).request
  | ⟨_, ss⟩ :: cs, 0, env, m => by
    refine (describes_stmts hcall ss env m).request.andThen fun flow k => ?_
    match flow with
    | .next => exact (describes_cases hcall cs 0 env k).request
    | .breaks none | .breaks (some _) | .continues _ | .returns _ => exact .pure _

end

end

end

end FrameLedger
