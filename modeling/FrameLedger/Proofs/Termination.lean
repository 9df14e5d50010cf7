import FrameLedger.Proofs.Descent
import FrameLedger.Proofs.Describing
import FrameLedger.Proofs.Plays

/-!
# Runs end

Calls nest as deep as the recursion without bounds lets them (`describes_call`), so what an act of a
play comes to is what that recursion comes to, in finitely many steps: `Play.act_ends`.
-/

namespace FrameLedger

open Eval Code

variable {c : Setting} {n : Nat} {env : FrameId} {m : Machine}

/-! ## Calls -/

theorem leads_prepare {f : Closure} (args : List Value)
    (hf : m.store.Grounded → m.store.Has f.env) :
    m.Leads c env ((prepare f args).go m) := by
  have hframe := m.store.follows_newFrame f.env
  have hbind :=
    (orderly_bindFrame f args (m.store.newFrame f.env).1).leads (c := c)
    (m.setStore (m.store.newFrame f.env).2)
  have hnew : m.Leads c env
      ((.ok () : Except Abrupt Unit), m.setStore (m.store.newFrame f.env).2) :=
    .same _ rfl rfl ⟨hframe.frames_le, fun hm _ => hframe.grounded hm (hf hm)⟩
  refine hnew.trans nofun { hbind with store := ⟨hbind.store.frames_le, fun hm _ => ?_⟩ }
  exact hbind.store.grounded hm (m.store.has_newFrame_self f.env)

theorem has_of_prepare (c : Setting) {f : Closure} {args : List Value} {B : FrameId} {k : Machine}
    (h : (prepare f args).go m = (.ok B, k)) : k.store.Has B := by
  have hbind :=
    (orderly_bindFrame f args (m.store.newFrame f.env).1).leads (c := c)
    (m.setStore (m.store.newFrame f.env).2)
  rw [go_prepare] at h
  rw [h] at hbind
  obtain ⟨_, l, -, hl⟩ := go_bind_ok h
  obtain ⟨_, l, -, hl⟩ := go_bind_ok hl
  cases hl
  exact (m.store.has_newFrame_self f.env).trans_le hbind.store.frames_le

theorem enter_eq (c : Setting) (call : Caller) (f : Closure) (args : List Value) (pos : Position) :
    enter c call f args pos = get >>= fun m =>
      if c.limits.calls ≤ m.callDepth then fault (.callDepth c.limits.calls)
      else prepare f args >>= fun env => (do
        modify fun m => { m with callDepth := m.callDepth + 1 }
        let outcome ← observe (execStmts c call f.func.body.stmts env)
        modify fun m => { m with callDepth := m.callDepth - 1 }
        settle outcome) >>= fun
        | .next => return .undefined
        | .returns v => return v
        | .breaks _ | .continues _ => fault (.illegalJump .breakOrContinue pos) := by
  simp only [enter, bind_assoc]
  refine bind_congr fun m => ?_
  split
  · rfl
  · rfl

/-- Entering a function, with the calls its body makes one deeper. -/
theorem describes_enter {call : Caller}
    (hbody : ∀ ss env m, Describes c n env (Task.code c (.execAll ss env)) (execStmts c call ss env)
      m) {f : Closure}
    (args : List Value) (pos : Position) (hf : m.store.Grounded → m.store.Has f.env) :
    Describes c (n + 1) env (Code.enter c f args pos) (enter c call f args pos) m := by
  rw [enter_eq]
  refine (Describes.act .get _).bind fun m' k hk => ?_
  cases hk
  split
  · exact .ret rfl
  · refine (Describes.perform (leads_prepare args hf) _).bind fun B k hk => ?_
    refine ((hbody f.func.body.stmts B _).request.nested (has_of_prepare c hk)).andThen
      fun flow l => ?_
    cases flow with
    | next => exact .pure _
    | returns v => exact .pure v
    | breaks | continues => exact .ret rfl

section

variable {enter' : Closure → List Value → Position → Eval Value} {args : List Value}
  {pos : Position}
  (henter : ∀ f k, (k.store.Grounded → k.store.Has f.env) →
    Describes c n env (Code.enter c f args pos) (enter' f args pos) k)

include henter

/-- A call spends a step and then does something. -/
theorem describes_callee (callee : Value) :
    ∃ x y, Code.invoke c callee args pos = (act c [] (tick c) >>= fun _ => x) ∧
      Caller.invoke c enter' callee args pos = (tick c >>= fun _ => y) ∧
        ∀ k, Describes c n env x y k := by
  cases callee with
  | native kind => exact ⟨_, _, rfl, rfl, fun k => .act (.makeError ..) _⟩
  | function r =>
    refine ⟨_, _, rfl, rfl, fun k => (Describes.act .store _).bind fun h l hl => ?_⟩
    cases hl
    cases hcl : k.store.closure? r with
    | some f => exact henter f k fun hg => hg.has_env r f hcl
    | none => exact .act (.raise ..) _
  | _ =>
    exact ⟨_, _, rfl, rfl, fun k => (Describes.act (.text _) _).andThen fun _ _ => .act (.raise ..)
      _⟩

theorem describes_ofEnter (callee : Value) :
    Describes c n env (Task.code c (.call callee args pos))
      (Caller.ofEnter c enter' callee args pos) m := by
  obtain ⟨x, y, hx, hy, h⟩ := describes_callee henter callee
  refine Describes.together ?_
  rw [hx, hy]
  exact (Describes.act .tick _).andThen fun _ k => h k

end

/-- However deep calls may nest, they enter functions as code does, as long as the limit is no
further off. -/
theorem exists_within_eq (c : Setting) (n : Nat) :
    ∃ enter', Caller.within c n = Caller.ofEnter c enter' ∧
    ∀ args pos env f k, (k.store.Grounded → k.store.Has f.env) →
      Describes c n env (Code.enter c f args pos) (enter' f args pos) k := by
  induction n with
  | zero =>
    refine ⟨_, rfl, fun args pos env f k _ => ?_⟩
    have hruns (hk : k.Primed c 0 env) : Runs c (Code.enter c f args pos) k
        ((fault (.callDepth c.limits.calls) : Eval Value).go k) := by
      have hdepth : c.limits.calls ≤ k.callDepth := hk.calls
      refine .perform hk.grounded (by simp [throws]) ?_
      show Runs c (if c.limits.calls ≤ k.callDepth then _ else _) k _
      rw [if_pos hdepth]
      exact .ret _ _
    exact ⟨.same _ rfl rfl (.refl env _), fun hk => (hruns hk).comes, fun hk _ => hruns hk⟩
  | succ n ih =>
    obtain ⟨enter', hwithin, henter⟩ := ih
    refine ⟨_, rfl, fun args pos env f k hf => describes_enter
      (describes_stmts fun v args p env m => ?_) args pos hf⟩
    rw [hwithin]
    exact describes_ofEnter (fun f k hf => henter args p env f k hf) v

theorem describes_call (n : Nat) (v : Value) (args : List Value) (p : Position) (env : FrameId)
    (m : Machine) :
    Describes c n env (Task.code c (.call v args p)) (Caller.within c n v args p) m := by
  obtain ⟨enter', hwithin, henter⟩ := exists_within_eq c n
  rw [hwithin]
  exact describes_ofEnter (fun f k hf => henter args p env f k hf) v

/-- What evaluation within the bounds makes of a task. -/
def Task.run (c : Setting) (call : Caller) : {α : Type} → Task α → Eval α
  | _, .eval e env => e.eval c call env
  | _, .refer e env => e.reference c call env
  | _, .evalAll es env => FrameLedger.evalAll c call es env
  | _, .evalProperties ps env => FrameLedger.evalProperties c call ps env
  | _, .declare ds env => declareVars c call ds env
  | _, .select cs v env => matchingCase c call cs v env
  | _, .exec s label env => s.exec c call label env
  | _, .execAll ss env => execStmts c call ss env
  | _, .turns t incr b label env => loop c do
    if ← testHolds c call t env then
      tick c
      match (← b.exec c call none env).leaving? label with
      | some flow => return some flow
      | none =>
        discard (evalOptional c call incr env)
        return none
    else return some .next
  | _, .visit s b label env ks => ks |> overKeys fun key => do
    bindIn env env s (.string key)
    tick c
    return (← b.exec c call none env).leaving? label
  | _, .execCases cs start env => FrameLedger.execCases c call cs start env
  | _, .call callee args pos => call callee args pos

/-- The frame that a task is done in. -/
def Task.frame : {α : Type} → Task α → FrameId
  | _, .eval _ env | _, .refer _ env | _, .evalAll _ env | _, .evalProperties _ env
  | _, .declare _ env
  | _, .select _ _ env | _, .exec _ _ env | _, .execAll _ env | _, .turns _ _ _ _ env
  | _, .visit _ _ _ env _
  | _, .execCases _ _ env => env
  | _, .call .. => Store.globals

theorem Task.describes {α : Type} (t : Task α) (m : Machine) :
    Describes c n t.frame (t.code c) (t.run c (Caller.within c n)) m := by
  have hcall := describes_call (c := c) n
  cases t with
  | eval e env => exact e.describes hcall env m
  | refer e env => exact e.describes_reference hcall env m
  | evalAll es env => exact describes_evalAll hcall es env m
  | evalProperties ps env => exact describes_evalProperties hcall ps env m
  | declare ds env => exact describes_declareVars hcall ds m
  | select cs v env => exact describes_matchingCase hcall v cs m
  | exec s label env => exact s.describes hcall label env m
  | execAll ss env => exact describes_stmts hcall ss env m
  | turns t incr b label env =>
    exact describes_turns hcall t incr label (b.describes hcall none env)
  | visit s b label env ks => exact describes_visit s label (b.describes hcall none env) ks m
  | execCases cs start env => exact describes_cases hcall cs start env m
  | call callee args pos => exact hcall callee args pos _ m

/-! ## Plays -/

/-- Runs the global code. -/
def Program.execCode (p : Program) (c : Setting) : Code Unit := do
  act c [] (hoist p.code.stmts Store.globals)
  let flow ← request (.execAll p.code.stmts Store.globals)
  act c [] (p.leave flow)

/-- Shows what was not caught. -/
def Code.report {α : Type} (c : Setting) (x : Code α) : Code (Except RunError α) := do
  match ← x.attempt with
  | .ok a => return .ok a
  | .error (.thrown v pos) =>
    let message ← act c [v] (text v)
    return .error (.uncaught message pos)
  | .error (.fault f) => return .error (.fault f)

namespace Play

/-- The session once the arguments of an act are in its store, and the arguments. -/
def supplied (x : Play) : Act → List Value × Session
  | .run => ([], x.session)
  | .call _ args => x.session.alloc args

/-- What an act does. -/
def code (x : Play) : Act → Code (Except RunError Value)
  | .run =>
    Code.report x.session.setting do
      x.session.program.execCode x.session.setting
      return .undefined
  | .call name args =>
    let (vs, s) := x.supplied (.call name args)
    match s.global name with
    | some callee =>
      if callee.isCallable then Code.report s.setting (request (.call callee vs s.program.code.pos))
      else return .error (.notAFunction name)
    | none => return .error (.notAFunction name)

end Play

theorem describes_exec (p : Program) (m : Machine) :
    Describes c c.limits.calls Store.globals (p.execCode c) (p.exec c) m := by
  refine (Describes.act (.hoist _) _).andThen fun _ k => ?_
  refine (describes_stmts (describes_call _) _ _ k).request.andThen fun flow l => .act ?_ _
  cases flow with
  | next => exact .pure ()
  | _ => exact .throw _

/-- Where the steps are spent already, the next one ends all. -/
theorem runs_tick_bind {α : Type} (hm : m.store.Grounded) (hlt : c.limits.steps < m.steps)
    (f : Unit → Code α) :
    Runs c (act c [] (tick c) >>= f) m (c.outOfSteps, { m with steps := m.steps + 1 }) := by
  have htick : (tick c).go m = (c.outOfSteps, { m with steps := m.steps + 1 }) := by
    rw [go_tick, if_pos (Nat.lt_succ_of_lt hlt), Setting.outOfSteps]
  refine .perform hm (by simp [throws, htick, Setting.outOfSteps]) ?_
  rw [htick]
  exact .ret _ _

theorem go_tick_bind {α : Type} (hlt : c.limits.steps < m.steps) (f : Unit → Eval α) :
    (tick c >>= f).go m = (c.outOfSteps, { m with steps := m.steps + 1 }) := by
  rw [go_bind, go_tick, if_pos (Nat.lt_succ_of_lt hlt)]
  rfl

/-- A machine between two acts. -/
structure Machine.Idle (m : Machine) : Prop where
  grounded : m.store.Grounded
  has_globals : m.store.Has Store.globals

theorem Machine.Idle.primed (hm : m.Idle) (hle : m.steps ≤ c.limits.steps) :
    m.Primed c c.limits.calls Store.globals :=
  ⟨hle, Nat.le_add_left .., hm.grounded, hm.has_globals⟩

theorem Machine.Idle.next {α : Type} {r : Except Abrupt α × Machine} (hm : m.Idle)
    (h : m.Leads c Store.globals r) :
    r.2.Idle :=
  ⟨h.store.grounded hm.grounded hm.has_globals, hm.has_globals.trans_le h.store.frames_le⟩

theorem runs_execAll (ss : List Stmt) (hm : m.Idle)
    (hw : (Task.code c (.execAll ss Store.globals)).Writable c m) :
    Runs c (Task.code c (.execAll ss Store.globals)) m
      ((execStmts c c.caller ss Store.globals).go m) := by
  by_cases hle : m.steps ≤ c.limits.steps
  · exact (describes_stmts (describes_call _) ss _ m).runs (hm.primed hle) hw
  · cases ss with
    | nil => exact .ret _ _
    | cons s ss =>
      rw [execStmts, go_tick_bind (Nat.lt_of_not_le hle)]
      exact runs_tick_bind hm.grounded (Nat.lt_of_not_le hle) _

theorem runs_call (v : Value) (args : List Value) (p : Position) (hm : m.Idle)
    (hw : (Task.code c (.call v args p)).Writable c m) :
    Runs c (Task.code c (.call v args p)) m ((c.caller v args p).go m) := by
  by_cases hle : m.steps ≤ c.limits.steps
  · exact (describes_call _ v args p _ m).runs (hm.primed hle) hw
  · have hlt := Nat.lt_of_not_le hle
    obtain ⟨enter', henter, -⟩ := exists_within_eq c c.limits.calls
    have hgo : (Caller.invoke c enter' v args p).go { m with trace := .of [] } =
      (c.outOfSteps, { m with steps := m.steps + 1, trace := .of [] }) :=
        go_tick_bind (m := { m with trace := .of [] }) hlt _
    rw [Setting.caller, henter, Caller.ofEnter, go_together, hgo]
    exact (runs_tick_bind (m := { m with trace := .of [] }) hm.grounded hlt _).together _
      hm.grounded hm.grounded

theorem runs_exec (p : Program) (hm : m.Idle) (hw : (p.execCode c).Writable c m) :
    Runs c (p.execCode c) m ((p.exec c).go m) := by
  have hl : m.Leads c Store.globals ((hoist p.code.stmts Store.globals).go m) :=
    (Orderly.hoist _).leads m
  have hhoist : Runs c (act c [] (hoist p.code.stmts Store.globals)) m
      ((hoist p.code.stmts Store.globals).go m) :=
    .perform hm.grounded (fun v hv => ⟨_, Store.hasText_text (hw _ _ (.here hv))⟩) (.ret _ _)
  refine hhoist.go_bind fun _ k hk => ?_
  rw [hk] at hl hhoist
  have hw := fun h v hv => hw h v (.bind_right hhoist hv)
  have hidle : k.Idle := hm.next hl
  have hl : k.Leads c Store.globals ((execStmts c c.caller p.code.stmts Store.globals).go k) :=
    (describes_stmts (describes_call _) _ _ k).leads
  have hbody : Runs c (request (.execAll p.code.stmts Store.globals)) k
      ((execStmts c c.caller p.code.stmts Store.globals).go k) :=
    .ask (runs_execAll p.code.stmts hidle fun h v hv => hw h v (.inside hv)) (.ret _ _)
  refine hbody.go_bind fun flow n hn => ?_
  rw [hn] at hl hbody
  have hw := fun h v hv => hw h v (.bind_right hbody hv)
  exact .perform (hidle.next hl).grounded (fun v hv => ⟨_, Store.hasText_text (hw _ _ (.here hv))⟩)
    (.ret _ _)

theorem Runs.report {α : Type} {x : Code α} {k : Machine} {r : Except Abrupt α}
    (hx : Runs c x m (r, k)) (hk : k.store.Grounded) (hw : (Code.report c x).Writable c m) :
    Runs c (Code.report c x) m (.ok (r.mapError (.ofAbrupt k)), k) := by
  have hw := fun h v hv => hw h v (.bind_right hx.attempt hv)
  refine hx.attempt.bind ?_
  match r with
  | .ok a => exact .ret _ _
  | .error (.fault f) => exact .ret _ _
  | .error (.thrown v p) =>
    exact .perform hk (fun v hv => ⟨_, Store.hasText_text (hw _ _ (.here hv))⟩) (.ret _ _)

mutual

theorem Datum.alloc_frames : ∀ (d : Datum) (h : Store),
    (d.alloc h).2.frames = h.frames ∧ (d.alloc h).2.closures = h.closures
  | .undefined, _ | .null, _ | .bool _, _ | .number _, _ | .string _, _ | .native _, _
  | .error .., _
  | .held _, _ => ⟨rfl, rfl⟩
  | .array ds, h => allocAll_frames ds h
  | .object ps ctor, h =>
    have hps := allocProperties_frames ps h
    have hctor := allocOption_frames ctor (allocProperties ps h).2
    ⟨hctor.1.trans hps.1, hctor.2.trans hps.2⟩

theorem allocAll_frames : ∀ (ds : List Datum) (h : Store),
    (allocAll ds h).2.frames = h.frames ∧ (allocAll ds h).2.closures = h.closures
  | [], _ => ⟨rfl, rfl⟩
  | d :: ds, h =>
    have hd := d.alloc_frames h
    have hds := allocAll_frames ds (d.alloc h).2
    ⟨hds.1.trans hd.1, hds.2.trans hd.2⟩

theorem allocProperties_frames : ∀ (ps : List (String × Datum)) (h : Store),
    (allocProperties ps h).2.frames = h.frames ∧ (allocProperties ps h).2.closures = h.closures
  | [], _ => ⟨rfl, rfl⟩
  | (_, d) :: ps, h =>
    have hd := d.alloc_frames h
    have hps := allocProperties_frames ps (d.alloc h).2
    ⟨hps.1.trans hd.1, hps.2.trans hd.2⟩

theorem allocOption_frames : ∀ (d : Option Datum) (h : Store),
    (allocOption d h).2.frames = h.frames ∧ (allocOption d h).2.closures = h.closures
  | none, _ => ⟨rfl, rfl⟩
  | some d, h => d.alloc_frames h

end

theorem Machine.Idle.supplied (hm : m.Idle) (ds : List Datum) :
    Machine.Idle { m with store := (allocAll ds m.store).2 } := by
  obtain ⟨hframes, hclosures⟩ := allocAll_frames ds m.store
  have hf : m.store.Follows Store.globals (allocAll ds m.store).2 := .of_eq hframes hclosures
  exact ⟨hf.grounded hm.grounded hm.has_globals, hm.has_globals.trans_le hf.frames_le⟩

theorem Machine.idle_start (t : ScopeTable) : (Machine.start t).Idle := by
  have hstart : (Machine.start t).store.Grounded ∧ (Machine.start t).store.Has Store.globals := by
    dsimp only [Machine.start]
    refine List.foldlRecOn (motive := fun h : Store => h.Grounded ∧ h.Has Store.globals)
      ErrorKind.all _ ⟨⟨fun f p h => ?_, fun r cl h => ?_⟩, by decide⟩ fun h hh k _ => ?_
    · rcases f with ⟨_ | i⟩ <;> simp [Store.empty, Store.parent?] at h
    · simp [Store.closure?, Store.empty] at h
    · split
      · exact ⟨(h.follows_define Store.globals Store.globals _ _).grounded hh.1 hh.2, by
          simpa using hh.2⟩
      · exact hh
  exact ⟨hstart.1, hstart.2⟩

namespace Play

/-- Between two acts. -/
structure Idle (p : Program) (c : Setting) (x : Play) : Prop where
  program : x.session.program = p
  setting : x.session.setting = c
  machine : x.session.machine.Idle

variable {p : Program} {x : Play}

theorem Idle.act (hx : x.Idle p c) (a : Act) : (x.act a).Idle p c := by
  obtain ⟨⟨_, _, m⟩, results⟩ := x
  obtain ⟨rfl, rfl, hm⟩ := hx
  cases a with
  | run =>
    simp only [Play.act, Session.run, Session.perform_eq]
    exact ⟨rfl, rfl, hm.next (describes_exec _ m).leads⟩
  | call name args =>
    have hm' := hm.supplied args
    simp only [Play.act, Session.alloc, Session.call]
    split
    · split
      · rw [Session.perform_eq]
        exact ⟨rfl, rfl, hm'.next (describes_call _ _ _ _ _ _).leads⟩
      · exact ⟨rfl, rfl, hm'⟩
    · exact ⟨rfl, rfl, hm'⟩

theorem idle_of (p : Program) (probe : Option StackVars) (limits : Limits) (acts : List Act) :
    (Play.of p probe limits acts).Idle p ⟨p.table, probe, limits⟩ :=
  List.foldlRecOn (motive := fun x : Play => x.Idle p ⟨p.table, probe, limits⟩) acts Play.act
    ⟨rfl, rfl, Machine.idle_start _⟩ fun _ hx a _ => hx.act a

/-- An act ends, with the result and the machine that the play goes on with. -/
theorem Idle.runs (hx : x.Idle p c) (a : Act)
    (hw : (x.code a).Writable c (x.supplied a).2.machine) :
    ∃ r, (x.act a).results = x.results ++ [r] ∧
      Runs c (x.code a) (x.supplied a).2.machine (.ok r, (x.act a).session.machine) := by
  obtain ⟨⟨q, c, m⟩, results⟩ := x
  obtain ⟨rfl, rfl, hm⟩ := hx
  cases a with
  | run =>
    have hl := (describes_exec (c := c) q m).leads
    have hexec : Runs c (q.execCode c) m ((q.exec c).go m) :=
      runs_exec q hm fun h v hv => hw h v ((hv.bind_left _).attempt.bind_left _)
    have hrun : Runs c (q.execCode c >>= fun _ => pure Value.undefined) m
        ((q.exec c >>= fun _ => pure Value.undefined).go m) := hexec.go_bind fun _ _ _ => .ret _ _
    have hgo : (q.exec c >>= fun _ => pure Value.undefined).go m =
        (((q.exec c).go m).1.map fun _ => Value.undefined, ((q.exec c).go m).2) := by
      rw [go_bind]
      rcases (q.exec c).go m with ⟨_ | _, _⟩ <;> rfl
    rw [hgo] at hrun
    simp only [Play.act, Session.run, Session.perform_eq]
    refine ⟨_, ?_, hrun.report (hm.next hl).grounded hw⟩
    rcases ((q.exec c).go m).1 with _ | _ <;> rfl
  | call name args =>
    have hm' := hm.supplied args
    simp only [Play.act, Session.call, Play.code, Play.supplied, Session.alloc] at hw ⊢
    refine ⟨_, rfl, ?_⟩
    cases hcallee : Session.global _ name with
    | none => exact .ret _ _
    | some callee =>
      by_cases hc : callee.isCallable
      · simp only [hcallee, if_pos hc] at hw ⊢
        rw [Session.perform_eq]
        have hl :=
          (describes_call (c := c) c.limits.calls callee (allocAll args m.store).1 q.code.pos
          Store.globals { m with store := (allocAll args m.store).2 }).leads
        have hcall := runs_call callee (allocAll args m.store).1 q.code.pos hm' fun h v hv =>
          hw h v ((Converts.inside hv).attempt.bind_left _)
        exact Runs.report (.ask hcall (.ret _ _)) (hm'.next hl).grounded hw
      · simp only [if_neg hc]
        exact .ret _ _

end Play

section

variable {α β : Type} {h : Store} {v : Value}

end

end FrameLedger
