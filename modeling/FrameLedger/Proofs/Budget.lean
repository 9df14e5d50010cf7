import FrameLedger.Proofs.Recursion

/-!
# The step budget

What every operation keeps: steps are never given back, a machine within its budget stays within it
unless the step limit is what ended the operation, calls that were entered have been left, and the
frames of the store stay in order.
-/

namespace FrameLedger

open Eval

namespace Store

variable {h h' h'' : Store} {env : FrameId}

/-- A store that an operation in this frame may leave behind. -/
structure Follows (env : FrameId) (h h' : Store) : Prop where
  frames_le : h.frames.size ≤ h'.frames.size
  grounded : h.Grounded → h.Has env → h'.Grounded

theorem Follows.of_eq (hframes : h'.frames = h.frames) (hclosures : h'.closures = h.closures) :
    Follows env h h' where
  frames_le := by rw [hframes]
  grounded hh _ := by
    refine ⟨fun f p hp => hh.parent_lt f p ?_, fun r cl hc => ?_⟩
    · rwa [parent?, hframes] at hp
    · have := hh.has_env r cl (by rwa [closure?, hclosures] at hc)
      rwa [Has, hframes]

theorem Follows.refl (env : FrameId) (h : Store) : Follows env h h := .of_eq rfl rfl

theorem Follows.trans (a : Follows env h h') (b : Follows env h' h'') : Follows env h h'' where
  frames_le := a.frames_le.trans b.frames_le
  grounded hh henv := b.grounded (a.grounded hh henv) (henv.trans_le a.frames_le)

theorem follows_define (env : FrameId) (h : Store) (f : FrameId) (s : SymbolId) (v : Value) :
    Follows env h (h.define f s v) where
  frames_le := by simp
  grounded hh _ :=
    ⟨by simpa using hh.parent_lt, fun r cl hc => (has_define ..).2 (hh.has_env r cl hc)⟩

theorem follows_declare (env : FrameId) (h : Store) (f : FrameId) (s : SymbolId) :
    Follows env h (h.declare f s) := by
  rcases h.declare_eq f s with heq | ⟨-, heq⟩ <;> rw [heq]
  · exact .refl env h
  · exact follows_define ..

theorem follows_newClosure (env : FrameId) (h : Store) (f : Func) :
    Follows env h (h.newClosure ⟨f, env⟩).2 where
  frames_le := Nat.le_refl _
  grounded hh henv := by
    refine ⟨hh.parent_lt, fun r cl hc => ?_⟩
    rw [closure?, newClosure, Array.getElem?_push] at hc
    split at hc
    · obtain rfl := Option.some.inj hc
      exact henv
    · exact hh.has_env r cl hc

theorem follows_newArray (env : FrameId) (h : Store) (vs : Array Value) :
    Follows env h (h.newArray vs).2 :=
  .of_eq rfl rfl

theorem follows_newObject (env : FrameId) (h : Store) (o : Object) :
    Follows env h (h.newObject o).2 := .of_eq rfl rfl

theorem follows_modifyArray (env : FrameId) (h : Store) (r : ArrayRef)
    (f : Array Value → Array Value) :
    Follows env h (h.modifyArray r f) := .of_eq rfl rfl

theorem follows_modifyObject (env : FrameId) (h : Store) (r : ObjectRef) (f : Object → Object) :
    Follows env h (h.modifyObject r f) := .of_eq rfl rfl

theorem follows_newFrame (env : FrameId) (h : Store) : Follows env h (h.newFrame env).2 where
  frames_le := by simp
  grounded hh henv := by
    refine ⟨fun f p hp => ?_, fun r cl hc => (has_newFrame ..).2 (.inl (hh.has_env r cl hc))⟩
    rw [parent?_newFrame] at hp
    split at hp
    · next hf =>
      obtain rfl := Option.some.inj hp
      subst hf
      exact henv
    · exact hh.parent_lt f p hp

theorem has_newFrame_self (h : Store) (p : FrameId) : (h.newFrame p).2.Has (h.newFrame p).1 :=
  (has_newFrame ..).2 (.inr rfl)

end Store

/-! ## Outcomes within the budget -/

section

variable {c : Setting} {env : FrameId} {α β : Type}

/-- What ends with the step limit. -/
def Setting.outOfSteps (c : Setting) : Except Abrupt α :=
  .error (.fault (.stepLimit c.limits.steps))

/-- What an operation in this frame may lead to. -/
structure Machine.Leads (c : Setting) (env : FrameId) (m : Machine)
    (r : Except Abrupt α × Machine) : Prop where
  steps_le : m.steps ≤ r.2.steps
  budget : m.steps ≤ c.limits.steps → r.1 ≠ c.outOfSteps → r.2.steps ≤ c.limits.steps
  callDepth : r.2.callDepth = m.callDepth
  store : m.store.Follows env r.2.store

/-- What an operation keeps in this frame, wherever it starts. -/
structure Eval.Orderly (c : Setting) (env : FrameId) (x : Eval α) : Prop where
  leads : ∀ m : Machine, m.Leads c env (x.go m)

namespace Machine.Leads

variable {m n : Machine}

theorem same (r : Except Abrupt α) (hsteps : n.steps = m.steps) (hdepth : n.callDepth = m.callDepth)
    (hstore : m.store.Follows env n.store) : m.Leads c env (r, n) where
  steps_le := hsteps.ge
  budget h _ := by rwa [hsteps]
  callDepth := hdepth
  store := hstore

theorem trans {r : Except Abrupt α} {r' : Except Abrupt β × Machine} (h : m.Leads c env (r, n))
    (hr : r ≠ c.outOfSteps) (h' : n.Leads c env r') :
    m.Leads c env r' where
  steps_le := h.steps_le.trans h'.steps_le
  budget hm hne := h'.budget (h.budget hm hr) hne
  callDepth := h'.callDepth.trans h.callDepth
  store := h.store.trans h'.store

/-- An abrupt end that stands for another result. -/
theorem error {e : Abrupt} (h : m.Leads c env ((.error e : Except Abrupt α), n)) :
    m.Leads c env ((.error e : Except Abrupt β), n) where
  steps_le := h.steps_le
  budget hm hne := h.budget hm fun he => hne (by cases he; rfl)
  callDepth := h.callDepth
  store := h.store

end Machine.Leads

namespace Eval.Orderly

variable {x : Eval α}

theorem pure (a : α) : Orderly c env (pure a : Eval α) := ⟨fun _ => .same _ rfl rfl (.refl env _)⟩

theorem throw (e : Abrupt) : Orderly c env (throw e : Eval α) :=
  ⟨fun _ => .same _ rfl rfl (.refl env _)⟩

theorem bind {f : α → Eval β} (hx : Orderly c env x) (hf : ∀ a, Orderly c env (f a)) :
    Orderly c env (x >>= f) := by
  refine ⟨fun m => ?_⟩
  have hm := hx.leads m
  rw [go_bind]
  generalize x.go m = r at hm ⊢
  obtain ⟨e | a, n⟩ := r
  · exact hm.error
  · exact hm.trans nofun ((hf a).leads n)

theorem forM {f : α → Eval Unit} (hf : ∀ a, Orderly c env (f a)) :
    ∀ as : List α, Orderly c env (as.forM f)
  | [] => .pure ()
  | a :: as => (hf a).bind fun _ => forM hf as

theorem get : Orderly c env (get : Eval Machine) := ⟨fun _ => .same _ rfl rfl (.refl env _)⟩

theorem store : Orderly c env store := ⟨fun _ => .same _ rfl rfl (.refl env _)⟩

theorem text (v : Value) : Orderly c env (text v) := ⟨fun _ => .same _ rfl rfl (.refl env _)⟩

theorem ofDangling (r : Except Dangling α) : Orderly c env (ofDangling r) := by
  cases r with
  | ok a => exact .pure a
  | error d => exact .throw _

theorem onStore {f : Store → α × Store} (hf : ∀ h : Store, h.Follows env (f h).2) :
    Orderly c env (onStore f) :=
  ⟨fun m => .same _ rfl rfl (hf m.store)⟩

theorem modifyStore {f : Store → Store} (hf : ∀ h : Store, h.Follows env (f h)) :
    Orderly c env (modifyStore f) :=
  ⟨fun m => .same _ rfl rfl (hf m.store)⟩

theorem charge (k : Nat) : Orderly c env (charge c k) := by
  refine ⟨fun m => ?_⟩
  rw [go_charge]
  split
  · exact ⟨Nat.le_add_right _ _, fun _ hne => absurd rfl hne, rfl, .refl env _⟩
  · next hle => exact ⟨Nat.le_add_right _ _, fun _ _ => Nat.le_of_not_lt hle, rfl, .refl env _⟩

theorem tick : Orderly c env (tick c) := charge 1

theorem recordThrow : Orderly c env (recordThrow c) := by
  refine ⟨fun m => ?_⟩
  rw [go_recordThrow]
  dsimp only
  split
  · exact .same _ rfl rfl (.refl env _)
  · split <;> exact .same _ rfl rfl (.refl env _)

theorem raise (p : Position) (k : ErrorKind) (message : String) :
    Orderly c env (raise c p k message : Eval α) :=
  recordThrow.bind fun _ => (onStore fun h => h.follows_newObject env _).bind fun _ => .throw _

theorem raiseUnbound (p : Position) (name : String) :
    Orderly c env (raiseUnbound c p name : Eval α) :=
  raise ..

/-! ### Operations on values -/

theorem getProperty (p : Position) (o : Value) (key : String) :
    Orderly c env (getProperty c p o key) := by
  cases o with
  | undefined => exact .raise ..
  | null => exact .raise ..
  | array r =>
    refine store.bind fun h => ?_
    dsimp only
    split <;> exact .pure _
  | string s =>
    simp only [Eval.getProperty]
    split <;> exact .pure _
  | object r => exact store.bind fun h => .pure _
  | _ => exact .pure _

theorem grow (r : ArrayRef) (k : Nat) : Orderly c env (grow c r k) := by
  refine store.bind fun h => ?_
  dsimp only
  split
  · exact .charge _
  · exact .pure ()

theorem setElement (r : ArrayRef) (i : Nat) (v : Value) : Orderly c env (setElement c r i v) :=
  (grow ..).bind fun _ => (modifyStore fun h => h.follows_modifyArray ..).bind fun _ =>
    ⟨fun _ => .same _ rfl rfl (.refl env _)⟩

theorem setLength (r : ArrayRef) (k : Nat) : Orderly c env (setLength c r k) :=
  (grow ..).bind fun _ => modifyStore fun h => h.follows_modifyArray ..

theorem setProperty (p : Position) (o : Value) (key : String) (v : Value) :
    Orderly c env (setProperty c p o key v) := by
  cases o with
  | undefined => exact .raise ..
  | null => exact .raise ..
  | array r =>
    simp only [Eval.setProperty]
    split
    · split
      · exact .setLength ..
      · exact (text v).bind fun _ => .raise ..
    · split
      · exact .setElement ..
      · exact .pure ()
  | object r => exact modifyStore fun h => h.follows_modifyObject ..
  | _ => exact .pure ()

theorem deleteProperty (o : Value) (key : String) : Orderly c env (deleteProperty o key) := by
  cases o with
  | object r => exact modifyStore fun h => h.follows_modifyObject ..
  | array r =>
    simp only [Eval.deleteProperty]
    split
    · exact modifyStore fun h => h.follows_modifyArray ..
    · exact .pure ()
  | _ => exact .pure ()

theorem keys (v : Value) : Orderly c env (keys v) := by
  cases v with
  | object r => exact store.bind fun h => .pure _
  | array r => exact store.bind fun h => .pure _
  | _ => exact .pure _

theorem arithmetic (op : ArithOp) (l r : Value) : Orderly c env (arithmetic op l r) := by
  cases op with
  | add =>
    simp only [Eval.arithmetic]
    split
    · exact (text l).bind fun _ => (text r).bind fun _ => .pure _
    · exact .pure _
  | _ => exact .pure _

theorem hasProperty (p : Position) (key : String) (o : Value) :
    Orderly c env (hasProperty c p key o) := by
  cases o with
  | object r => exact store.bind fun h => .pure _
  | array r => exact store.bind fun h => .pure _
  | _ => exact .raise ..

theorem operate (p : Position) (op : EagerOp) (l r : Value) :
    Orderly c env (operate c p op l r) := by
  cases op with
  | instanceOf =>
    simp only [Eval.operate]
    split
    · exact store.bind fun h => .pure _
    · exact .raise ..
  | member => exact (text l).bind fun s => (hasProperty p s r).bind fun _ => .pure _
  | arith op => exact .arithmetic op l r
  | _ => exact .pure _

theorem makeError (k : ErrorKind) (args : List Value) : Orderly c env (makeError k args) := by
  have hnew (message : String) : Orderly c env (Eval.onStore (·.newError k message)) :=
    onStore fun h => h.follows_newObject env _
  simp only [Eval.makeError]
  split
  · exact (pure _).bind hnew
  · exact (pure _).bind hnew
  · exact (text _).bind hnew

/-! ### Places and frames -/

theorem memberKey (n : MemberName) : Orderly c env (memberKey c n) := by
  cases n with
  | symbol s => exact .ofDangling _
  | property p => exact .pure p

theorem bindIn (e f : FrameId) (s : SymbolId) (v : Value) : Orderly c env (bindIn e f s v) := by
  refine modifyStore fun h => ?_
  split <;> exact h.follows_define ..

theorem read (p : Position) (e : FrameId) (r : Reference) : Orderly c env (read c p e r) := by
  cases r with
  | binding s =>
    refine store.bind fun h => ?_
    split
    · exact .pure _
    · exact (ofDangling _).bind fun _ => .raiseUnbound ..
  | property o k => exact .getProperty ..

theorem write (p : Position) (e : FrameId) (r : Reference) (v : Value) :
    Orderly c env (write c p e r v) := by
  cases r with
  | binding s => exact .bindIn ..
  | property o k => exact .setProperty ..

theorem closure (f : Func) : Orderly c env (closure f env) :=
  onStore fun h => h.follows_newClosure env f

theorem hoist (body : List Stmt) : Orderly c env (hoist body env) :=
  (forM (fun s => modifyStore fun h => h.follows_declare env env s) _).bind fun _ =>
    forM (fun (s, f) => (closure f).bind fun v => modifyStore fun h => h.follows_define env env s v)
      _

end Eval.Orderly

/-! ## Entering a function -/

/-- What is bound in the new frame of a call. -/
def bindFrame (f : Closure) (args : List Value) (B : FrameId) : Eval FrameId := do
  f.func.params.zipIdx.forM fun (s, i) => modifyStore (·.define B s (args[i]?.getD .undefined))
  hoist f.func.body.stmts B
  return B

theorem go_prepare (f : Closure) (args : List Value) (m : Machine) : (prepare f args).go m =
    (bindFrame f args (m.store.newFrame f.env).1).go (m.setStore (m.store.newFrame f.env).2) := rfl

theorem orderly_bindFrame (f : Closure) (args : List Value) (B : FrameId) :
    Orderly c B (bindFrame f args B) :=
  (Orderly.forM (fun (s, _) => .modifyStore fun h => h.follows_define B B s _) _).bind fun _ =>
    (Orderly.hoist _).bind fun _ => .pure B

theorem steps_le_prepare (f : Closure) (args : List Value) (m : Machine) :
    m.steps ≤ ((prepare f args).go m).2.steps := by
  rw [go_prepare]
  exact ((orderly_bindFrame f args _).leads (c := ⟨⟨#[], #[]⟩, none, {}⟩) (m.setStore _)).steps_le

end

end FrameLedger
