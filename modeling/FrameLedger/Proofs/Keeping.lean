import FrameLedger.Proofs.Termination

/-!
# What evaluation keeps

Frames are made and never taken away, and neither are their bindings (`Store.Keeps`). A function
with a name is bound to it in the frame that it is made in (`Store.Named`). `Task.within`: wherever
a task stands, so far nothing that was bound is lost and calls nest no deeper than they may;
whatever it asks for starts with every function bound to its name.
-/

namespace FrameLedger

open Eval

namespace Store

variable {h h' h'' : Store}

/-- Frames stay where they are and keep their bindings, though not the values. Functions stay what
they are. -/
structure Keeps (h h' : Store) : Prop where
  has : ∀ f, h.Has f → h'.Has f
  parent? : ∀ f, h.Has f → h'.parent? f = h.parent? f
  bound : ∀ f s, (h.local? f s).isSome → (h'.local? f s).isSome
  closure? : ∀ r cl, h.closure? r = some cl → h'.closure? r = some cl

theorem Keeps.refl (h : Store) : h.Keeps h :=
  ⟨fun _ => id, fun _ _ => rfl, fun _ _ => id, fun _ _ => id⟩

theorem Keeps.trans (a : h.Keeps h') (b : h'.Keeps h'') : h.Keeps h'' where
  has f hf := b.has f (a.has f hf)
  parent? f hf := (b.parent? f (a.has f hf)).trans (a.parent? f hf)
  bound f s hs := b.bound f s (a.bound f s hs)
  closure? r cl hr := b.closure? r cl (a.closure? r cl hr)

theorem isSome_ownerWithin_of_keeps (hk : h.Keeps h') (s : SymbolId) :
    ∀ (fuel : Nat) (f : FrameId), (h.ownerWithin s fuel f).isSome → (h'.ownerWithin s fuel f).isSome
  | 0, _, ho => ho
  | fuel + 1, f, ho => by
    rcases hs' : h'.local? f s with _ | v
    · rcases hs : h.local? f s with _ | w
      · rcases hp : h.parent? f with _ | p
        · rw [ownerWithin_of_no_parent hs hp] at ho
          cases ho
        · rw [ownerWithin_of_parent? hs hp] at ho
          rw [ownerWithin_of_parent? hs' ((hk.parent? f (has_of_parent? hp)).trans hp)]
          exact isSome_ownerWithin_of_keeps hk s fuel p ho
      · have := hk.bound f s (by simp [hs])
        rw [hs'] at this
        cases this
    · rw [ownerWithin_of_local? (by simp [hs'])]
      rfl

theorem isSome_lookup_iff (h : Store) (f : FrameId) (s : SymbolId) :
    (h.lookup f s).isSome ↔ (h.owner? f s).isSome := by
  rcases ho : h.owner? f s with _ | g
  · simp [lookup, ho]
  · simpa [lookup_eq_of_owner? ho] using isSome_of_owner? s ho

/-- What is bound in an environment stays bound in it. -/
theorem Keeps.lookup (hk : h.Keeps h') {f : FrameId} {s : SymbolId} (hs : (h.lookup f s).isSome) :
    (h'.lookup f s).isSome := by
  rw [isSome_lookup_iff] at hs ⊢
  exact isSome_ownerWithin_of_keeps hk s _ f hs

theorem keeps_define (h : Store) (f : FrameId) (s : SymbolId) (v : Value) :
    h.Keeps (h.define f s v) where
  has _ := (has_define ..).2
  parent? _ _ := parent?_define ..
  bound _ _ := isSome_local?_define _ _ _ _
  closure? _ _ := id

theorem keeps_newFrame (h : Store) (p : FrameId) : h.Keeps (h.newFrame p).2 where
  has _ hg := (has_newFrame ..).2 (.inl hg)
  parent? g hg := by
    rw [parent?_newFrame, if_neg]
    rintro rfl
    exact not_has_newFrame h p hg
  bound g s hs := by rwa [local?_newFrame]
  closure? _ _ := id

theorem keeps_newClosure (h : Store) (cl : Closure) : h.Keeps (h.newClosure cl).2 where
  has _ := id
  parent? _ _ := rfl
  bound _ _ := id
  closure? r _ hr := by
    have hlt := (Array.getElem?_eq_some_iff.1 hr).1
    rwa [Store.closure?, newClosure, Array.getElem?_push, if_neg (Nat.ne_of_lt hlt)]

/-- What is bound in the frame that a frame stands under is bound in its environment. -/
theorem isSome_lookup_of_parent? {f p : FrameId} {s : SymbolId} (hroot : h.parent? globals = none)
    (hp : h.parent? f = some p) (hs : (h.local? p s).isSome) : (h.lookup f s).isSome := by
  rw [isSome_lookup_iff, owner?]
  rcases hf : h.local? f s with _ | v
  · rw [ownerWithin_of_parent? hf hp]
    obtain ⟨_ | i⟩ := f
    · exact absurd (hroot.symm.trans hp) (by simp)
    · rw [ownerWithin_of_local? hs]
      rfl
  · rw [ownerWithin_of_local? (by simp [hf])]
    rfl

/-- Every function that has a name is bound to it where it was made, or something else is by now. -/
def Named (h : Store) : Prop :=
  ∀ r cl s, h.closure? r = some cl → cl.func.name = some s → (h.local? cl.env s).isSome

/-- No function is made. -/
structure Quiet (h h' : Store) : Prop extends h.Keeps h' where
  closures : h'.closures = h.closures

theorem Quiet.refl (h : Store) : h.Quiet h := ⟨.refl h, rfl⟩

theorem Quiet.trans (a : h.Quiet h') (b : h'.Quiet h'') : h.Quiet h'' :=
  ⟨a.toKeeps.trans b.toKeeps, b.closures.trans a.closures⟩

theorem Quiet.of_eq (hframes : h'.frames = h.frames) (hclosures : h'.closures = h.closures) :
    h.Quiet h' where
  has f hf := by rwa [Has, hframes]
  parent? f _ := by rw [Store.parent?, hframes, Store.parent?]
  bound f s hs := by rwa [local?, bindings, hframes]
  closure? r cl hr := by rwa [Store.closure?, hclosures]
  closures := hclosures

theorem Quiet.named (hq : h.Quiet h') (hn : h.Named) : h'.Named := by
  intro r cl s hr hs
  rw [Store.closure?, hq.closures] at hr
  exact hq.bound _ _ (hn r cl s hr hs)

theorem quiet_define (h : Store) (f : FrameId) (s : SymbolId) (v : Value) :
    h.Quiet (h.define f s v) :=
  ⟨keeps_define h f s v, rfl⟩

theorem quiet_newArray (h : Store) (vs : Array Value) : h.Quiet (h.newArray vs).2 := .of_eq rfl rfl

theorem quiet_newObject (h : Store) (o : Object) : h.Quiet (h.newObject o).2 := .of_eq rfl rfl

theorem quiet_modifyArray (h : Store) (r : ArrayRef) (f : Array Value → Array Value) :
    h.Quiet (h.modifyArray r f) :=
  .of_eq rfl rfl

theorem quiet_modifyObject (h : Store) (r : ObjectRef) (f : Object → Object) :
    h.Quiet (h.modifyObject r f) :=
  .of_eq rfl rfl

theorem quiet_declare (h : Store) (f : FrameId) (s : SymbolId) : h.Quiet (h.declare f s) := by
  rcases h.declare_eq f s with heq | ⟨-, heq⟩ <;> rw [heq]
  · exact .refl h
  · exact quiet_define ..

/-- A function is bound to its name where it is made. -/
theorem Named.bindClosure (hn : h.Named) {env : FrameId} (henv : h.Has env) {f : Func}
    {s : SymbolId} (hs : f.name = some s) (v : Value) :
    ((h.newClosure ⟨f, env⟩).2.define env s v).Named := by
  intro r cl t hr ht
  rw [closure?, define_closures, newClosure, Array.getElem?_push] at hr
  split at hr
  · obtain rfl := Option.some.inj hr
    obtain rfl := Option.some.inj (hs.symm.trans ht)
    have henv : (h.newClosure ⟨f, env⟩).2.Has env := henv
    rw [local?_define, if_pos ⟨rfl, rfl, henv⟩]
    rfl
  · exact isSome_local?_define _ _ _ _ (hn r cl t hr ht)

theorem Named.newClosure (hn : h.Named) {env : FrameId} {f : Func} (hs : f.name = none) :
    (h.newClosure ⟨f, env⟩).2.Named := by
  intro r cl t hr ht
  rw [closure?, Store.newClosure, Array.getElem?_push] at hr
  split at hr
  · obtain rfl := Option.some.inj hr
    rw [hs] at ht
    cases ht
  · exact hn r cl t hr ht

end Store

/-! ## Operations -/

/-- The computation makes no function, takes no binding away and leaves every call that it
enters. -/
structure Eval.Quiet {α : Type} (x : Eval α) : Prop where
  stores : ∀ m : Machine, m.store.Quiet (x.go m).2.store
  callDepth : ∀ m : Machine, (x.go m).2.callDepth = m.callDepth

namespace Eval.Quiet

variable {α β : Type} {c : Setting} {x : Eval α}

theorem same (hstore : ∀ m : Machine, (x.go m).2.store = m.store)
    (hdepth : ∀ m : Machine, (x.go m).2.callDepth = m.callDepth) : Quiet x :=
  ⟨fun m => hstore m ▸ .refl _, hdepth⟩

theorem pure (a : α) : Quiet (pure a : Eval α) := same (fun _ => rfl) fun _ => rfl

theorem throw (e : Abrupt) : Quiet (throw e : Eval α) := same (fun _ => rfl) fun _ => rfl

theorem store : Quiet store := same (fun _ => rfl) fun _ => rfl

theorem text (v : Value) : Quiet (text v) := same (fun _ => rfl) fun _ => rfl

theorem bind {f : α → Eval β} (hx : Quiet x) (hf : ∀ a, Quiet (f a)) : Quiet (x >>= f) := by
  refine ⟨fun m => ?_, fun m => ?_⟩ <;> rw [go_bind]
  · have hm := hx.stores m
    generalize x.go m = r at hm ⊢
    obtain ⟨e | a, n⟩ := r
    · exact hm
    · exact hm.trans ((hf a).stores n)
  · have hm := hx.callDepth m
    generalize x.go m = r at hm ⊢
    obtain ⟨e | a, n⟩ := r
    · exact hm
    · exact ((hf a).callDepth n).trans hm

theorem onStore {f : Store → α × Store} (hf : ∀ h : Store, h.Quiet (f h).2) : Quiet (onStore f) :=
  ⟨fun m => hf m.store, fun _ => rfl⟩

theorem modifyStore {f : Store → Store} (hf : ∀ h : Store, h.Quiet (f h)) : Quiet (modifyStore f) :=
  ⟨fun m => hf m.store, fun _ => rfl⟩

theorem ofDangling (r : Except Dangling α) : Quiet (ofDangling r) := by
  cases r with
  | ok a => exact .pure a
  | error d => exact .throw _

theorem charge (k : Nat) : Quiet (charge c k) := by
  refine same (fun m => ?_) fun m => ?_ <;> rw [go_charge] <;> split <;> rfl

theorem tick : Quiet (tick c) := charge 1

theorem recordThrow : Quiet (recordThrow c) := by
  refine same (fun m => ?_) fun m => ?_ <;> rw [go_recordThrow] <;> dsimp only <;> split
  · rfl
  · split <;> rfl
  · rfl
  · split <;> rfl

theorem raise (p : Position) (k : ErrorKind) (message : String) :
    Quiet (raise c p k message : Eval α) :=
  recordThrow.bind fun _ => (onStore fun h => h.quiet_newObject _).bind fun _ => .throw _

theorem getProperty (p : Position) (o : Value) (key : String) : Quiet (getProperty c p o key) := by
  cases o with
  | undefined => exact .raise ..
  | null => exact .raise ..
  | array r =>
    refine store.bind fun h => ?_
    dsimp only
    split <;> exact .pure _
  | string s =>
    simp only [Eval.getProperty]
    split <;> exact .pure _
  | object r => exact store.bind fun h => .pure _
  | _ => exact .pure _

theorem grow (r : ArrayRef) (k : Nat) : Quiet (grow c r k) := by
  refine store.bind fun h => ?_
  dsimp only
  split
  · exact .charge _
  · exact .pure ()

theorem setProperty (p : Position) (o : Value) (key : String) (v : Value) :
    Quiet (setProperty c p o key v) := by
  cases o with
  | undefined => exact .raise ..
  | null => exact .raise ..
  | array r =>
    simp only [Eval.setProperty]
    split
    · split
      · exact (grow ..).bind fun _ => modifyStore fun h => h.quiet_modifyArray ..
      · exact (text v).bind fun _ => .raise ..
    · split
      · exact (grow ..).bind fun _ => (modifyStore fun h => h.quiet_modifyArray ..).bind fun _ =>
          same (fun _ => rfl) fun _ => rfl
      · exact .pure ()
  | object r => exact modifyStore fun h => h.quiet_modifyObject ..
  | _ => exact .pure ()

theorem deleteProperty (o : Value) (key : String) : Quiet (deleteProperty o key) := by
  cases o with
  | object r => exact modifyStore fun h => h.quiet_modifyObject ..
  | array r =>
    simp only [Eval.deleteProperty]
    split
    · exact modifyStore fun h => h.quiet_modifyArray ..
    · exact .pure ()
  | _ => exact .pure ()

theorem keys (v : Value) : Quiet (keys v) := by
  cases v with
  | object r => exact store.bind fun h => .pure _
  | array r => exact store.bind fun h => .pure _
  | _ => exact .pure _

theorem arithmetic (op : ArithOp) (l r : Value) : Quiet (arithmetic op l r) := by
  cases op with
  | add =>
    simp only [Eval.arithmetic]
    split
    · exact (text l).bind fun _ => (text r).bind fun _ => .pure _
    · exact .pure _
  | _ => exact .pure _

theorem hasProperty (p : Position) (key : String) (o : Value) : Quiet (hasProperty c p key o) := by
  cases o with
  | object r => exact store.bind fun h => .pure _
  | array r => exact store.bind fun h => .pure _
  | _ => exact .raise ..

theorem operate (p : Position) (op : EagerOp) (l r : Value) : Quiet (operate c p op l r) := by
  cases op with
  | instanceOf =>
    simp only [Eval.operate]
    split
    · exact store.bind fun h => .pure _
    · exact .raise ..
  | member => exact (text l).bind fun s => (hasProperty p s r).bind fun _ => .pure _
  | arith op => exact .arithmetic op l r
  | _ => exact .pure _

theorem makeError (k : ErrorKind) (args : List Value) : Quiet (makeError k args) := by
  have hnew (message : String) : Quiet (Eval.onStore (·.newError k message)) :=
    onStore fun h => h.quiet_newObject _
  simp only [Eval.makeError]
  split
  · exact (pure _).bind hnew
  · exact (pure _).bind hnew
  · exact (text _).bind hnew

theorem memberKey (n : MemberName) : Quiet (memberKey c n) := by
  cases n with
  | symbol s => exact .ofDangling _
  | property p => exact .pure p

theorem bindIn (e f : FrameId) (s : SymbolId) (v : Value) : Quiet (bindIn e f s v) := by
  refine modifyStore fun h => ?_
  split <;> exact h.quiet_define ..

theorem read (p : Position) (e : FrameId) (r : Reference) : Quiet (read c p e r) := by
  cases r with
  | binding s =>
    refine store.bind fun h => ?_
    split
    · exact .pure _
    · exact (ofDangling _).bind fun _ => .raise ..
  | property o k => exact .getProperty ..

theorem write (p : Position) (e : FrameId) (r : Reference) (v : Value) :
    Quiet (write c p e r v) := by
  cases r with
  | binding s => exact .bindIn ..
  | property o k => exact .setProperty ..

end Eval.Quiet

/-! ## Binding what a body declares -/

/-- Keeps what is bound, also in the frame itself, and leaves every function bound to its name. -/
structure Machine.Binds (env : FrameId) (m n : Machine) : Prop where
  keeps : m.store.Keeps n.store
  named : m.store.Named → m.store.Has env → n.store.Named
  callDepth : n.callDepth = m.callDepth

namespace Machine.Binds

variable {env : FrameId} {m n k : Machine}

theorem trans (a : m.Binds env n) (b : n.Binds env k) : m.Binds env k where
  keeps := a.keeps.trans b.keeps
  named hn henv := b.named (a.named hn henv) (a.keeps.has _ henv)
  callDepth := b.callDepth.trans a.callDepth

theorem of_quiet {α : Type} {x : Eval α} (hx : x.Quiet) (m : Machine) : m.Binds env (x.go m).2 :=
  ⟨(hx.stores m).toKeeps, fun hn _ => (hx.stores m).named hn, hx.callDepth m⟩

end Machine.Binds

/-- Comes to this value, with what was bound still bound. -/
def Eval.Binding {α : Type} (env : FrameId) (x : Eval α) (a : α) : Prop :=
  ∀ m, ∃ n, x.go m = (.ok a, n) ∧ m.Binds env n

namespace Eval.Binding

variable {α β : Type} {env : FrameId}

theorem pure (a : α) : Binding env (pure a) a := fun m => ⟨m, rfl, .refl _, fun hn _ => hn, rfl⟩

theorem bind {x : Eval α} {f : α → Eval β} {a : α} {b : β} (hx : Binding env x a)
    (hf : Binding env (f a) b) :
    Binding env (x >>= f) b := by
  intro m
  obtain ⟨n, hgo, hn⟩ := hx m
  obtain ⟨k, hgo', hk⟩ := hf n
  refine ⟨k, ?_, hn.trans hk⟩
  rw [go_bind, hgo]
  exact hgo'

theorem forM {f : α → Eval Unit} : ∀ (as : List α), (∀ a ∈ as, Binding env (f a) ()) →
    Binding env (as.forM f) ()
  | [], _ => .pure ()
  | _ :: as, hf => bind (List.forall_mem_cons.1 hf).1 (forM as (List.forall_mem_cons.1 hf).2)

end Eval.Binding

theorem Stmt.declaration?_name {a : Stmt} {s : SymbolId} {f : Func}
    (h : a.declaration? = some (s, f)) :
    f.name = some s := by
  unfold Stmt.declaration? at h
  split at h
  · obtain ⟨_, hs, h⟩ := Option.map_eq_some_iff.1 h
    cases h
    exact hs
  · cases h

theorem Eval.binds_hoist (body : List Stmt) (env : FrameId) : Binding env (hoist body env) () := by
  refine .bind (.forM _ fun s _ m => ?_) (.forM _ fun d hd m => ?_)
  · exact ⟨_, rfl, .of_quiet (.modifyStore fun h => h.quiet_declare env s) m⟩
  · obtain ⟨a, -, ha⟩ := List.mem_filterMap.1 hd
    exact ⟨_, rfl, (m.store.keeps_newClosure ⟨d.2, env⟩).trans (Store.keeps_define ..),
      fun hnamed henv => hnamed.bindClosure henv (Stmt.declaration?_name ha) _, rfl⟩

/-! ## Code -/

/-- A machine at work in this frame, with so many calls nested: nothing that was bound in the first
store is lost, and functions are bound to their names. -/
structure Machine.Fit (c : Setting) (h₀ : Store) (env : FrameId) (d : Nat) (m : Machine) :
    Prop where
  keeps : h₀.Keeps m.store
  has : m.store.Has env
  has_globals : m.store.Has Store.globals
  rooted : m.store.parent? Store.globals = none
  named : m.store.Named
  callDepth : m.callDepth = d
  calls : d ≤ c.limits.calls

section

variable {α β : Type} {c : Setting} {h₀ : Store} {env : FrameId} {d : Nat} {m n : Machine}

theorem Machine.Fit.self (hm : m.Fit c h₀ env d) : m.Fit c m.store env m.callDepth :=
  { hm with keeps := .refl _, callDepth := rfl, calls := hm.callDepth ▸ hm.calls }

theorem Machine.Fit.binds (hm : m.Fit c h₀ env d) (hn : m.Binds env n) : n.Fit c h₀ env d where
  keeps := hm.keeps.trans hn.keeps
  has := hn.keeps.has _ hm.has
  has_globals := hn.keeps.has _ hm.has_globals
  rooted := (hn.keeps.parent? _ hm.has_globals).trans hm.rooted
  named := hn.named hm.named hm.has
  callDepth := hn.callDepth.trans hm.callDepth
  calls := hm.calls

/-- Work in another frame that has come to its end. -/
theorem Machine.Fit.resume {inner : FrameId} (hm : m.Fit c h₀ env d)
    (hn : n.Fit c m.store inner m.callDepth) :
    n.Fit c h₀ env d where
  keeps := hm.keeps.trans hn.keeps
  has := hn.keeps.has _ hm.has
  has_globals := hn.has_globals
  rooted := hn.rooted
  named := hn.named
  callDepth := hn.callDepth.trans hm.callDepth
  calls := hm.calls

/-- At every point, nothing that was bound is lost and calls nest no deeper than they may; a task
that is asked for starts from a machine that fits, and is relied upon to leave one. In the end,
`post` holds. -/
def Code.Sound (c : Setting) (post : Except Abrupt α → Machine → Prop) : Code α → Machine → Prop
  | .ret r, m => post r m
  | .perform _ x next, m => m.store.Keeps (x.go m).2.store ∧ (x.go m).2.callDepth ≤ c.limits.calls ∧
    (next (x.go m).1).Sound c post (x.go m).2
  | .ask t next, m => m.Fit c m.store t.frame m.callDepth ∧
    ∀ r n, n.Fit c m.store t.frame m.callDepth → (next r).Sound c post n

namespace Code

theorem Sound.bind {x : Code α} {f : α → Code β} {P : Except Abrupt α → Machine → Prop}
    {Q : Except Abrupt β → Machine → Prop} (hx : x.Sound c P m)
    (hok : ∀ a n, P (.ok a) n → (f a).Sound c Q n)
    (herror : ∀ e n, P (.error e) n → Q (.error e) n) : (x >>= f).Sound c Q m := by
  induction x generalizing m with
  | ret r =>
    cases r with
    | ok a => exact hok a m hx
    | error e => exact herror e m hx
  | perform shown y next ih => exact ⟨hx.1, hx.2.1, ih _ hx.2.2⟩
  | ask t next ih => exact ⟨hx.1, fun r n hn => ih r (hx.2 r n hn)⟩

theorem Sound.attempt_mono {x : Code α} {P : Except Abrupt α → Machine → Prop}
    {Q : Except Abrupt (Except Abrupt α) → Machine → Prop} (hx : x.Sound c P m)
    (h : ∀ r n, P r n → Q (.ok r) n) :
    x.attempt.Sound c Q m := by
  induction x generalizing m with
  | ret r => exact h r m hx
  | perform shown y next ih => exact ⟨hx.1, hx.2.1, ih _ hx.2.2⟩
  | ask t next ih => exact ⟨hx.1, fun r n hn => ih r (hx.2 r n hn)⟩

/-- The code does its work in this frame, wherever it starts. -/
structure Within (c : Setting) (h₀ : Store) (env : FrameId) (d : Nat) (x : Code α) : Prop where
  sound : ∀ m : Machine, m.Fit c h₀ env d → x.Sound c (fun _ n => n.Fit c h₀ env d) m

namespace Within

variable {x : Code α} {y : Eval α}

theorem ret (r : Except Abrupt α) : Within c h₀ env d (.ret r) := ⟨fun _ hm => hm⟩

theorem pure (a : α) : Within c h₀ env d (pure a : Code α) := ret _

theorem bind {f : α → Code β} (hx : Within c h₀ env d x) (hf : ∀ a, Within c h₀ env d (f a)) :
    Within c h₀ env d (x >>= f) :=
  ⟨fun m hm => (hx.sound m hm).bind (fun a => (hf a).sound) fun _ _ hn => hn⟩

theorem attempt (hx : Within c h₀ env d x) : Within c h₀ env d x.attempt :=
  ⟨fun m hm => (hx.sound m hm).attempt_mono fun _ _ hn => hn⟩

theorem perform (hy : ∀ m : Machine, m.Binds env (y.go m).2) (vs : List Value) :
    Within c h₀ env d (Code.act c vs y) := ⟨fun m hm =>
  have hn := hm.binds (hy m)
  ⟨(hy m).keeps, hn.callDepth ▸ hm.calls, hn⟩⟩

theorem act (hy : y.Quiet) (vs : List Value) : Within c h₀ env d (Code.act c vs y) :=
  perform (.of_quiet hy) vs

theorem request {t : Task α} (ht : t.frame = env) : Within c h₀ env d (Code.request t) :=
  ⟨fun _ hm => ⟨ht ▸ hm.self, fun _ _ hn => hm.resume hn⟩⟩

theorem call (v : Value) (args : List Value) (p : Position) :
    Within c h₀ env d (Code.request (.call v args p)) :=
  ⟨fun _ hm => ⟨{ hm.self with has := hm.has_globals }, fun _ _ hn => hm.resume hn⟩⟩

theorem together {e : Store → List Event → Except Abrupt α → Store → Event}
    (hx : Within c h₀ env d x) :
    Within c h₀ env d (Code.together c e x) :=
  (act (.same (fun _ => rfl) fun _ => rfl) _).bind fun _ => hx.attempt.bind fun _ =>
    (act (.same (fun _ => rfl) fun _ => rfl) _).bind fun _ => ret _

theorem again {t : Task Flow} {turn : Code (Option Flow)} (ht : t.frame = env)
    (hx : Within c h₀ env d turn) :
    Within c h₀ env d (Code.again t turn) := by
  refine hx.bind fun o => ?_
  cases o with
  | none => exact request ht
  | some flow => exact pure flow

/-! ### Expressions -/

theorem update (p q : Position) (r : Reference) (amount : Float) :
    Within c h₀ env d (Code.update c p q env r amount) :=
  (act (.read ..) _).bind fun _ => (act (.write ..) _).bind fun _ => pure _

theorem construct (p : Position) (e : Expr) (ctor : Value) (args : List Value) :
    Within c h₀ env d (Code.construct c p e ctor args) := by
  cases ctor with
  | native k => exact (act .tick _).bind fun _ => act (.makeError ..) _
  | function r =>
    refine (call ..).bind fun v => ?_
    cases v with
    | object q => exact pure _
    | array q => exact pure _
    | _ => exact act (.onStore fun h => h.quiet_newObject _) _
  | _ => exact (act (.ofDangling _) _).bind fun _ => act (.raise ..) _

/-- A function is bound to its name before anything else happens. -/
theorem func (p : Position) (f : Func) : Within c h₀ env d ((Expr.func p f).code c env) := by
  refine ⟨fun m hm => ?_⟩
  have hkeeps := m.store.keeps_newClosure ⟨f, env⟩
  refine ⟨hkeeps, hm.callDepth ▸ hm.calls, ?_⟩
  cases hs : f.name with
  | none => exact hm.binds ⟨hkeeps, fun hn _ => hn.newClosure hs, rfl⟩
  | some s =>
    have hdefine := (m.store.newClosure ⟨f, env⟩).2.keeps_define env s
      (m.store.newClosure ⟨f, env⟩).1
    refine ⟨hdefine, hm.callDepth ▸ hm.calls, ?_⟩
    exact hm.binds ⟨hkeeps.trans hdefine, fun hn henv => hn.bindClosure henv hs _, rfl⟩

theorem expr (e : Expr) : Within c h₀ env d (e.code c env) := by
  cases e with
  | var p s => exact act (.read ..) _
  | bare p name => exact act (.raise ..) _
  | member p q n =>
    exact (request (by rfl)).bind fun _ => (act (.memberKey n) _).bind fun _ =>
      act (.getProperty ..) _
  | index p a i =>
    exact (request (by rfl)).bind fun _ => (request (by rfl)).bind fun _ =>
      (act (.text _) _).bind fun _ => act (.getProperty ..) _
  | call p f as =>
    refine (request (by rfl)).bind fun callee => (request (by rfl)).bind fun args => ?_
    split
    · exact call ..
    · exact (act (.ofDangling _) _).bind fun _ => act (.raise ..) _
  | new p f as =>
    exact (request (by rfl)).bind fun _ => (request (by rfl)).bind fun _ => construct ..
  | prefixed p op x =>
    have hx : Within c h₀ env d (Code.request (.eval x env)) := request (by rfl)
    have href : Within c h₀ env d (Code.request (.refer x env)) := request (by rfl)
    cases op with
    | inc | dec => exact href.bind fun r => (update ..).bind fun _ => pure _
    | typeof =>
      simp only [Expr.code]
      cases x.symbol? with
      | some s => exact (act .store _).bind fun _ => pure _
      | none => exact hx.bind fun _ => pure _
    | delete =>
      cases x with
      | var | bare => exact pure _
      | member | index =>
        refine href.bind fun r => ?_
        cases r with
        | binding s => exact pure _
        | property o k => exact (act (.deleteProperty o k) _).bind fun _ => pure _
      | _ => exact hx.bind fun _ => pure _
    | neg | plus | not | void => exact hx.bind fun _ => pure _
  | postfixed p op x =>
    refine (request (by rfl)).bind fun r => ?_
    cases op <;> exact (update ..).bind fun _ => pure _
  | binary p op l r =>
    have hl : Within c h₀ env d (Code.request (.eval l env)) := request (by rfl)
    have hr : Within c h₀ env d (Code.request (.eval r env)) := request (by rfl)
    have href : Within c h₀ env d (Code.request (.refer l env)) := request (by rfl)
    cases op with
    | assign => exact href.bind fun _ => hr.bind fun _ => (act (.write ..) _).bind fun _ => pure _
    | assignWith op =>
      exact href.bind fun _ => (act (.read ..) _).bind fun _ => hr.bind fun _ =>
        (act (.arithmetic ..) _).bind fun _ => (act (.write ..) _).bind fun _ => pure _
    | comma => exact hl.bind fun _ => hr
    | or =>
      refine hl.bind fun v => ?_
      split
      · exact pure _
      · exact hr
    | and =>
      refine hl.bind fun v => ?_
      split
      · exact hr
      · exact pure _
    | eager op => exact hl.bind fun _ => hr.bind fun _ => act (.operate ..) _
  | cond _ t yes no =>
    refine (request (by rfl)).bind fun v => ?_
    split <;> exact request (by rfl)
  | literal _ l => exact pure _
  | array _ es =>
    exact (request (by rfl)).bind fun _ => act (.onStore fun h => h.quiet_newArray _) _
  | object _ ps =>
    exact (request (by rfl)).bind fun _ => act (.onStore fun h => h.quiet_newObject _) _
  | func p f => exact func p f

theorem reference (e : Expr) : Within c h₀ env d (e.referenceCode c env) := by
  cases e with
  | var _ s => exact pure _
  | member _ q n =>
    exact (request (by rfl)).bind fun _ => (act (.memberKey n) _).bind fun _ => pure _
  | index _ a i =>
    exact (request (by rfl)).bind fun _ => (request (by rfl)).bind fun _ =>
      (act (.text _) _).bind fun _ => pure _
  | bare p name => exact act (.raise ..) _
  | _ => exact act (.raise ..) _

/-! ### Statements -/

theorem optional (e : Option Expr) : Within c h₀ env d (Code.optional e env) := by
  cases e with
  | none => exact pure _
  | some e => exact request (by rfl)

theorem holds (t : Option Expr) : Within c h₀ env d (Code.holds t env) := by
  cases t with
  | none => exact pure _
  | some e => exact (request (by rfl)).bind fun _ => pure _

theorem starting (init : Option ForInit) : Within c h₀ env d (Code.start init env) := by
  obtain _ | ds | e := init
  · exact pure _
  · exact request (by rfl)
  · exact (request (by rfl)).bind fun _ => pure _

/-- A catch clause has a frame of its own. -/
theorem handle (cs : List Catch) (r : Except Abrupt Flow) :
    Within c h₀ env d (Code.handle c cs r env) := by
  match cs, r with
  | [], r => exact pure _
  | ⟨_, _, ⟨_, _⟩, _⟩ :: _, .ok _ => exact pure _
  | ⟨_, _, ⟨_, _⟩, _⟩ :: _, .error (.fault _) => exact pure _
  | ⟨param, _, ⟨ss, _⟩, _⟩ :: _, .error (.thrown v _) =>
    refine ⟨fun m hm => ?_⟩
    have hkeeps := m.store.keeps_newFrame env
    have hquiet : m.store.Quiet (m.store.newFrame env).2 := ⟨hkeeps, rfl⟩
    have hn :=
      hm.binds (n := m.setStore (m.store.newFrame env).2) ⟨hkeeps, fun h _ => hquiet.named h, rfl⟩
    have hbody : Within c (m.store.newFrame env).2 (m.store.newFrame env).1 m.callDepth (do
        Code.act c [] (modifyStore (·.define (m.store.newFrame env).1 param v))
        Code.request (.execAll ss (m.store.newFrame env).1)) :=
      (act (.modifyStore fun h => h.quiet_define ..) _).bind fun _ => request (by rfl)
    refine ⟨hkeeps, hn.callDepth ▸ hm.calls, ?_⟩
    have hclause := hbody.sound _ { hn.self with has := m.store.has_newFrame_self env }
    exact hclause.attempt_mono fun _ _ hk => hn.resume hk

theorem finish (cleanup : Option Block) (r : Except Abrupt Flow) :
    Within c h₀ env d (Code.finish cleanup r env) := by
  match cleanup, r with
  | none, r => exact ret r
  | some _, .error (.fault f) => exact ret _
  | some ⟨ss, _⟩, .error (.thrown ..) | some ⟨ss, _⟩, .ok _ =>
    refine (request (by rfl)).bind fun flow => ?_
    cases flow <;> exact ret _

theorem stmt (a : Stmt) (label : Option String) : Within c h₀ env d (a.code c label env) := by
  cases a with
  | expr _ e =>
    simp only [Stmt.code]
    split
    · exact pure _
    · exact (request (by rfl)).bind fun _ => pure _
  | vars _ ds => exact (request (by rfl)).bind fun _ => pure _
  | ret _ e => exact (together (optional e)).bind fun _ => pure _
  | raise p e =>
    exact (request (by rfl)).bind fun _ => act (Quiet.recordThrow.bind fun _ => .throw _) _
  | branch _ t yes no =>
    refine (request (by rfl)).bind fun v => ?_
    split
    · exact (act .tick _).bind fun _ => request (by rfl)
    · cases no with
      | none => exact pure _
      | some s => exact (act .tick _).bind fun _ => request (by rfl)
  | whileLoop p t b =>
    refine again rfl ((request (by rfl)).bind fun v => ?_)
    split
    · exact (act .tick _).bind fun _ => (request (by rfl)).bind fun _ => pure _
    · exact pure _
  | doWhile p b t =>
    refine again rfl ((act .tick _).bind fun _ => (request (by rfl)).bind fun flow => ?_)
    split
    · exact pure _
    · refine (request (by rfl)).bind fun v => ?_
      split <;> exact pure _
  | forLoop _ init t incr b => exact (starting init).bind fun _ => request (by rfl)
  | forIn _ k _ o b =>
    exact (request (by rfl)).bind fun v => (act (.keys v) _).bind fun _ => request (by rfl)
  | block _ b =>
    obtain ⟨ss, q⟩ := b
    exact request (by rfl)
  | tryBlock _ b cs cleanup =>
    obtain ⟨ss, q⟩ := b
    exact (attempt (request (by rfl))).bind fun r => (handle cs r).bind fun r => finish cleanup r
  | labeled p l b =>
    have hbody : Within c h₀ env d (do return (← Code.request (.exec b (some l) env)).behind l) :=
      (request (by rfl)).bind fun _ => pure _
    simp only [Stmt.code]
    cases b.isLoop with
    | true => exact hbody
    | false => exact (act .tick _).bind fun _ => hbody
  | breakTo _ l => exact pure _
  | continueTo _ l => exact pure _
  | switch _ e cs =>
    refine (request (by rfl)).bind fun v => (request (by rfl)).bind fun i => ?_
    split
    · exact request (by rfl)
    · exact pure _
  | empty _ => exact pure _

end Within

end Code

/-! ## Calls -/

/-- The frame of a call is a new one under that of the closure, and what was bound before stays
bound. -/
theorem Eval.binds_prepare (env : FrameId) (f : Closure) (args : List Value) (m : Machine) : ∃ n,
    (prepare f args).go m = (.ok (m.store.newFrame f.env).1, n) ∧ m.Binds env n ∧
      n.store.Has (m.store.newFrame f.env).1 ∧ n.store.parent? (m.store.newFrame f.env).1 =
        some f.env := by
  set B := (m.store.newFrame f.env).1
  have hquiet : m.store.Quiet (m.store.newFrame f.env).2 := ⟨m.store.keeps_newFrame f.env, rfl⟩
  have hB : (m.store.newFrame f.env).2.Has B := m.store.has_newFrame_self f.env
  have hbind : Binding B (bindFrame f args B) B := by
    refine .bind (.forM _ fun a _ k => ?_) (.bind (binds_hoist _ B) (.pure B))
    exact ⟨_, rfl,
      .of_quiet (.modifyStore fun h => h.quiet_define B a.1 (args[a.2]?.getD .undefined)) k⟩
  obtain ⟨n, hgo, hn⟩ := hbind (m.setStore (m.store.newFrame f.env).2)
  exact ⟨n, hgo,
    ⟨hquiet.toKeeps.trans hn.keeps, fun h _ => hn.named (hquiet.named h) hB, hn.callDepth⟩,
    hn.keeps.has B hB, (hn.keeps.parent? B hB).trans
    ((Store.parent?_newFrame ..).trans (if_pos rfl))⟩

namespace Code.Within

/-- Work in another frame, one call deeper. -/
theorem nested {inner : FrameId} {x : Code α} (hx : Within c m.store inner (d + 1) x)
    (hm : m.Fit c h₀ env d) (hinner : m.store.Has inner) (hlt : d < c.limits.calls) :
    (Code.nested c x).Sound c (fun _ n => n.Fit c h₀ env d) m := by
  have hdeeper : Machine.Fit c m.store inner (d + 1) { m with callDepth := m.callDepth + 1 } :=
    ⟨.refl _, hinner, hm.has_globals, hm.rooted, hm.named, congrArg (· + 1) hm.callDepth, hlt⟩
  refine ⟨.refl _, hdeeper.callDepth ▸ hdeeper.calls, ?_⟩
  have hbody : x.attempt.Sound c (fun r n => (∃ r', r = .ok r') ∧ n.Fit c m.store inner (d + 1))
      { m with callDepth := m.callDepth + 1 } :=
    (hx.sound _ hdeeper).attempt_mono fun r _ hn => ⟨⟨r, rfl⟩, hn⟩
  refine hbody.bind (fun r n hn => ?_) fun _ _ hn => nomatch hn.1
  have hdepth : n.callDepth - 1 = d := by rw [hn.2.callDepth, Nat.add_sub_cancel]
  refine ⟨.refl _, hdepth.trans_le hm.calls, ?_⟩
  exact ⟨hm.keeps.trans hn.2.keeps, hn.2.keeps.has _ hm.has, hn.2.has_globals, hn.2.rooted,
    hn.2.named, hdepth, hm.calls⟩

/-- The body of a function runs in the frame of the call. -/
theorem enter (f : Closure) (args : List Value) (pos : Position) :
    Within c h₀ env d (Code.enter c f args pos) := by
  refine ⟨fun m hm => ⟨.refl _, hm.callDepth ▸ hm.calls, ?_⟩⟩
  show Code.Sound c _ (if c.limits.calls ≤ m.callDepth then _ else _) m
  split
  · exact hm
  · next hlt =>
    obtain ⟨n, hgo, hbinds, hB, -⟩ := Eval.binds_prepare env f args m
    have hn := hm.binds hbinds
    refine ⟨by rw [hgo]; exact hbinds.keeps, by rw [hgo]; exact hn.callDepth ▸ hm.calls, ?_⟩
    rw [hgo]
    have hlt : d < c.limits.calls := hm.callDepth ▸ Nat.lt_of_not_le hlt
    have hbody :=
      nested (request (t := .execAll f.func.body.stmts (m.store.newFrame f.env).1) rfl) hn hB hlt
    refine hbody.bind (fun flow k hk => ?_) fun _ _ hk => hk
    cases flow <;> exact hk

theorem invoke (callee : Value) (args : List Value) (pos : Position) :
    Within c h₀ env d (Code.invoke c callee args pos) := by
  refine (act .tick _).bind fun _ => ?_
  cases callee with
  | native k => exact act (.makeError ..) _
  | function r =>
    refine (act .store _).bind fun h => ?_
    split
    · exact enter ..
    · exact act (.raise ..) _
  | _ => exact (act (.text _) _).bind fun _ => act (.raise ..) _

end Code.Within

open Code.Within in
/-- A task keeps what is bound and leaves every call that it enters, however it ends. -/
theorem Task.within (t : Task α) : Code.Within c h₀ t.frame d (t.code c) := by
  cases t with
  | eval e env => exact expr e
  | refer e env => exact reference e
  | evalAll es env =>
    cases es with
    | nil => exact .pure _
    | cons e es => exact (request (by rfl)).bind fun _ => (request (by rfl)).bind fun _ => .pure _
  | evalProperties ps env =>
    cases ps with
    | nil => exact .pure _
    | cons q ps =>
      obtain ⟨k, e⟩ := q
      exact (request (by rfl)).bind fun _ => (request (by rfl)).bind fun _ => .pure _
  | declare ds env =>
    obtain _ | ⟨⟨s, _ | e, _⟩, ds⟩ := ds
    · exact .pure _
    · exact (act (.modifyStore fun h => h.quiet_declare env s) _).bind fun _ => request (by rfl)
    · exact (request (by rfl)).bind fun _ => (act (.bindIn ..) _).bind fun _ => request (by rfl)
  | select cs v env =>
    obtain _ | ⟨⟨_ | t, _⟩, cs⟩ := cs
    · exact .pure _
    · exact (request (by rfl)).bind fun _ => .pure _
    · refine (request (by rfl)).bind fun w => ?_
      split
      · exact .pure _
      · exact (request (by rfl)).bind fun _ => .pure _
  | exec s label env => exact stmt s label
  | execAll ss env =>
    cases ss with
    | nil => exact .pure _
    | cons s ss =>
      refine (act .tick _).bind fun _ => (request (by rfl)).bind fun flow => ?_
      cases flow with
      | next => exact request (by rfl)
      | _ => exact .pure _
  | turns t incr b label env =>
    refine again rfl ((holds t).bind fun v => ?_)
    cases v with
    | false => exact .pure _
    | true =>
      refine (act .tick _).bind fun _ => (request (by rfl)).bind fun flow => ?_
      split
      · exact .pure _
      · exact (Code.Within.optional incr).bind fun _ => .pure _
  | visit k b label env ks =>
    cases ks with
    | nil => exact .pure _
    | cons key ks =>
      exact again rfl
        ((act (.bindIn ..) _).bind fun _ => (act .tick _).bind fun _ => (request (by rfl)).bind
        fun _ => .pure _)
  | execCases cs start env =>
    obtain _ | ⟨⟨_, ss⟩, cs⟩ := cs
    · exact .pure _
    obtain _ | start := start
    · refine (request (by rfl)).bind fun flow => ?_
      split
      · exact request (by rfl)
      · exact .pure _
      · exact .pure _
    · exact request (by rfl)
  | call callee args pos => exact together (invoke callee args pos)

end

end FrameLedger
