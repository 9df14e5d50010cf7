import FrameLedger.Proofs.Opening

/-!
# Plays

A play is a session that is told to run its program and to call functions by name, any number of
times and in any order, whatever comes of it. Arguments are any data, with any values of the store
in them.

`Play.keptThroughout`: in a play of a program with its stack, every call has kept what it had to.
That holds for the frames of the callers as long as no act hands an array of the stack to the
program (`Play.Discreet`), and for the depth in any case.
-/

namespace FrameLedger

open Eval

inductive Act where
  | run
  | call (name : String) (args : List Datum)

/-- A session, and what its acts have given so far. -/
structure Play where
  session : Session
  results : List (Except RunError Value)

namespace Play

/-- A run gives `undefined`. -/
def act (x : Play) : Act → Play
  | .run =>
    let (r, s) := x.session.run
    ⟨s, x.results ++ [r.map fun _ => .undefined]⟩
  | .call name args =>
    let (vs, s) := x.session.alloc args
    let (r, s) := s.call name vs
    ⟨s, x.results ++ [r]⟩

/-- A play of a program from its beginning. -/
def of (p : Program) (probe : Option StackVars) (limits : Limits) (acts : List Act) : Play :=
  acts.foldl act ⟨.start p probe limits, []⟩

end Play

/-! ## Data -/

mutual

/-- The arrays of the store that are in a datum. -/
def Datum.heldArrays : Datum → List ArrayRef
  | .array ds => heldArraysAll ds
  | .object ps ctor => heldArraysProperties ps ++ heldArraysOption ctor
  | .held (.array r) => [r]
  | _ => []

def heldArraysAll : List Datum → List ArrayRef
  | [] => []
  | d :: ds => d.heldArrays ++ heldArraysAll ds

def heldArraysProperties : List (String × Datum) → List ArrayRef
  | [] => []
  | (_, d) :: ps => d.heldArrays ++ heldArraysProperties ps

def heldArraysOption : Option Datum → List ArrayRef
  | none => []
  | some d => d.heldArrays

end

section

variable {L : Layout} {G : ArrayRef → Prop}

/-- What data put into a store leave of it. -/
structure Supplied (L : Layout) (G : ArrayRef → Prop) (h h' : Store) : Prop where
  ordinary : h.Ordinary L G h'
  fits : h'.Fits L G

theorem Supplied.refl {h : Store} (hh : h.Fits L G) : Supplied L G h h := ⟨.refl L G h, hh⟩

theorem Supplied.trans {h h' h'' : Store} (a : Supplied L G h h') (b : Supplied L G h' h'') :
    Supplied L G h h'' :=
  ⟨a.ordinary.trans b.ordinary, b.fits⟩

theorem Store.clear_held {h : Store} {v : Value} (hv : ∀ r ∈ (Datum.held v).heldArrays, ¬ G r) :
    h.Clear G (if h.holds v then v else .undefined) := by
  cases v with
  | array r =>
    split
    · next hlt => exact ⟨of_decide_eq_true hlt, hv r List.mem_cons_self⟩
    · trivial
  | _ => split <;> trivial

mutual

/-- A datum is put into a store as what leads to no guarded array, unless one is in the datum. -/
theorem Datum.supplied : ∀ (d : Datum) {h : Store}, h.Fits L G → (∀ r ∈ d.heldArrays, ¬ G r) →
    Supplied L G h (d.alloc h).2 ∧ (d.alloc h).2.Clear G (d.alloc h).1
  | .undefined, _, hh, _ => ⟨.refl hh, trivial⟩
  | .null, _, hh, _ => ⟨.refl hh, trivial⟩
  | .bool _, _, hh, _ => ⟨.refl hh, trivial⟩
  | .number _, _, hh, _ => ⟨.refl hh, trivial⟩
  | .string _, _, hh, _ => ⟨.refl hh, trivial⟩
  | .array ds, h, hh, hG => by
    obtain ⟨hs, hvs⟩ := allocAll_supplied ds hh hG
    exact ⟨hs.trans ⟨Store.ordinary_newArray hs.fits _, hs.fits.newArray (by simpa using hvs)⟩,
      hs.fits.clear_newArray _⟩
  | .object ps ctor, h, hh, hG => by
    obtain ⟨hps, hctor⟩ := List.forall_mem_append.1 hG
    obtain ⟨hs, hps⟩ := allocProperties_supplied ps hh hps
    obtain ⟨hs', hctor⟩ := allocOption_supplied ctor hs.fits hctor
    refine ⟨hs.trans (hs'.trans ⟨Store.ordinary_newObject _ _ _ _,
      hs'.fits.newObject ⟨fun e he => ?_, hctor⟩⟩), trivial⟩
    exact (hps e (SortedMap.mem_ofList he)).mono hs'.ordinary.arrays_le
  | .error k message, h, hh, _ =>
    ⟨⟨Store.ordinary_newObject _ _ _ _, hh.newObject (h.clearObject_error G k message)⟩, trivial⟩
  | .native _, _, hh, _ => ⟨.refl hh, trivial⟩
  | .held _, _, hh, hG => ⟨.refl hh, Store.clear_held hG⟩

theorem allocAll_supplied : ∀ (ds : List Datum) {h : Store}, h.Fits L G →
    (∀ r ∈ heldArraysAll ds, ¬ G r) →
    Supplied L G h (allocAll ds h).2 ∧ ∀ v ∈ (allocAll ds h).1, (allocAll ds h).2.Clear G v
  | [], _, hh, _ => ⟨.refl hh, fun _ h => nomatch h⟩
  | d :: ds, h, hh, hG => by
    obtain ⟨hd, hds⟩ := List.forall_mem_append.1 hG
    obtain ⟨hs, hv⟩ := d.supplied hh hd
    obtain ⟨hs', hvs⟩ := allocAll_supplied ds hs.fits hds
    exact ⟨hs.trans hs', List.forall_mem_cons.2 ⟨hv.mono hs'.ordinary.arrays_le, hvs⟩⟩

theorem allocProperties_supplied : ∀ (ps : List (String × Datum)) {h : Store}, h.Fits L G →
    (∀ r ∈ heldArraysProperties ps, ¬ G r) → Supplied L G h (allocProperties ps h).2 ∧
      ∀ e ∈ (allocProperties ps h).1, (allocProperties ps h).2.Clear G e.2
  | [], _, hh, _ => ⟨.refl hh, fun _ h => nomatch h⟩
  | (k, d) :: ps, h, hh, hG => by
    obtain ⟨hd, hps⟩ := List.forall_mem_append.1 hG
    obtain ⟨hs, hv⟩ := d.supplied hh hd
    obtain ⟨hs', hps⟩ := allocProperties_supplied ps hs.fits hps
    exact ⟨hs.trans hs', List.forall_mem_cons.2 ⟨hv.mono hs'.ordinary.arrays_le, hps⟩⟩

theorem allocOption_supplied : ∀ (d : Option Datum) {h : Store}, h.Fits L G →
    (∀ r ∈ heldArraysOption d, ¬ G r) → Supplied L G h (allocOption d h).2 ∧
      ∀ v, (allocOption d h).1 = some v → (allocOption d h).2.Clear G v
  | none, _, hh, _ => ⟨.refl hh, fun _ h => nomatch h⟩
  | some d, h, hh, hG => by
    obtain ⟨hs, hv⟩ := d.supplied hh hG
    refine ⟨hs, fun v h => ?_⟩
    obtain rfl := Option.some.inj h
    exact hv

end

end

/-! ## The machine during a play -/

/-- The act hands no array of the stack to the program. -/
def Act.Discreet (v : StackVars) (h : Store) : Act → Prop
  | .run => True
  | .call _ args => ∀ r ∈ heldArraysAll args, ∀ s, v.Uses s →
    h.local? Store.globals s ≠ some (.array r)

/-- No act of a play does, when its turn comes. -/
def Play.Discreet (v : StackVars) : Play → List Act → Prop
  | _, [] => True
  | x, a :: acts => a.Discreet v x.session.machine.store ∧ (x.act a).Discreet v acts

section

variable {L : Layout} {t : Terms} {G : ArrayRef → Prop} {m n : Machine}

theorem Machine.Settled.ordinary (hm : m.Settled L t G) (hL : L.Sound) (ho : m.Ordinary L G n) :
    n.Settled L t G := by
  rcases hm with ⟨rfl, hm⟩ | ⟨a, d, rfl, hm, hkept⟩
  · exact .inl ⟨rfl, hm.ordinary hL ho⟩
  · refine .inr ⟨a, d, rfl, ⟨ho.fits, hm.stacked.ordinary hL ho.store⟩, ?_⟩
    obtain ⟨es, hes, hall⟩ := ho.trace
    rw [hes]
    exact hkept.append (.of_mem fun e he => .ordinary (hall e he))

theorem Machine.Settled.supplied (hm : m.Settled L t G) (hL : L.Sound) {h : Store}
    (hs : Supplied L G m.store h) : Machine.Settled L t G { m with store := h } :=
  hm.ordinary hL ⟨hs.ordinary, hs.fits, Nat.le_refl _, [], by simp, by simp⟩

/-- The arrays that are guarded are held by the variables of the stack. -/
theorem Machine.Settled.exists_var (hm : m.Settled L t G) {r : ArrayRef} (hr : G r) :
    t.closed ∧ ∃ s, L.vars.Uses s ∧ m.store.local? Store.globals s = some (.array r) := by
  rcases hm with ⟨rfl, -⟩ | ⟨a, d, rfl, hm, -⟩
  · exact hr.elim
  · exact ⟨hr.1, hm.stacked.exists_var hr.2⟩

theorem Store.fits_empty (L : Layout) (G : ArrayRef → Prop) (hG : ∀ r, ¬ G r) :
    Store.empty.Fits L G where
  has_globals := by decide
  parent_lt f p h := by
    rcases f with ⟨_ | i⟩ <;> simp [Store.empty, Store.parent?] at h
  has_parent f hf hne := by
    obtain ⟨i⟩ := f
    have hi : i = 0 := by simpa [Store.Has, Store.empty] using hf
    exact absurd (congrArg FrameId.mk hi) hne
  elsewhere f s hf _ := by
    refine Store.local?_eq_none_of_not_has (fun hh => ?_) s
    obtain ⟨i⟩ := f
    have hi : i = 0 := by simpa [Store.Has, Store.empty] using hh
    exact hf (congrArg FrameId.mk hi)
  closure r cl hc := by simp [Store.closure?, Store.empty] at hc
  has_env r cl hc := by simp [Store.closure?, Store.empty] at hc
  named r cl s hc := by simp [Store.closure?, Store.empty] at hc
  binding f s v hv := by
    rcases f with ⟨_ | i⟩ <;> simp [Store.empty, Store.local?, Store.bindings, Bindings.get?] at hv
  arrays vs hvs := by simp [Store.empty] at hvs
  objects o ho := by simp [Store.empty] at ho
  guarded_lt r hr := absurd hr (hG r)

/-- At first there are only the built-in constructors. -/
theorem unstacked_start {table : ScopeTable} (t : Terms)
    (ht : ∀ (k : ErrorKind) s, table.rootName k.name = some s → ¬ L.vars.Uses s) :
    (Machine.start table).Unstacked L t := by
  have hstart : (Machine.start table).store.Fits L (fun _ => False) ∧
      (Machine.start table).store.Unstacked L.vars := by
    dsimp only [Machine.start]
    refine List.foldlRecOn (motive := fun h : Store => h.Fits L (fun _ => False) ∧
      h.Unstacked L.vars)
      ErrorKind.all _ ⟨Store.fits_empty L _ fun _ => id, fun s _ _ => .inl rfl⟩ fun h hh k _ => ?_
    obtain ⟨hf, hu⟩ := hh
    split
    · next s hs =>
      refine ⟨hf.define _ (ht k s hs) trivial, fun x hx hne => ?_⟩
      rw [Store.local?_define_of_ne _ _ _ _ (by rintro rfl; exact ht k x hs hx)]
      exact hu x hx hne
    · exact ⟨hf, hu⟩
  exact ⟨hstart.1, hstart.2, by simpa [Machine.start] using KeptThroughout.nil L t⟩

/-- Between two acts the machine is settled. -/
structure Play.Settled (L : Layout) (t : Terms) (p : Program) (c : Setting) (x : Play) : Prop where
  program : x.session.program = p
  setting : x.session.setting = c
  machine : ∃ G, x.session.machine.Settled L t G

variable {p : Program} {c : Setting}

theorem Session.perform_eq {α : Type} (s : Session) (x : Eval α) : s.perform x =
    ((x.go s.machine).1.mapError (.ofAbrupt (x.go s.machine).2),
      { s with machine := (x.go s.machine).2 }) := by
  unfold perform
  rcases h : x.go s.machine with ⟨e | a, m⟩ <;> simp only [Eval.go] at h <;> rw [h] <;> rfl

theorem Play.Settled.act {x : Play} (hx : x.Settled L t p c) (hL : L.Sound)
    (hlimit : t.limit = c.limits.steps) (hp : p.Opens L) (a : Act)
    (ha : t.closed → a.Discreet L.vars x.session.machine.store) : (x.act a).Settled L t p c := by
  obtain ⟨⟨_, _, m⟩, results⟩ := x
  obtain ⟨rfl, rfl, G, hm⟩ := hx
  cases a with
  | run =>
    obtain ⟨G', hn⟩ := settled_run hL hlimit hm hp
    simp only [Play.act, Session.run, Session.perform_eq]
    exact ⟨rfl, rfl, G', hn⟩
  | call name args =>
    have hfree (r : ArrayRef) (hr : r ∈ heldArraysAll args) : ¬ G r := fun hG => by
      obtain ⟨hc, s, hs, hv⟩ := hm.exists_var hG
      exact ha hc r hr s hs hv
    obtain ⟨hs, hargs⟩ := allocAll_supplied args hm.fits hfree
    have hm' := hm.supplied hL hs
    simp only [Play.act, Session.alloc, Session.call]
    split
    · split
      · next hcallable =>
        rw [Session.perform_eq]
        exact ⟨rfl, rfl, G, settled_call hL hlimit hm' hcallable hargs _⟩
      · exact ⟨rfl, rfl, G, hm'⟩
    · exact ⟨rfl, rfl, G, hm'⟩

theorem Play.Settled.acts (hL : L.Sound) (hlimit : t.limit = c.limits.steps) (hp : p.Opens L) :
    ∀ (acts : List Act) {x : Play}, x.Settled L t p c → (t.closed → x.Discreet L.vars acts) →
    (acts.foldl Play.act x).Settled L t p c
  | [], _, hx, _ => hx
  | a :: acts, _, hx, hd =>
    Settled.acts hL hlimit hp acts (hx.act hL hlimit hp a fun hc => (hd hc).1) fun hc => (hd hc).2

/-- However a program with its stack is played, all calls keep what they have to. -/
theorem Play.keptThroughout (hL : L.Sound) (hp : p.Opens L)
    (ht : ∀ (k : ErrorKind) s, p.table.rootName k.name = some s → ¬ L.vars.Uses s)
    (probe : Option StackVars) (limits : Limits) (hlimit : t.limit = limits.steps) (acts : List Act)
    (hd : t.closed → Play.Discreet L.vars ⟨.start p probe limits, []⟩ acts) :
    KeptThroughout L t (Play.of p probe limits acts).session.machine.trace.val := by
  have hstart : Play.Settled L t p ⟨p.table, probe, limits⟩ ⟨.start p probe limits, []⟩ :=
    ⟨rfl, rfl, _, .inl ⟨rfl, unstacked_start t ht⟩⟩
  obtain ⟨G, hx⟩ := (Play.Settled.acts hL hlimit hp acts hstart hd).machine
  exact hx.events

end

end FrameLedger
