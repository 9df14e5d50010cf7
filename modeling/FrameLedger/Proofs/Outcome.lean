import Mathlib
import FrameLedger.Run.Session

/-!
# Outcomes

`Eval.go` runs a computation from a machine. The equations below say what the computations
evaluation is made of come to, so that proofs never look into the monad.
-/

namespace FrameLedger

namespace Machine

@[simp] theorem log_store (m : Machine) (e : Event) : (m.log e).store = m.store := rfl

@[simp] theorem log_steps (m : Machine) (e : Event) : (m.log e).steps = m.steps := rfl

@[simp] theorem log_callDepth (m : Machine) (e : Event) : (m.log e).callDepth = m.callDepth := rfl

@[simp] theorem log_snapshots (m : Machine) (e : Event) : (m.log e).snapshots = m.snapshots := rfl

@[simp] theorem log_trace (m : Machine) (e : Event) : (m.log e).trace.val = m.trace.val ++ [e] := by
  simp [log]

@[simp] theorem setStore_store (m : Machine) (h : Store) : (m.setStore h).store = h := rfl

@[simp] theorem setStore_steps (m : Machine) (h : Store) : (m.setStore h).steps = m.steps := rfl

@[simp] theorem setStore_callDepth (m : Machine) (h : Store) :
    (m.setStore h).callDepth = m.callDepth := rfl

@[simp] theorem setStore_snapshots (m : Machine) (h : Store) :
    (m.setStore h).snapshots = m.snapshots := rfl

@[simp] theorem setStore_trace (m : Machine) (h : Store) :
    (m.setStore h).trace.val = m.trace.val ++ [.store h] := by
  simp [setStore]

end Machine

theorem exists_mapM_ok {α β ε : Type} {f : α → Except ε β} (hf : ∀ a, ∃ b, f a = .ok b) :
    ∀ as : List α, ∃ bs, as.mapM f = .ok bs
  | [] => ⟨[], rfl⟩
  | a :: as => by
    obtain ⟨b, hb⟩ := hf a
    obtain ⟨bs, hbs⟩ := exists_mapM_ok hf as
    exact ⟨b :: bs, by rw [List.mapM_cons, hb, hbs]; rfl⟩

/-- If the functions have names that are in the table, a snapshot can be taken unless there is no
room. -/
theorem Store.exists_snapshot {t : ScopeTable} {h : Store}
    (hnames : ∀ r cl s, h.closure? r = some cl → cl.func.name = some s → ∃ x, t.ident s = .ok x)
    (p : StackVars) : (∃ s, h.snapshot t p = .ok s) ∨ ∃ x,
      h.lookup globals p.depth = some (.number x) ∧
      snapshotRoom ≤ (Binary64.ofFloat x).clampInt64 ∧
      h.snapshot t p = .error (.tooManyFrames ((Binary64.ofFloat x).clampInt64 + 1).toNat) := by
  have hframe (v : Option Value) : ∃ x, h.frameName t v = .ok x := by
    unfold Store.frameName
    split
    · next r =>
      split
      · next s hs =>
        obtain ⟨cl, hcl, hname⟩ := Option.bind_eq_some_iff.1 hs
        exact hnames r cl s hcl hname
      · exact ⟨_, rfl⟩
    · exact ⟨_, rfl⟩
    · exact ⟨_, rfl⟩
  unfold Store.snapshot
  split
  · next x hx =>
    by_cases hroom : snapshotRoom < ((Binary64.ofFloat x).clampInt64 + 1).toNat
    · simp only [if_pos hroom]
      exact .inr ⟨x, hx, by omega, rfl⟩
    · obtain ⟨names, hnames⟩ := exists_mapM_ok (fun i : Nat => hframe
        ((h.elements? (h.lookup globals p.stack)).getD #[])[i]?) _
      simp only [if_neg hroom]
      rw [hnames]
      exact .inl ⟨_, rfl⟩
  · exact .inl ⟨_, rfl⟩

namespace Eval

variable {α β : Type}

/-- What a computation comes to from a machine. -/
def go (x : Eval α) (m : Machine) : Except Abrupt α × Machine := x.run.run m

@[ext] theorem ext {x y : Eval α} (h : ∀ m, x.go m = y.go m) : x = y := funext h

@[simp] theorem go_pure (a : α) (m : Machine) : (pure a : Eval α).go m = (.ok a, m) := rfl

theorem go_bind (x : Eval α) (f : α → Eval β) (m : Machine) :
    (x >>= f).go m = match x.go m with
      | (.ok a, n) => (f a).go n
      | (.error e, n) => (.error e, n) := by
  show (ExceptT.bind x f).run.run m = _
  simp only [ExceptT.bind, ExceptT.run, ExceptT.mk, go]
  show (StateT.bind x (ExceptT.bindCont f)) m = _
  simp only [StateT.bind, StateT.run]
  show (match x m with | (r, n) => ExceptT.bindCont f r n) = _
  rcases x m with ⟨_ | _, n⟩ <;> rfl

theorem go_bind_ok {x : Eval α} {f : α → Eval β} {m n : Machine} {b : β}
    (h : (x >>= f).go m = (.ok b, n)) : ∃ a k, x.go m = (.ok a, k) ∧ (f a).go k = (.ok b, n) := by
  rw [go_bind] at h
  rcases hx : x.go m with ⟨_ | a, k⟩ <;> rw [hx] at h
  · simp at h
  · exact ⟨a, k, rfl, h⟩

@[simp] theorem go_throw (e : Abrupt) (m : Machine) : (throw e : Eval α).go m = (.error e, m) := rfl

@[simp] theorem go_fault (f : Fault) (m : Machine) :
    (fault f : Eval α).go m = (.error (.fault f), m) := rfl

@[simp] theorem go_get (m : Machine) : (get : Eval Machine).go m = (.ok m, m) := rfl

@[simp] theorem go_modify (f : Machine → Machine) (m : Machine) :
    (modify f : Eval Unit).go m = (.ok (), f m) := rfl

@[simp] theorem go_modifyGet (f : Machine → α × Machine) (m : Machine) :
    (modifyGet f : Eval α).go m = (.ok (f m).1, (f m).2) := rfl

@[simp] theorem go_observe (x : Eval α) (m : Machine) :
    (observe x).go m = (.ok (x.go m).1, (x.go m).2) := rfl

@[simp] theorem go_settle (r : Except Abrupt α) (m : Machine) : (settle r).go m = (r, m) := by
  cases r <;> rfl

@[simp] theorem go_store (m : Machine) : store.go m = (.ok m.store, m) := rfl

@[simp] theorem go_onStore (f : Store → α × Store) (m : Machine) :
    (onStore f).go m = (.ok (f m.store).1, m.setStore (f m.store).2) := rfl

@[simp] theorem go_modifyStore (f : Store → Store) (m : Machine) :
    (modifyStore f).go m = (.ok (), m.setStore (f m.store)) := rfl

@[simp] theorem go_text (v : Value) (m : Machine) : (text v).go m = (.ok (m.store.text v), m) := rfl

theorem go_map (f : α → β) (x : Eval α) (m : Machine) :
    (f <$> x).go m = match x.go m with
      | (.ok a, n) => (.ok (f a), n)
      | (.error e, n) => (.error e, n) := by
  rw [← bind_pure_comp, go_bind]
  rfl

theorem go_discard (x : Eval α) (m : Machine) :
    (discard x).go m = match x.go m with
      | (.ok _, n) => (.ok (), n)
      | (.error e, n) => (.error e, n) := go_map _ x m

theorem go_forM_cons (f : α → Eval Unit) (a : α) (as : List α) (m : Machine) :
    ((a :: as).forM f).go m = match (f a).go m with
      | (.ok _, n) => (as.forM f).go n
      | (.error e, n) => (.error e, n) := by
  rw [List.forM, go_bind]
  rcases (f a).go m with ⟨_ | _, n⟩ <;> rfl

theorem go_charge (c : Setting) (n : Nat) (m : Machine) :
    (charge c n).go m = if c.limits.steps < m.steps + n
      then (.error (.fault (.stepLimit c.limits.steps)), { m with steps := m.steps + n })
      else (.ok (), { m with steps := m.steps + n }) := by
  simp only [charge, go_bind, go_modify, go_get]
  split <;> rfl

theorem go_tick (c : Setting) (m : Machine) :
    (tick c).go m = if c.limits.steps < m.steps + 1
      then (.error (.fault (.stepLimit c.limits.steps)), { m with steps := m.steps + 1 })
      else (.ok (), { m with steps := m.steps + 1 }) := go_charge c 1 m

theorem go_recordThrow (c : Setting) (m : Machine) :
    (recordThrow c).go m =
      let n := m.log (.threw m.store)
      match c.probe with
      | none => (.ok (), n)
      | some p =>
        match m.store.snapshot c.table p with
        | .error f => (.error (.fault f), n)
        | .ok none => (.ok (), n)
        | .ok (some s) => (.ok (), { n with snapshots := n.snapshots.push s }) := by
  simp only [recordThrow, go_bind, go_modify]
  rcases c.probe with _ | p
  · rfl
  · simp only [go_bind, go_store, Machine.log_store]
    rcases m.store.snapshot c.table p with f | _ | s <;> rfl

/-- A computation that is kept together runs from an empty trace; what it leaves there becomes one
event. -/
theorem go_together (e : Store → List Event → Except Abrupt α → Store → Event) (x : Eval α)
    (m : Machine) :
    (together e x).go m =
      let r := x.go { m with trace := .of [] }
      (r.1,
        { r.2 with trace := .of (m.trace.val ++ [e m.store r.2.trace.val r.1 r.2.store]) }) := by
  simp only [together, go_bind, go_modifyGet, go_observe, go_modify, go_settle, Ghost.bind_eq,
    Ghost.map_eq, Ghost.val_of]

end Eval

end FrameLedger
