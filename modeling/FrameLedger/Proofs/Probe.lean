import FrameLedger.Proofs.Balance

/-!
# The probe only observes

A run with a probe and the same run without one are held against each other. `Unnoticed` says of two
computations that they end alike and leave the same machine but for the snapshots, which the first
only adds to. Every step of evaluation goes unnoticed in this way, as long as the functions of the
store have names that are in the table (`Store.Known`): a snapshot lists these names, and a dangling
one would end the run. One thing is noticed. Where something is thrown on a stack too deep for a
snapshot (`Store.Deep`), the run with the probe ends there.
-/

namespace FrameLedger

variable {α β : Type}

/-- All symbols that a node names are in the table. -/
def Node.Known (t : ScopeTable) (n : Node) : Prop := ∀ s ∈ n.symbols, s.index < t.symbols.size

/-- All functions of a store are made of nodes whose symbols are in the table. -/
def Store.Known (t : ScopeTable) (h : Store) : Prop :=
  ∀ cl ∈ h.closures, ∀ n ∈ cl.func.nodes, n.Known t

/-- The machine as it is without snapshots. -/
def Machine.unseen (m : Machine) : Machine := { m with snapshots := #[] }

/-- The same setting without a probe. -/
def Setting.unprobed (c : Setting) : Setting := { c with probe := none }

/-- Ended because there was no room for a snapshot. -/
def NoRoom (r : Except Abrupt α) : Prop := ∃ n, r = .error (.fault (.tooManyFrames n))

/-- The stack is too deep for a snapshot. -/
def Store.Deep (v : StackVars) (h : Store) : Prop :=
  ∃ x, h.lookup globals v.depth = some (.number x) ∧ snapshotRoom ≤ (Binary64.ofFloat x).clampInt64

/-- Something was thrown while the stack was too deep for the probe. -/
def Setting.ThrewDeep (c : Setting) (m : Machine) : Prop :=
  ∃ v h, c.probe = some v ∧ h.Deep v ∧ Happens (.threw h) m.trace.val

/-- The second computation, without snapshots, comes to the same as the first, which only adds
snapshots. It may be that the first ends for want of room, but then the second threw something where
the stack was too deep. -/
structure Unnoticed (c : Setting) (x x' : Eval α) : Prop where
  adds : ∀ m, m.store.Known c.table →
    (x.go m).2.store.Known c.table ∧ ∃ new, (x.go m).2.snapshots = m.snapshots ++ new
  keeps : ∀ m, m.store.Known c.table → m.snapshots = #[] →
    (x'.go m).2.store.Known c.table ∧ (x'.go m).2.snapshots = #[] ∧
      ∃ es, (x'.go m).2.trace.val = m.trace.val ++ es
  agrees : ∀ m, m.store.Known c.table → x'.go m.unseen = ((x.go m).1, (x.go m).2.unseen) ∨
    NoRoom (x.go m).1 ∧ c.ThrewDeep (x'.go m.unseen).2

theorem Setting.ThrewDeep.append {c : Setting} {m n : Machine} (h : c.ThrewDeep m) {es : List Event}
    (ht : n.trace.val = m.trace.val ++ es) : c.ThrewDeep n := by
  obtain ⟨v, g, hv, hg, hh⟩ := h
  exact ⟨v, g, hv, hg, ht ▸ hh.append_left es⟩

theorem Store.Known.exists_snapshot {t : ScopeTable} {h : Store} (hh : h.Known t) (p : StackVars) :
    (∃ s, h.snapshot t p = .ok s) ∨ h.Deep p ∧ ∃ n, h.snapshot t p = .error (.tooManyFrames n) := by
  refine (Store.exists_snapshot (fun r cl s hcl hs => ?_) p).imp_right ?_
  · have hs' : s.index < t.symbols.size := by
      refine hh cl (Array.mem_of_getElem? hcl) (.func cl.func) (Func.mem_nodes _) s ?_
      simp [Node.symbols, hs]
    rw [ScopeTable.ident, ScopeTable.ident?, ScopeTable.symbol?, Array.getElem?_eq_getElem hs']
    exact ⟨_, rfl⟩
  · rintro ⟨x, hx, hroom, hsnapshot⟩
    exact ⟨⟨x, hx, hroom⟩, _, hsnapshot⟩

theorem Store.Known.of_closures {t : ScopeTable} {h h' : Store} (hh : h.Known t)
    (he : h'.closures = h.closures) :
    h'.Known t := by
  rw [Known, he]
  exact hh

theorem mem_stmtsNodes {s : Stmt} {n : Node} (hn : n ∈ s.nodes) : ∀ {ss : List Stmt}, s ∈ ss →
    n ∈ stmtsNodes ss
  | _ :: ss, hs => by
    rw [stmtsNodes]
    rcases List.mem_cons.1 hs with rfl | hs
    · exact List.mem_append_left _ hn
    · exact List.mem_append_right _ (mem_stmtsNodes hn hs)

theorem Stmt.mem_nodes_of_declaration? {s : Stmt} {x : SymbolId × Func}
    (h : s.declaration? = some x) {n : Node} (hn : n ∈ x.2.nodes) :
    n ∈ s.nodes := by
  unfold Stmt.declaration? at h
  split at h
  · obtain ⟨s, -, rfl⟩ := Option.map_eq_some_iff.1 h
    exact List.mem_cons_of_mem _ (List.mem_cons_of_mem _ hn)
  · cases h

theorem Func.mem_nodes_of_body (f : Func) {n : Node} (hn : n ∈ stmtsNodes f.body.stmts) :
    n ∈ f.nodes := by
  obtain ⟨_, _, ⟨ss, q⟩, _, _⟩ := f
  exact List.mem_cons_of_mem _ (List.mem_cons_of_mem _ hn)

namespace Unnoticed

open Eval

variable {c : Setting} {x x' : Eval α} {f f' : α → Eval β}

/-! ## Combinators -/

/-- A computation that leaves the snapshots alone and looks at everything else only. -/
theorem of_go {m : Machine → Except Abrupt α × Machine} (hx : ∀ n, x.go n = m n)
    (hx' : ∀ n, x'.go n = m n) (hm : ∀ n, m n.unseen = ((m n).1, (m n).2.unseen))
    (hk : ∀ n, n.store.Known c.table → (m n).2.store.Known c.table)
    (hs : ∀ n, (m n).2.snapshots = n.snapshots)
    (ht : ∀ n, ∃ es, (m n).2.trace.val = n.trace.val ++ es) :
    Unnoticed c x x' where
  adds n hn := by
    rw [hx]
    exact ⟨hk n hn, #[], by rw [hs, Array.append_empty]⟩
  keeps n hn hnone := by
    rw [hx']
    exact ⟨hk n hn, (hs n).trans hnone, ht n⟩
  agrees n _ := by
    rw [hx, hx', hm]
    exact .inl rfl

/-- One that notes nothing either. -/
theorem of_quiet {m : Machine → Except Abrupt α × Machine} (hx : ∀ n, x.go n = m n)
    (hx' : ∀ n, x'.go n = m n) (hm : ∀ n, m n.unseen = ((m n).1, (m n).2.unseen))
    (hk : ∀ n, (m n).2.store = n.store) (hs : ∀ n, (m n).2.snapshots = n.snapshots)
    (ht : ∀ n, (m n).2.trace = n.trace) :
    Unnoticed c x x' :=
  of_go hx hx' hm (fun n hn => (hk n).symm ▸ hn) hs fun n => ⟨[], by rw [ht, List.append_nil]⟩

theorem pure (a : α) : Unnoticed c (pure a) (pure a) :=
  of_quiet (fun _ => rfl) (fun _ => rfl) (fun _ => rfl) (fun _ => rfl) (fun _ => rfl) fun _ => rfl

theorem throw (e : Abrupt) : Unnoticed c (throw e : Eval α) (throw e) :=
  of_quiet (fun _ => rfl) (fun _ => rfl) (fun _ => rfl) (fun _ => rfl) (fun _ => rfl) fun _ => rfl

theorem settle (r : Except Abrupt α) : Unnoticed c (settle r) (settle r) := by
  cases r with
  | error e => exact throw e
  | ok a => exact pure a

theorem ofDangling (r : Except Dangling α) : Unnoticed c (ofDangling r) (ofDangling r) := by
  cases r with
  | error d => exact throw _
  | ok a => exact pure a

theorem append_adds {m n k : Machine} (h : ∃ new, n.snapshots = m.snapshots ++ new)
    (h' : ∃ new, k.snapshots = n.snapshots ++ new) : ∃ new, k.snapshots = m.snapshots ++ new := by
  obtain ⟨new, hnew⟩ := h
  obtain ⟨new', hnew'⟩ := h'
  exact ⟨new ++ new', by rw [hnew', hnew, Array.append_assoc]⟩

theorem append_trace {m n k : Machine} (h : ∃ es, n.trace.val = m.trace.val ++ es)
    (h' : ∃ es, k.trace.val = n.trace.val ++ es) : ∃ es, k.trace.val = m.trace.val ++ es := by
  obtain ⟨es, hes⟩ := h
  obtain ⟨es', hes'⟩ := h'
  exact ⟨es ++ es', by rw [hes', hes, List.append_assoc]⟩

/-- What follows goes on from how the first computation ended, and stops where there was no room. -/
theorem observe_bind {g g' : Except Abrupt α → Eval β} (hx : Unnoticed c x x')
    (hg : ∀ r, Unnoticed c (g r) (g' r))
    (hroom : ∀ n m, NoRoom ((g (.error (.fault (.tooManyFrames n)))).go m).1) :
    Unnoticed c (observe x >>= g) (observe x' >>= g') where
  adds m hm := by
    obtain ⟨hk, hnew⟩ := hx.adds m hm
    obtain ⟨hk', hnew'⟩ := (hg (x.go m).1).adds _ hk
    simp only [go_bind, go_observe]
    exact ⟨hk', append_adds hnew hnew'⟩
  keeps m hm hnone := by
    obtain ⟨hk, hs, ht⟩ := hx.keeps m hm hnone
    obtain ⟨hk', hs', ht'⟩ := (hg (x'.go m).1).keeps _ hk hs
    simp only [go_bind, go_observe]
    exact ⟨hk', hs', append_trace ht ht'⟩
  agrees m hm := by
    obtain ⟨hk, -⟩ := hx.adds m hm
    obtain ⟨hk', hs', -⟩ := hx.keeps m.unseen hm rfl
    simp only [go_bind, go_observe]
    rcases hx.agrees m hm with hgo | ⟨⟨n, hn⟩, hdeep⟩
    · rw [hgo]
      exact (hg (x.go m).1).agrees _ hk
    · -- what the second computation threw stays noted, whatever it goes on with
      obtain ⟨-, -, es, hes⟩ := (hg (x'.go m.unseen).1).keeps _ hk' hs'
      rw [hn]
      exact .inr ⟨hroom n _, hdeep.append hes⟩

theorem bind (hx : Unnoticed c x x') (hf : ∀ a, Unnoticed c (f a) (f' a)) :
    Unnoticed c (x >>= f) (x' >>= f') := by
  have heq (y : Eval α) (g : α → Eval β) : y >>= g = observe y >>= fun r =>
      Eval.settle r >>= g := by
    funext m
    show (y >>= g).go m = (Eval.observe y >>= fun r => Eval.settle r >>= g).go m
    simp only [go_bind, go_observe]
    rcases y.go m with ⟨e | a, n⟩ <;> rfl
  rw [heq x f, heq x' f']
  refine hx.observe_bind (fun r => ?_) fun n m => ⟨n, rfl⟩
  cases r with
  | error e =>
    exact of_quiet (fun _ => rfl) (fun _ => rfl) (fun _ => rfl) (fun _ => rfl) (fun _ => rfl)
      fun _ => rfl
  | ok a => exact hf a

theorem map (g : α → β) (hx : Unnoticed c x x') : Unnoticed c (g <$> x) (g <$> x') := by
  rw [← bind_pure_comp, ← bind_pure_comp]
  exact hx.bind fun a => pure (g a)

theorem discard (hx : Unnoticed c x x') : Unnoticed c (discard x) (discard x') := hx.map _

/-- What happened is kept together, and both did the same. -/
theorem together {e : Store → List Event → Except Abrupt α → Store → Event}
    (he : ∀ h es r h', (e h es r h').inside = es) (hx : Unnoticed c x x') :
    Unnoticed c (together e x) (together e x') where
  adds m hm := by
    rw [go_together]
    exact hx.adds { m with trace := .of [] } hm
  keeps m hm hnone := by
    obtain ⟨hk, hs, -⟩ := hx.keeps { m with trace := .of [] } hm hnone
    rw [go_together]
    exact ⟨hk, hs, _, Ghost.val_of _⟩
  agrees m hm := by
    rw [go_together, go_together]
    rcases hx.agrees { m with trace := .of [] } hm with hgo | ⟨hroom, v, h, hv, hdeep, hh⟩
    · replace hgo : x'.go { m.unseen with trace := .of [] } = _ := hgo
      simp only [hgo]
      exact .inl rfl
    · refine .inr ⟨hroom, v, h, hv, hdeep, ?_⟩
      simp only [Ghost.val_of]
      exact .append_right (.within (by rw [he]; exact hh)) _

theorem get_bind {f f' : Machine → Eval β} (hf : ∀ m, Unnoticed c (f m) (f' m.unseen)) :
    Unnoticed c (get >>= f) (get >>= f') where
  adds m hm := (hf m).adds m hm
  keeps m hm hnone := by
    have hm' : m.unseen = m := by rw [Machine.unseen, ← hnone]
    have h := (hf m).keeps m hm hnone
    rwa [hm'] at h
  agrees m hm := (hf m).agrees m hm

theorem store_bind {f f' : Store → Eval β} (hf : ∀ h, h.Known c.table → Unnoticed c (f h) (f' h)) :
    Unnoticed c (store >>= f) (store >>= f') where
  adds m hm := (hf m.store hm).adds m hm
  keeps m hm := (hf m.store hm).keeps m hm
  agrees m hm := (hf m.store hm).agrees m hm

theorem onStore {f : Store → α × Store} (hf : ∀ h, h.Known c.table → (f h).2.Known c.table) :
    Unnoticed c (onStore f) (onStore f) :=
  of_go (fun _ => rfl) (fun _ => rfl) (fun _ => rfl) (fun n => hf n.store) (fun _ => rfl) fun n =>
    ⟨[.store (f n.store).2], n.setStore_trace _⟩

theorem modifyStore {f : Store → Store} (hf : ∀ h, (f h).closures = h.closures) :
    Unnoticed c (modifyStore f) (modifyStore f) :=
  of_go (fun _ => rfl) (fun _ => rfl) (fun _ => rfl) (fun n hn => hn.of_closures (hf n.store))
    (fun _ => rfl) fun n => ⟨[.store (f n.store)], n.setStore_trace _⟩

theorem modifyArray (r : ArrayRef) (f : Array Value → Array Value) :
    Unnoticed c (Eval.modifyStore (·.modifyArray r f)) (Eval.modifyStore (·.modifyArray r f)) :=
  modifyStore fun _ => rfl

theorem modifyObject (r : ObjectRef) (f : Object → Object) :
    Unnoticed c (Eval.modifyStore (·.modifyObject r f)) (Eval.modifyStore (·.modifyObject r f)) :=
  modifyStore fun _ => rfl

theorem define (env : FrameId) (s : SymbolId) (v : Value) :
    Unnoticed c (Eval.modifyStore (·.define env s v)) (Eval.modifyStore (·.define env s v)) :=
  modifyStore fun _ => rfl

theorem text (v : Value) : Unnoticed c (text v) (text v) :=
  of_quiet (fun _ => rfl) (fun _ => rfl) (fun _ => rfl) (fun _ => rfl) (fun _ => rfl) fun _ => rfl

theorem forM {g g' : α → Eval Unit} : ∀ {as : List α}, (∀ a ∈ as, Unnoticed c (g a) (g' a)) →
    Unnoticed c (as.forM g) (as.forM g')
  | [], _ => pure ()
  | _ :: _, h => (h _ List.mem_cons_self).bind fun _ => forM fun b hb =>
    h b (List.mem_cons_of_mem _ hb)

/-! ## Steps -/

variable (c : Setting)

theorem charge (n : Nat) : Unnoticed c (charge c n) (charge c.unprobed n) := by
  refine of_quiet (go_charge c n) (go_charge c.unprobed n) (fun m => ?_) (fun m => ?_) (fun m => ?_)
    fun m => ?_
  · have hiff : c.limits.steps < m.unseen.steps + n ↔ c.limits.steps < m.steps + n := Iff.rfl
    by_cases hn : c.limits.steps < m.steps + n
    · rw [if_pos hn, if_pos (hiff.2 hn)]
      rfl
    · rw [if_neg hn, if_neg (mt hiff.1 hn)]
      rfl
  all_goals split <;> rfl

theorem tick : Unnoticed c (tick c) (tick c.unprobed) := charge c 1

theorem fault {c : Setting} (e : Fault) : Unnoticed c (fault e : Eval α) (fault e) := throw _

/-- What would follow a fault does not run. -/
theorem fault_bind {c : Setting} (e : Fault) :
    Unnoticed c (Eval.fault e >>= f) (Eval.fault e >>= f') :=
  of_quiet (fun _ => rfl) (fun _ => rfl) (fun _ => rfl) (fun _ => rfl) (fun _ => rfl) fun _ => rfl

/-- The one place where the two runs differ. -/
theorem recordThrow : Unnoticed c (recordThrow c) (recordThrow c.unprobed) where
  adds m hm := by
    rw [go_recordThrow]
    rcases c.probe with _ | p
    · exact ⟨hm, #[], by simp⟩
    · rcases hs : m.store.snapshot c.table p with e | _ | s <;> simp only [hs]
      · exact ⟨hm, #[], by simp⟩
      · exact ⟨hm, #[], by simp⟩
      · exact ⟨hm, #[s], by simp⟩
  keeps m hm hnone := by
    rw [go_recordThrow]
    exact ⟨hm, hnone, [.threw m.store], m.log_trace _⟩
  agrees m hm := by
    rw [go_recordThrow, go_recordThrow]
    rcases hp : c.probe with _ | p
    · exact .inl rfl
    · rcases hm.exists_snapshot p with ⟨s, hs⟩ | ⟨hdeep, n, hs⟩
      · rcases s with _ | s <;> simp only [hs] <;> exact .inl rfl
      · simp only [hs]
        refine .inr ⟨⟨n, rfl⟩, p, m.store, hp, hdeep, ?_⟩
        have htrace : (m.unseen.log (.threw m.store)).trace.val = m.trace.val ++ [.threw m.store] :=
          m.log_trace _
        exact htrace ▸ .append_right (.here []) _

theorem newError {c : Setting} (k : ErrorKind) (message : String) :
    Unnoticed c (Eval.onStore (·.newError k message)) (Eval.onStore (·.newError k message)) :=
  onStore fun _ hh => hh.of_closures rfl

theorem raise (p : Position) (k : ErrorKind) (message : String) :
    Unnoticed c (raise c p k message : Eval α) (raise c.unprobed p k message) :=
  (recordThrow c).bind fun _ => (newError k message).bind fun v => throw (.thrown v p)

theorem raiseUnbound (p : Position) (name : String) :
    Unnoticed c (raiseUnbound c p name : Eval α) (raiseUnbound c.unprobed p name) := raise c p _ _

theorem ident (s : SymbolId) : Unnoticed c (ident c s) (ident c.unprobed s) := ofDangling _

/-! ## Properties and operators -/

theorem getProperty (p : Position) (o : Value) (k : String) :
    Unnoticed c (getProperty c p o k) (getProperty c.unprobed p o k) := by
  cases o with
  | undefined => exact raise c p _ _
  | null => exact raise c p _ _
  | array r =>
    refine store_bind fun h _ => ?_
    by_cases hk : k = "length"
    · simp only [if_pos hk]
      exact pure _
    · simp only [if_neg hk]
      exact pure _
  | object r => exact store_bind fun h _ => pure _
  | string s =>
    simp only [Eval.getProperty]
    by_cases hk : k = "length"
    · simp only [if_pos hk]
      exact pure _
    · simp only [if_neg hk]
      exact pure _
  | native e => exact pure _
  | bool b => exact pure _
  | number x => exact pure _
  | function r => exact pure _

theorem grow (r : ArrayRef) (n : Nat) : Unnoticed c (grow c r n) (grow c.unprobed r n) := by
  refine store_bind fun h _ => ?_
  by_cases hn : (h.array r).size < n
  · simp only [if_pos hn]
    exact charge c _
  · simp only [if_neg hn]
    exact pure ()

theorem setElement (r : ArrayRef) (i : Nat) (v : Value) :
    Unnoticed c (setElement c r i v) (setElement c.unprobed r i v) :=
  (grow c r (i + 1)).bind fun _ => (modifyArray r _).bind fun _ =>
    of_go (fun _ => rfl) (fun _ => rfl) (fun _ => rfl) (fun _ => id) (fun _ => rfl) fun n =>
      ⟨[.element n.store r i v], n.log_trace _⟩

theorem setLength (r : ArrayRef) (n : Nat) :
    Unnoticed c (setLength c r n) (setLength c.unprobed r n) :=
  (grow c r n).bind fun _ => modifyArray r _

theorem setProperty (p : Position) (o : Value) (k : String) (v : Value) :
    Unnoticed c (setProperty c p o k v) (setProperty c.unprobed p o k v) := by
  cases o with
  | undefined => exact raise c p _ _
  | null => exact raise c p _ _
  | array r =>
    simp only [Eval.setProperty]
    by_cases hk : k = "length"
    · simp only [if_pos hk]
      rcases arrayLength? v with _ | n
      · exact (text v).bind fun _ => raise c p _ _
      · exact setLength c r n
    · simp only [if_neg hk]
      rcases arrayIndex? k with _ | i
      · exact pure ()
      · exact setElement c r i v
  | object r => exact modifyObject r _
  | string _ | native _ | bool _ | number _ | function _ => exact pure ()

theorem deleteProperty {c : Setting} (o : Value) (k : String) :
    Unnoticed c (deleteProperty o k) (deleteProperty o k) := by
  cases o with
  | object r => exact modifyObject r _
  | array r =>
    simp only [Eval.deleteProperty]
    rcases arrayIndex? k with _ | i
    · exact pure ()
    · exact modifyArray r _
  | undefined | null | string _ | native _ | bool _ | number _ | function _ => exact pure ()

theorem keys {c : Setting} (v : Value) : Unnoticed c (keys v) (keys v) := by
  cases v with
  | object r => exact store_bind fun h _ => pure _
  | array r => exact store_bind fun h _ => pure _
  | undefined | null | string _ | native _ | bool _ | number _ | function _ => exact pure _

theorem arithmetic {c : Setting} (op : ArithOp) (v w : Value) :
    Unnoticed c (arithmetic op v w) (arithmetic op v w) := by
  cases op with
  | add =>
    simp only [Eval.arithmetic]
    by_cases ht : (v.isTextual || w.isTextual) = true
    · simp only [if_pos ht]
      exact (text v).bind fun _ => (text w).bind fun _ => pure _
    · simp only [if_neg ht]
      exact pure _
  | sub | mul | div | mod => exact pure _

theorem hasProperty (p : Position) (k : String) (o : Value) :
    Unnoticed c (hasProperty c p k o) (hasProperty c.unprobed p k o) := by
  cases o with
  | object r => exact store_bind fun h _ => pure _
  | array r => exact store_bind fun h _ => pure _
  | undefined | null | string _ | native _ | bool _ | number _ | function _ => exact raise c p _ _

theorem operate (p : Position) (op : EagerOp) (v w : Value) :
    Unnoticed c (operate c p op v w) (operate c.unprobed p op v w) := by
  cases op with
  | eq | notEq | strictEq | strictNotEq | compare _ => exact pure _
  | instanceOf =>
    simp only [Eval.operate]
    by_cases hw : w.isCallable = true
    · simp only [if_pos hw]
      exact store_bind fun h _ => pure _
    · simp only [if_neg hw]
      exact raise c p _ _
  | member => exact (text v).bind fun k => (hasProperty c p k w).bind fun _ => pure _
  | arith op => exact arithmetic op v w

theorem makeError {c : Setting} (k : ErrorKind) (args : List Value) :
    Unnoticed c (makeError k args) (makeError k args) := by
  unfold Eval.makeError
  rcases args.head? with _ | v
  · exact newError k ""
  · cases v with
    | undefined => exact newError k ""
    | null | bool _ | number _ | string _ | array _ | object _ | function _ | native _ =>
      exact (text _).bind fun message => newError k message

/-! ## Names -/

theorem memberKey (n : MemberName) : Unnoticed c (memberKey c n) (memberKey c.unprobed n) := by
  cases n with
  | symbol s => exact ident c s
  | property p => exact pure p

theorem read (p : Position) (env : FrameId) (r : Reference) :
    Unnoticed c (read c p env r) (read c.unprobed p env r) := by
  cases r with
  | binding s =>
    refine store_bind fun h _ => ?_
    rcases h.lookup env s with _ | v
    · exact (ident c s).bind fun _ => raiseUnbound c p _
    · exact pure v
  | property o k => exact getProperty c p o k

theorem bindIn {c : Setting} (env frame : FrameId) (s : SymbolId) (v : Value) :
    Unnoticed c (bindIn env frame s v) (bindIn env frame s v) := by
  refine modifyStore fun h => ?_
  rcases h.owner? env s with _ | g <;> rfl

theorem write (p : Position) (env : FrameId) (r : Reference) (v : Value) :
    Unnoticed c (write c p env r v) (write c.unprobed p env r v) := by
  cases r with
  | binding s => exact bindIn env _ s v
  | property o k => exact setProperty c p o k v

theorem update (p q : Position) (env : FrameId) (r : Reference) (amount : Float) :
    Unnoticed c (update c p q env r amount) (update c.unprobed p q env r amount) :=
  (read c q env r).bind fun _ => (write c p env r _).bind fun _ => pure _

theorem declare {c : Setting} (env : FrameId) (s : SymbolId) :
    Unnoticed c (Eval.modifyStore (·.declare env s)) (Eval.modifyStore (·.declare env s)) := by
  refine modifyStore fun h => ?_
  unfold Store.declare
  split <;> rfl

/-! ## Functions -/

theorem closure {c : Setting} {f : Func} (hf : ∀ n ∈ f.nodes, n.Known c.table) (env : FrameId) :
    Unnoticed c (closure f env) (closure f env) := by
  refine onStore fun h hh cl hcl => ?_
  rcases Array.mem_push.1 hcl with hcl | rfl
  · exact hh cl hcl
  · exact hf

theorem hoist {c : Setting} {body : List Stmt} (hb : ∀ n ∈ stmtsNodes body, n.Known c.table)
    (env : FrameId) :
    Unnoticed c (hoist body env) (hoist body env) := by
  refine (forM fun s _ => declare env s).bind fun _ => forM fun (s, f) hf => ?_
  obtain ⟨stmt, hmem, hdecl⟩ := List.mem_filterMap.1 hf
  exact (closure (fun n hn => hb n (mem_stmtsNodes (Stmt.mem_nodes_of_declaration? hdecl hn) hmem))
    env).bind fun v => define env s v

theorem prepare {c : Setting} {f : Closure} (hf : ∀ n ∈ f.func.nodes, n.Known c.table)
    (args : List Value) :
    Unnoticed c (prepare f args) (prepare f args) := by
  refine (onStore fun h hh => hh.of_closures rfl).bind fun env => ?_
  refine (forM fun (s, i) _ => define env s _).bind fun _ => ?_
  exact (hoist (fun n hn => hf n (f.func.mem_nodes_of_body hn)) env).bind fun _ => pure env

/-! ## Loops -/

theorem iterate {turn turn' : Eval (Option Flow)} (h : Unnoticed c turn turn') :
    ∀ n, Unnoticed c (iterate c turn n) (iterate c.unprobed turn' n)
  | 0 => fault _
  | n + 1 => h.bind fun flow => by
    cases flow with
    | none => exact iterate h n
    | some flow => exact pure flow

theorem loop {turn turn' : Eval (Option Flow)} (h : Unnoticed c turn turn') :
    Unnoticed c (loop c turn) (loop c.unprobed turn') := get_bind fun _ => iterate c h _

theorem overKeys {c : Setting} {turn turn' : String → Eval (Option Flow)}
    (h : ∀ k, Unnoticed c (turn k) (turn' k)) :
    ∀ ks, Unnoticed c (overKeys turn ks) (overKeys turn' ks)
  | [] => pure _
  | k :: ks => (h k).bind fun flow => by
    cases flow with
    | none => exact overKeys h ks
    | some flow => exact pure flow

end Unnoticed

/-! ## Code -/

/-- What calls do goes unnoticed. -/
def Caller.Unnoticed (c : Setting) (call call' : Caller) : Prop :=
  ∀ callee args p, FrameLedger.Unnoticed c (call callee args p) (call' callee args p)

section

open Unnoticed

variable {c : Setting} {call call' : Caller}

theorem unnoticed_construct (hcall : call.Unnoticed c call') (p : Position) (callee : Expr)
    (ctor : Value) (args : List Value) :
    Unnoticed c (Eval.construct c call p callee ctor args)
      (Eval.construct c.unprobed call' p callee ctor args) := by
  cases ctor with
  | native k => exact (tick c).bind fun _ => makeError k args
  | function r =>
    refine (hcall _ args p).bind fun v => ?_
    cases v with
    | object _ | array _ => exact .pure _
    | undefined | null | bool _ | number _ | string _ | function _ | native _ =>
      exact onStore fun h hh => hh.of_closures rfl
  | undefined | null | bool _ | number _ | string _ | array _ | object _ =>
    exact (ofDangling _).bind fun _ => raise c p _ _

/-- Cleaning up does not make room. -/
theorem noRoom_finish (b : Option Block) (n : Nat) (env : FrameId) (m : Machine) :
    NoRoom ((finish c call b (.error (.fault (.tooManyFrames n))) env).go m).1 := by
  cases b <;> exact ⟨n, rfl⟩

mutual

theorem Expr.unnoticed (hcall : call.Unnoticed c call') : ∀ (e : Expr) (env : FrameId),
    (∀ n ∈ e.nodes, n.Known c.table) →
    Unnoticed c (e.eval c call env) (e.eval c.unprobed call' env)
  | .var p s, env, _ => by
    rw [Expr.eval, Expr.eval]
    exact read c p env _
  | .bare p n, env, _ => by
    rw [Expr.eval, Expr.eval]
    exact raiseUnbound c p n
  | .member p q n, env, h => by
    rw [Expr.eval, Expr.eval]
    exact (q.unnoticed hcall env (List.forall_mem_cons.1 h).2).bind fun o =>
      (memberKey c n).bind fun k => getProperty c p o k
  | .index p a i, env, h => by
    obtain ⟨ha, hi⟩ := List.forall_mem_append.1 (List.forall_mem_cons.1 h).2
    rw [Expr.eval, Expr.eval]
    exact (a.unnoticed hcall env ha).bind fun o => (i.unnoticed hcall env hi).bind fun k =>
      (text k).bind fun k => getProperty c p o k
  | .call p f as, env, h => by
    obtain ⟨hf, has⟩ := List.forall_mem_append.1 (List.forall_mem_cons.1 h).2
    rw [Expr.eval, Expr.eval]
    refine (f.unnoticed hcall env hf).bind fun callee => (evalAll_unnoticed hcall as env has).bind
      fun args => ?_
    split
    · exact hcall callee args p
    · exact (ofDangling _).bind fun _ => raise c p _ _
  | .new p f as, env, h => by
    obtain ⟨hf, has⟩ := List.forall_mem_append.1 (List.forall_mem_cons.1 h).2
    rw [Expr.eval, Expr.eval]
    exact (f.unnoticed hcall env hf).bind fun ctor => (evalAll_unnoticed hcall as env has).bind
      fun args => unnoticed_construct hcall p f ctor args
  | .prefixed p op x, env, h => by
    have hx := (List.forall_mem_cons.1 h).2
    cases op with
    | inc => exact (x.unnoticed_reference hcall env hx).bind fun r =>
      (update c p _ env r 1).bind fun _ => .pure _
    | dec => exact (x.unnoticed_reference hcall env hx).bind fun r =>
      (update c p _ env r (-1)).bind fun _ => .pure _
    | typeof =>
      simp only [Expr.eval]
      rcases x.symbol? with _ | s
      · exact (x.unnoticed hcall env hx).bind fun v => .pure _
      · exact store_bind fun h _ => .pure _
    | delete =>
      have hself := (x.unnoticed hcall env hx).discard.bind fun _ =>
        .pure (c := c) (Value.bool true)
      have hremove : Unnoticed c (do
          match ← x.reference c call env with
          | .property o k => Eval.deleteProperty o k
          | .binding _ => Pure.pure ()
          return Value.bool true) (do
          match ← x.reference c.unprobed call' env with
          | .property o k => Eval.deleteProperty o k
          | .binding _ => Pure.pure ()
          return Value.bool true) := by
        refine (x.unnoticed_reference hcall env hx).bind fun r => ?_
        cases r with
        | property o k => exact (deleteProperty o k).bind fun _ => .pure _
        | binding s => exact .pure _
      cases x with
      | var _ _ | bare _ _ => exact .pure _
      | member _ _ _ | index _ _ _ => exact hremove
      | call _ _ _ | new _ _ _ | prefixed _ _ _ | postfixed _ _ _ | binary _ _ _ _ | cond _ _ _ _
      | literal _ _
      | array _ _ | object _ _ | func _ _ => exact hself
    | neg | plus | not => exact (x.unnoticed hcall env hx).bind fun v => .pure _
    | void => exact (x.unnoticed hcall env hx).discard.bind fun _ => .pure _
  | .postfixed p op x, env, h => by
    rw [Expr.eval, Expr.eval]
    refine (x.unnoticed_reference hcall env (List.forall_mem_cons.1 h).2).bind fun r => ?_
    cases op with
    | inc => exact (update c p _ env r 1).bind fun _ => .pure _
    | dec => exact (update c p _ env r (-1)).bind fun _ => .pure _
  | .binary p op l r, env, h => by
    obtain ⟨hl, hr⟩ := List.forall_mem_append.1 (List.forall_mem_cons.1 h).2
    cases op with
    | assign =>
      exact (l.unnoticed_reference hcall env hl).bind fun ref =>
        (r.unnoticed hcall env hr).bind fun v => (write c p env ref v).bind fun _ => .pure v
    | assignWith op =>
      exact (l.unnoticed_reference hcall env hl).bind fun ref => (read c _ env ref).bind fun old =>
        (r.unnoticed hcall env hr).bind fun w => (arithmetic op old w).bind fun v =>
          (write c p env ref v).bind fun _ => .pure v
    | comma => exact (l.unnoticed hcall env hl).discard.bind fun _ => r.unnoticed hcall env hr
    | or =>
      refine (l.unnoticed hcall env hl).bind fun v => ?_
      split
      · exact .pure v
      · exact r.unnoticed hcall env hr
    | and =>
      refine (l.unnoticed hcall env hl).bind fun v => ?_
      split
      · exact r.unnoticed hcall env hr
      · exact .pure v
    | eager op =>
      exact (l.unnoticed hcall env hl).bind fun v => (r.unnoticed hcall env hr).bind fun w =>
        operate c p op v w
  | .cond p t yes no, env, h => by
    obtain ⟨ht, hrest⟩ := List.forall_mem_append.1 (List.forall_mem_cons.1 h).2
    obtain ⟨hyes, hno⟩ := List.forall_mem_append.1 hrest
    rw [Expr.eval, Expr.eval]
    refine (t.unnoticed hcall env ht).bind fun v => ?_
    split
    · exact yes.unnoticed hcall env hyes
    · exact no.unnoticed hcall env hno
  | .literal p l, env, _ => by
    rw [Expr.eval, Expr.eval]
    exact .pure _
  | .array p es, env, h => by
    rw [Expr.eval, Expr.eval]
    exact (evalAll_unnoticed hcall es env (List.forall_mem_cons.1 h).2).bind fun vs =>
      onStore fun _ hh => hh.of_closures rfl
  | .object p ps, env, h => by
    rw [Expr.eval, Expr.eval]
    exact (evalProperties_unnoticed hcall ps env (List.forall_mem_cons.1 h).2).bind fun vs =>
      onStore fun _ hh => hh.of_closures rfl
  | .func p f, env, h => by
    rw [Expr.eval, Expr.eval]
    refine (closure (List.forall_mem_cons.1 h).2 env).bind fun v => ?_
    rcases f.name with _ | s
    · exact .pure v
    · exact (define env s v).bind fun _ => .pure v

theorem Expr.unnoticed_reference (hcall : call.Unnoticed c call') : ∀ (e : Expr) (env : FrameId),
    (∀ n ∈ e.nodes, n.Known c.table) →
    Unnoticed c (e.reference c call env) (e.reference c.unprobed call' env)
  | .var p s, env, _ => by
    rw [Expr.reference, Expr.reference]
    exact .pure _
  | .member p q n, env, h => by
    rw [Expr.reference, Expr.reference]
    exact (q.unnoticed hcall env (List.forall_mem_cons.1 h).2).bind fun o =>
      (memberKey c n).bind fun k => .pure _
  | .index p a i, env, h => by
    obtain ⟨ha, hi⟩ := List.forall_mem_append.1 (List.forall_mem_cons.1 h).2
    rw [Expr.reference, Expr.reference]
    exact (a.unnoticed hcall env ha).bind fun o => (i.unnoticed hcall env hi).bind fun k =>
      (text k).bind fun k => .pure _
  | .bare p n, env, _ => by
    rw [Expr.reference, Expr.reference]
    exact raiseUnbound c p n
  | .call .., env, _ | .new .., env, _ | .prefixed .., env, _ | .postfixed .., env, _
  | .binary .., env, _
  | .cond .., env, _ | .literal .., env, _ | .array .., env, _ | .object .., env, _
  | .func .., env, _ => by
    simp only [Expr.reference]
    exact raise c _ _ _

theorem evalAll_unnoticed (hcall : call.Unnoticed c call') : ∀ (es : List Expr) (env : FrameId),
    (∀ n ∈ exprsNodes es, n.Known c.table) →
    Unnoticed c (evalAll c call es env) (evalAll c.unprobed call' es env)
  | [], env, _ => by
    rw [evalAll, evalAll]
    exact .pure _
  | e :: es, env, h => by
    obtain ⟨he, hes⟩ := List.forall_mem_append.1 h
    rw [evalAll, evalAll]
    exact (e.unnoticed hcall env he).bind fun v => (evalAll_unnoticed hcall es env hes).bind
      fun vs => .pure _

theorem evalProperties_unnoticed (hcall : call.Unnoticed c call') :
    ∀ (ps : List Property) (env : FrameId), (∀ n ∈ propertiesNodes ps, n.Known c.table) →
    Unnoticed c (evalProperties c call ps env) (evalProperties c.unprobed call' ps env)
  | [], env, _ => by
    rw [evalProperties, evalProperties]
    exact .pure _
  | ⟨k, e⟩ :: ps, env, h => by
    obtain ⟨he, hps⟩ := List.forall_mem_append.1 h
    rw [evalProperties, evalProperties]
    exact (e.unnoticed hcall env he).bind fun v => (evalProperties_unnoticed hcall ps env hps).bind
      fun vs => .pure _

end

theorem testHolds_unnoticed (hcall : call.Unnoticed c call') (e : Option Expr) (env : FrameId)
    (h : ∀ n ∈ exprNodes? e, n.Known c.table) :
    Unnoticed c (testHolds c call e env) (testHolds c.unprobed call' e env) := by
  cases e with
  | none => exact .pure _
  | some e => exact (e.unnoticed hcall env h).bind fun _ => .pure _

theorem evalOptional_unnoticed (hcall : call.Unnoticed c call') (e : Option Expr) (env : FrameId)
    (h : ∀ n ∈ exprNodes? e, n.Known c.table) :
    Unnoticed c (evalOptional c call e env) (evalOptional c.unprobed call' e env) := by
  cases e with
  | none => exact .pure _
  | some e => exact e.unnoticed hcall env h

theorem declareVars_unnoticed (hcall : call.Unnoticed c call') :
    ∀ (ds : List VarDecl) (env : FrameId), (∀ n ∈ declsNodes ds, n.Known c.table) →
    Unnoticed c (declareVars c call ds env) (declareVars c.unprobed call' ds env)
  | [], env, _ => .pure ()
  | ⟨s, e, p⟩ :: ds, env, h => by
    obtain ⟨he, hds⟩ := List.forall_mem_append.1 h
    refine .bind ?_ fun _ => declareVars_unnoticed hcall ds env hds
    cases e with
    | none => exact declare env s
    | some e => exact (e.unnoticed hcall env he).bind fun v => bindIn env env s v

theorem startFor_unnoticed (hcall : call.Unnoticed c call') (i : Option ForInit) (env : FrameId)
    (h : ∀ n ∈ forInitNodes i, n.Known c.table) :
    Unnoticed c (startFor c call i env) (startFor c.unprobed call' i env) := by
  rcases i with _ | ds | e
  · exact .pure ()
  · exact declareVars_unnoticed hcall ds env h
  · exact (e.unnoticed hcall env h).discard

theorem matchingCase_unnoticed (hcall : call.Unnoticed c call') :
    ∀ (cs : List SwitchCase) (v : Value) (env : FrameId), (∀ n ∈ casesNodes cs, n.Known c.table) →
      Unnoticed c (matchingCase c call cs v env) (matchingCase c.unprobed call' cs v env)
  | [], v, env, _ => .pure _
  | ⟨none, ss⟩ :: cs, v, env, h => by
    obtain ⟨-, hcs⟩ := List.forall_mem_append.1 (List.forall_mem_append.1 h).2
    exact (matchingCase_unnoticed hcall cs v env hcs).bind fun _ => .pure _
  | ⟨some e, ss⟩ :: cs, v, env, h => by
    obtain ⟨he, hrest⟩ := List.forall_mem_append.1 h
    obtain ⟨-, hcs⟩ := List.forall_mem_append.1 hrest
    refine (e.unnoticed hcall env he).bind fun w => ?_
    split
    · exact .pure _
    · exact (matchingCase_unnoticed hcall cs v env hcs).bind fun _ => .pure _

mutual

theorem Stmt.unnoticed (hcall : call.Unnoticed c call') :
    ∀ (s : Stmt) (label : Option String) (env : FrameId), (∀ n ∈ s.nodes, n.Known c.table) →
    Unnoticed c (s.exec c call label env) (s.exec c.unprobed call' label env)
  | .expr p e, label, env, h => by
    rw [Stmt.exec, Stmt.exec]
    split
    · exact .pure _
    · exact (e.unnoticed hcall env (List.forall_mem_cons.1 h).2).discard.bind fun _ => .pure _
  | .vars p ds, label, env, h => by
    rw [Stmt.exec, Stmt.exec]
    exact (declareVars_unnoticed hcall ds env (List.forall_mem_cons.1 h).2).bind fun _ => .pure _
  | .ret p e, label, env, h => by
    rw [Stmt.exec, Stmt.exec]
    exact (Unnoticed.together (fun _ _ _ _ => rfl)
      (evalOptional_unnoticed hcall e env (List.forall_mem_cons.1 h).2)).bind fun _ => .pure _
  | .raise p e, label, env, h => by
    rw [Stmt.exec, Stmt.exec]
    exact (e.unnoticed hcall env (List.forall_mem_cons.1 h).2).bind fun v =>
      (recordThrow c).bind fun _ => .throw _
  | .branch p t yes no, label, env, h => by
    obtain ⟨ht, hrest⟩ := List.forall_mem_append.1 (List.forall_mem_cons.1 h).2
    obtain ⟨hyes, hno⟩ := List.forall_mem_append.1 hrest
    rw [Stmt.exec, Stmt.exec]
    refine (t.unnoticed hcall env ht).bind fun v => ?_
    split
    · exact (tick c).bind fun _ => yes.unnoticed hcall none env hyes
    · exact execElse_unnoticed hcall no env hno
  | .whileLoop p t b, label, env, h => by
    obtain ⟨ht, hb⟩ := List.forall_mem_append.1 (List.forall_mem_cons.1 h).2
    rw [Stmt.exec, Stmt.exec]
    refine loop c ((t.unnoticed hcall env ht).bind fun v => ?_)
    split
    · exact (tick c).bind fun _ => (b.unnoticed hcall none env hb).bind fun _ => .pure _
    · exact .pure _
  | .doWhile p b t, label, env, h => by
    obtain ⟨hb, ht⟩ := List.forall_mem_append.1 (List.forall_mem_cons.1 h).2
    rw [Stmt.exec, Stmt.exec]
    refine loop c ((tick c).bind fun _ => (b.unnoticed hcall none env hb).bind fun flow => ?_)
    rcases flow.leaving? label with _ | flow
    · refine (t.unnoticed hcall env ht).bind fun v => ?_
      split <;> exact .pure _
    · exact .pure _
  | .forLoop p i t incr b, label, env, h => by
    obtain ⟨hi, hrest⟩ := List.forall_mem_append.1 (List.forall_mem_cons.1 h).2
    obtain ⟨ht, hrest⟩ := List.forall_mem_append.1 hrest
    obtain ⟨hincr, hb⟩ := List.forall_mem_append.1 hrest
    rw [Stmt.exec, Stmt.exec]
    refine (startFor_unnoticed hcall i env hi).bind fun _ =>
      loop c ((testHolds_unnoticed hcall t env ht).bind fun v => ?_)
    split
    · refine (tick c).bind fun _ => (b.unnoticed hcall none env hb).bind fun flow => ?_
      rcases flow.leaving? label with _ | flow
      · exact (evalOptional_unnoticed hcall incr env hincr).discard.bind fun _ => .pure _
      · exact .pure _
    · exact .pure _
  | .forIn p k d o b, label, env, h => by
    obtain ⟨ho, hb⟩ := List.forall_mem_append.1 (List.forall_mem_cons.1 h).2
    rw [Stmt.exec, Stmt.exec]
    exact (o.unnoticed hcall env ho).bind fun v => (keys v).bind fun ks => overKeys (fun key =>
      (bindIn env env k _).bind fun _ => (tick c).bind fun _ =>
        (b.unnoticed hcall none env hb).bind fun _ => .pure _) ks
  | .block p ⟨ss, q⟩, label, env, h => by
    rw [Stmt.exec, Stmt.exec]
    exact execStmts_unnoticed hcall ss env (List.forall_mem_cons.1 (List.forall_mem_cons.1 h).2).2
  | .tryBlock p ⟨ss, q⟩ cs f, label, env, h => by
    obtain ⟨hb, hrest⟩ := List.forall_mem_append.1 (List.forall_mem_cons.1 h).2
    obtain ⟨hcs, hf⟩ := List.forall_mem_append.1 hrest
    rw [Stmt.exec, Stmt.exec]
    refine (execStmts_unnoticed hcall ss env (List.forall_mem_cons.1 hb).2).observe_bind
      (fun outcome =>
      handle_unnoticed hcall cs outcome env hcs
        (fun outcome => finish_unnoticed hcall f outcome env hf) ?_) ?_
    · exact fun n m => noRoom_finish f n env m
    · intro n m
      simp only [handle, pure_bind]
      exact noRoom_finish f n env m
  | .labeled p l b, label, env, h => by
    rw [Stmt.exec, Stmt.exec]
    have hb := b.unnoticed hcall (some l) env (List.forall_mem_cons.1 h).2
    split
    · exact hb.bind fun flow => by split <;> exact .pure _
    · exact (tick c).bind fun _ => hb.bind fun flow => by split <;> exact .pure _
  | .breakTo p l, label, env, _ => by
    rw [Stmt.exec, Stmt.exec]
    exact .pure _
  | .continueTo p l, label, env, _ => by
    rw [Stmt.exec, Stmt.exec]
    exact .pure _
  | .switch p d cs, label, env, h => by
    obtain ⟨hd, hcs⟩ := List.forall_mem_append.1 (List.forall_mem_cons.1 h).2
    rw [Stmt.exec, Stmt.exec]
    refine (d.unnoticed hcall env hd).bind fun v => (matchingCase_unnoticed hcall cs v env hcs).bind
      fun i => ?_
    split
    · exact execCases_unnoticed hcall cs _ env hcs
    · exact .pure _
  | .empty p, label, env, _ => by
    rw [Stmt.exec, Stmt.exec]
    exact .pure _

theorem execStmts_unnoticed (hcall : call.Unnoticed c call') : ∀ (ss : List Stmt) (env : FrameId),
    (∀ n ∈ stmtsNodes ss, n.Known c.table) →
    Unnoticed c (execStmts c call ss env) (execStmts c.unprobed call' ss env)
  | [], env, _ => by
    rw [execStmts, execStmts]
    exact .pure _
  | s :: ss, env, h => by
    obtain ⟨hs, hss⟩ := List.forall_mem_append.1 h
    rw [execStmts, execStmts]
    refine (tick c).bind fun _ => (s.unnoticed hcall none env hs).bind fun flow => ?_
    cases flow with
    | next => exact execStmts_unnoticed hcall ss env hss
    | breaks _ | continues _ | returns _ => exact .pure _

theorem execElse_unnoticed (hcall : call.Unnoticed c call') : ∀ (s : Option Stmt) (env : FrameId),
    (∀ n ∈ stmtNodes? s, n.Known c.table) →
    Unnoticed c (execElse c call s env) (execElse c.unprobed call' s env)
  | none, env, _ => by
    rw [execElse, execElse]
    exact .pure _
  | some s, env, h => by
    rw [execElse, execElse]
    exact (tick c).bind fun _ => s.unnoticed hcall none env h

theorem handle_unnoticed (hcall : call.Unnoticed c call') :
    ∀ (cs : List Catch) (outcome : Except Abrupt Flow) (env : FrameId),
    (∀ n ∈ catchesNodes cs, n.Known c.table) →
      ∀ {g g' : Except Abrupt Flow → Eval Flow}, (∀ r, Unnoticed c (g r) (g' r)) →
      (∀ n m, NoRoom ((g (.error (.fault (.tooManyFrames n)))).go m).1) →
      Unnoticed c (handle c call cs outcome env >>= g)
        (handle c.unprobed call' cs outcome env >>= g')
  | [], outcome, env, _, _, _, hg, _ => hg outcome
  | ⟨param, sc, ⟨ss, q⟩, p⟩ :: cs, outcome, env, h, _, _, hg, hroom => by
    have hss := (List.forall_mem_cons.1 (List.forall_mem_append.1 h).1).2
    rcases outcome with (⟨v, r⟩ | f) | flow
    · exact .observe_bind ((onStore fun _ hh => hh.of_closures rfl).bind fun inner =>
        (define inner param v).bind fun _ => execStmts_unnoticed hcall ss inner hss) hg hroom
    · exact hg _
    · exact hg _

theorem finish_unnoticed (hcall : call.Unnoticed c call') :
    ∀ (b : Option Block) (outcome : Except Abrupt Flow) (env : FrameId),
    (∀ n ∈ blockNodes? b, n.Known c.table) →
      Unnoticed c (finish c call b outcome env) (finish c.unprobed call' b outcome env)
  | none, outcome, env, _ => by
    simp only [finish]
    exact .settle outcome
  | some _, .error (.fault f), env, _ => by
    simp only [finish]
    exact fault f
  | some ⟨ss, q⟩, .error (.thrown v p), env, h => by
    simp only [finish]
    refine (execStmts_unnoticed hcall ss env (List.forall_mem_cons.1 h).2).bind fun flow => ?_
    cases flow with
    | next => exact .settle _
    | breaks _ | continues _ | returns _ => exact .pure _
  | some ⟨ss, q⟩, .ok flow, env, h => by
    simp only [finish]
    refine (execStmts_unnoticed hcall ss env (List.forall_mem_cons.1 h).2).bind fun flow => ?_
    cases flow with
    | next => exact .settle _
    | breaks _ | continues _ | returns _ => exact .pure _

theorem execCases_unnoticed (hcall : call.Unnoticed c call') : ∀ (cs : List SwitchCase) (i : Nat)
    (env : FrameId), (∀ n ∈ casesNodes cs, n.Known c.table) →
    Unnoticed c (execCases c call cs i env) (execCases c.unprobed call' cs i env)
  | [], i, env, _ => by
    simp only [execCases]
    exact .pure _
  | ⟨t, ss⟩ :: cs, i + 1, env, h => by
    obtain ⟨-, hcs⟩ := List.forall_mem_append.1 (List.forall_mem_append.1 h).2
    rw [execCases, execCases]
    exact execCases_unnoticed hcall cs i env hcs
  | ⟨t, ss⟩ :: cs, 0, env, h => by
    obtain ⟨hss, hcs⟩ := List.forall_mem_append.1 (List.forall_mem_append.1 h).2
    rw [execCases, execCases]
    refine (execStmts_unnoticed hcall ss env hss).bind fun flow => ?_
    split
    · exact execCases_unnoticed hcall cs 0 env hcs
    · exact .pure _
    · exact .pure _

end

/-- The body of a function goes unnoticed, and so does the count of nested calls. -/
theorem unnoticed_enter (hcall : call.Unnoticed c call') {f : Closure}
    (hf : ∀ n ∈ f.func.nodes, n.Known c.table) (args : List Value) (p : Position) :
    Unnoticed c (enter c call f args p) (enter c.unprobed call' f args p) := by
  refine get_bind fun m => ?_
  by_cases hd : c.limits.calls ≤ m.callDepth
  · have hd' : c.unprobed.limits.calls ≤ m.unseen.callDepth := hd
    rw [if_pos hd, if_pos hd']
    exact fault_bind _
  have hd' : ¬ c.unprobed.limits.calls ≤ m.unseen.callDepth := hd
  rw [if_neg hd, if_neg hd']
  refine (prepare hf args).bind fun env => .bind ?_ fun _ =>
    (execStmts_unnoticed hcall _ env fun n hn => hf n (f.func.mem_nodes_of_body hn)).observe_bind
      (fun outcome => .bind ?_ fun _ => (Unnoticed.settle outcome).bind fun flow => ?_) fun n _ =>
        ⟨n, rfl⟩
  · exact of_quiet (fun _ => rfl) (fun _ => rfl) (fun _ => rfl) (fun _ => rfl) (fun _ => rfl)
      fun _ => rfl
  · exact of_quiet (fun _ => rfl) (fun _ => rfl) (fun _ => rfl) (fun _ => rfl) (fun _ => rfl)
      fun _ => rfl
  · cases flow with
    | next | returns _ => exact .pure _
    | breaks _ | continues _ => exact fault _

end

section

open Unnoticed

theorem Caller.unnoticed_ofEnter {c : Setting}
    {enter enter' : Closure → List Value → Position → Eval Value}
    (h : ∀ f args p, (∀ n ∈ f.func.nodes, n.Known c.table) →
      FrameLedger.Unnoticed c (enter f args p) (enter' f args p)) :
    (Caller.ofEnter c enter).Unnoticed c (Caller.ofEnter c.unprobed enter') := by
  intro callee args p
  refine Unnoticed.together (fun _ _ _ _ => rfl) ((tick c).bind fun _ => ?_)
  cases callee with
  | native k => exact makeError k args
  | function r =>
    refine store_bind fun g hg => ?_
    rcases hr : g.closure? r with _ | f
    · exact raise c p _ _
    · exact h f args p (hg f (Array.mem_of_getElem? hr))
  | undefined | null | bool _ | number _ | string _ | array _ | object _ =>
    exact (text _).bind fun _ => raise c p _ _

theorem Caller.unnoticed_within (c : Setting) : ∀ n,
    (Caller.within c n).Unnoticed c (Caller.within c.unprobed n)
  | 0 => unnoticed_ofEnter fun _ _ _ _ => fault _
  | n + 1 => unnoticed_ofEnter fun _ args p hf => unnoticed_enter (unnoticed_within c n) hf args p

theorem Program.unnoticed_exec {p : Program} {c : Setting}
    (hp : ∀ n ∈ p.code.nodes, n.Known c.table) :
    Unnoticed c (p.exec c) (p.exec c.unprobed) := by
  have hcode (n : Node) (hn : n ∈ stmtsNodes p.code.stmts) : n.Known c.table := by
    refine hp n ?_
    obtain ⟨⟨ss, q⟩, _, _, _⟩ := p
    exact List.mem_cons_of_mem _ hn
  refine (hoist hcode _).bind fun _ =>
    (execStmts_unnoticed (Caller.unnoticed_within c _) _ _ hcode).bind fun flow => ?_
  cases flow with
  | next => exact .pure _
  | breaks _ | continues _ | returns _ => exact fault _

end

/-! ## Plays -/

mutual

theorem Datum.closures_alloc : ∀ (d : Datum) (h : Store), (d.alloc h).2.closures = h.closures
  | .undefined, _ | .null, _ | .bool _, _ | .number _, _ | .string _, _ | .error .., _
  | .native _, _
  | .held _, _ => rfl
  | .array ds, h => allocAll_closures ds h
  | .object ps ctor, h => (allocOption_closures ctor _).trans (allocProperties_closures ps h)

theorem allocAll_closures : ∀ (ds : List Datum) (h : Store), (allocAll ds h).2.closures = h.closures
  | [], _ => rfl
  | d :: ds, h => (allocAll_closures ds _).trans (d.closures_alloc h)

theorem allocProperties_closures : ∀ (ps : List (String × Datum)) (h : Store),
    (allocProperties ps h).2.closures = h.closures
  | [], _ => rfl
  | (_, d) :: ps, h => (allocProperties_closures ps _).trans (d.closures_alloc h)

theorem allocOption_closures :
    ∀ (d : Option Datum) (h : Store), (allocOption d h).2.closures = h.closures
  | none, _ => rfl
  | some d, h => d.closures_alloc h

end

theorem Machine.start_known (t t' : ScopeTable) : (Machine.start t).store.Known t' := by
  dsimp only [Machine.start]
  refine List.foldlRecOn (motive := fun h : Store => h.Known t') ErrorKind.all _ ?_
    fun h hh k _ => ?_
  · intro cl hcl
    simp [Store.empty] at hcl
  · split
    · exact hh.of_closures rfl
    · exact hh

/-- What an act does to a session, and what it gives. -/
def Act.on : Act → Session → Except RunError Value × Session
  | .run, s => (s.run.1.map fun _ => .undefined, s.run.2)
  | .call name args, s => (s.alloc args).2.call name (s.alloc args).1

theorem Play.act_eq (x : Play) (a : Act) :
    x.act a = ⟨(a.on x.session).2, x.results ++ [(a.on x.session).1]⟩ := by cases a <;> rfl

/-- The session as it is without its probe. -/
def Session.unseen (s : Session) : Session := ⟨s.program, s.setting.unprobed, s.machine.unseen⟩

def Play.unseen (x : Play) : Play := ⟨x.session.unseen, x.results⟩

/-- A session of the program, all functions of which are made of nodes whose symbols are in the
table. -/
structure Session.Known (p : Program) (c : Setting) (s : Session) : Prop where
  program : s.program = p
  setting : s.setting = c
  store : s.machine.store.Known c.table

/-- The same of sessions with a probe and without one as `Unnoticed` of computations. -/
structure Session.Unnoticed (p : Program) (c : Setting)
    (x : Session → Except RunError α × Session) : Prop where
  adds : ∀ s, s.Known p c →
    (x s).2.Known p c ∧ ∃ new, (x s).2.machine.snapshots = s.machine.snapshots ++ new
  keeps : ∀ s, s.Known p c.unprobed → s.machine.snapshots = #[] →
    (x s).2.Known p c.unprobed ∧ (x s).2.machine.snapshots = #[] ∧
      ∃ es, (x s).2.machine.trace.val = s.machine.trace.val ++ es
  agrees : ∀ s, s.Known p c → x s.unseen = ((x s).1, (x s).2.unseen) ∨
    (∃ n, (x s).1 = .error (.fault (.tooManyFrames n))) ∧ c.ThrewDeep (x s.unseen).2.machine

section

variable {p : Program} {c : Setting}

namespace Session

theorem unnoticed_perform {x : Setting → Eval α}
    (hx : FrameLedger.Unnoticed c (x c) (x c.unprobed)) :
    Unnoticed p c fun s => s.perform (x s.setting) where
  adds s hs := by
    obtain ⟨hk, hnew⟩ := hx.adds s.machine hs.store
    simp only [perform_eq, hs.setting]
    exact ⟨⟨hs.program, rfl, hk⟩, hnew⟩
  keeps s hs hnone := by
    obtain ⟨hk, hnone, htrace⟩ := hx.keeps s.machine hs.store hnone
    simp only [perform_eq, hs.setting]
    exact ⟨⟨hs.program, rfl, hk⟩, hnone, htrace⟩
  agrees s hs := by
    have hunseen : s.unseen = ⟨s.program, c.unprobed, s.machine.unseen⟩ := by
      rw [unseen, hs.setting]
    simp only [perform_eq, hunseen, hs.setting]
    rcases hx.agrees s.machine hs.store with hgo | ⟨⟨n, hn⟩, hdeep⟩
    · rw [hgo, unseen]
      exact .inl rfl
    · exact .inr ⟨⟨n, by rw [hn]; rfl⟩, hdeep⟩

theorem unnoticed_run (hp : ∀ n ∈ p.code.nodes, n.Known c.table) : Unnoticed p c run := by
  have hrun := unnoticed_perform (p := p) (Program.unnoticed_exec hp)
  refine ⟨fun s hs => ?_, fun s hs => ?_, fun s hs => ?_⟩
  · rw [run, hs.program]
    exact hrun.adds s hs
  · rw [run, hs.program]
    exact hrun.keeps s hs
  · have hprogram : s.unseen.program = p := hs.program
    rw [run, run, hprogram, hs.program]
    exact hrun.agrees s hs

theorem unnoticed_call (name : String) (args : List Value) : Unnoticed p c (·.call name args) := by
  have hcall (callee : Value) (pos : Position) :=
    unnoticed_perform (p := p) (x := fun c => c.caller callee args pos)
      (Caller.unnoticed_within c _ callee args pos)
  refine ⟨fun s hs => ?_, fun s hs hnone => ?_, fun s hs => ?_⟩
  · simp only [call]
    split
    · split
      · exact (hcall _ _).adds s hs
      · exact ⟨hs, #[], by simp⟩
    · exact ⟨hs, #[], by simp⟩
  · simp only [call]
    split
    · split
      · exact (hcall _ _).keeps s hs hnone
      · exact ⟨hs, hnone, [], by simp⟩
    · exact ⟨hs, hnone, [], by simp⟩
  · have hglobal : s.unseen.global name = s.global name := rfl
    simp only [call, hglobal]
    split
    · split
      · exact (hcall _ _).agrees s hs
      · exact .inl rfl
    · exact .inl rfl

theorem unnoticed_act (hp : ∀ n ∈ p.code.nodes, n.Known c.table) (a : Act) :
    Unnoticed p c a.on := by
  cases a with
  | run =>
    have hrun := unnoticed_run hp
    refine ⟨hrun.adds, hrun.keeps, fun s hs => ?_⟩
    rcases hrun.agrees s hs with hgo | ⟨⟨n, hn⟩, hdeep⟩
    · refine .inl ?_
      rw [Act.on, hgo]
      rfl
    · exact .inr ⟨⟨n, by simp only [Act.on, hn]; rfl⟩, hdeep⟩
  | call name args =>
    have halloc {d : Setting} (s : Session) (hs : s.Known p d) : (s.alloc args).2.Known p d :=
      ⟨hs.program, hs.setting, hs.store.of_closures (allocAll_closures args _)⟩
    have hcall (s : Session) := unnoticed_call (p := p) (c := c) name (s.alloc args).1
    exact ⟨fun s hs => (hcall s).adds _ (halloc s hs), fun s hs => (hcall s).keeps _ (halloc s hs),
      fun s hs => (hcall s).agrees _ (halloc s hs)⟩

end Session

namespace Play

/-- Two plays side by side, the first of them with a probe. There are no snapshots in the second.
They differ in nothing else, unless the first ran out of room for a snapshot. -/
structure Alongside (p : Program) (c : Setting) (x y : Play) : Prop where
  probed : x.session.Known p c
  unprobed : y.session.Known p c.unprobed
  unseen : y.session.machine.snapshots = #[]
  agrees : y = x.unseen ∨
    (∃ n, .error (.fault (.tooManyFrames n)) ∈ x.results) ∧ c.ThrewDeep y.session.machine

variable {x y : Play}

theorem Alongside.act (hp : ∀ n ∈ p.code.nodes, n.Known c.table) (h : Alongside p c x y) (a : Act) :
    Alongside p c (x.act a) (y.act a) := by
  have ha := Session.unnoticed_act hp a
  obtain ⟨hunprobed, hunseen, es, hes⟩ := ha.keeps y.session h.unprobed h.unseen
  rw [act_eq, act_eq]
  refine ⟨(ha.adds x.session h.probed).1, hunprobed, hunseen, ?_⟩
  rcases h.agrees with rfl | ⟨⟨n, hn⟩, hdeep⟩
  · rcases ha.agrees x.session h.probed with hgo | ⟨⟨n, hn⟩, hdeep⟩
    · refine .inl ?_
      have hsession : x.unseen.session = x.session.unseen := rfl
      rw [hsession, hgo]
      rfl
    · exact .inr ⟨⟨n, List.mem_append_right _ (List.mem_singleton.2 hn.symm)⟩, hdeep⟩
  · exact .inr ⟨⟨n, List.mem_append_left _ hn⟩, hdeep.append hes⟩

theorem Alongside.acts (hp : ∀ n ∈ p.code.nodes, n.Known c.table) :
    ∀ (acts : List Act) {x y : Play}, Alongside p c x y →
    Alongside p c (acts.foldl Play.act x) (acts.foldl Play.act y)
  | [], _, _, h => h
  | a :: acts, _, _, h => Alongside.acts hp acts (h.act hp a)

/-- Going on only adds snapshots. -/
theorem exists_added (hp : ∀ n ∈ p.code.nodes, n.Known c.table) : ∀ (acts : List Act) {x : Play},
    x.session.Known p c →
    ∃ new, (acts.foldl Play.act x).session.machine.snapshots = x.session.machine.snapshots ++ new
  | [], _, _ => ⟨#[], by simp⟩
  | a :: acts, x, hx => by
    obtain ⟨hk, hnew⟩ := (Session.unnoticed_act hp a).adds x.session hx
    have hact : (x.act a).session = (a.on x.session).2 := congrArg Play.session (act_eq x a)
    rw [← hact] at hk hnew
    exact FrameLedger.Unnoticed.append_adds hnew (exists_added hp acts hk)

end Play

end

/-- However a program is played, a probe changes nothing: the acts give the same, the machine is the
same in all but the snapshots. There are none without a probe. With one, going on only adds to them.
The one exception is a stack too deep for a snapshot to list: then what was thrown there ends an act
for want of room. -/
theorem Play.probe_unnoticed {p : Program} (hp : ∀ n ∈ p.code.nodes, n.Known p.table)
    (v : StackVars) (limits : Limits) (acts more : List Act) :
    ((Play.of p none limits acts).results = (Play.of p (some v) limits acts).results ∧
        (∀ name, (Play.of p none limits acts).session.global name =
          (Play.of p (some v) limits acts).session.global name) ∧
        (Play.of p none limits acts).session.machine =
          { (Play.of p (some v) limits acts).session.machine with snapshots := #[] } ∨
      (∃ h x, Happens (.threw h) (Play.of p none limits acts).session.machine.trace.val ∧
        h.lookup Store.globals v.depth = some (.number x) ∧
        384307168202282325 ≤ (Binary64.ofFloat x).clampInt64) ∧
      ∃ n, .error (.fault (.tooManyFrames n)) ∈ (Play.of p (some v) limits acts).results) ∧
    (Play.of p none limits acts).session.machine.snapshots = #[] ∧
    ∃ new, (Play.of p (some v) limits (acts ++ more)).session.machine.snapshots =
      (Play.of p (some v) limits acts).session.machine.snapshots ++ new := by
  obtain ⟨c, hc⟩ : ∃ c : Setting, c = ⟨p.table, some v, limits⟩ := ⟨_, rfl⟩
  have hcode : ∀ n ∈ p.code.nodes, n.Known c.table := hc ▸ hp
  have hstart : Play.Alongside p c ⟨.start p (some v) limits, []⟩ ⟨.start p none limits, []⟩ := by
    subst hc
    exact ⟨⟨rfl, rfl, Machine.start_known _ _⟩, ⟨rfl, rfl, Machine.start_known _ _⟩, rfl, .inl rfl⟩
  have hplays : Play.Alongside p c (Play.of p (some v) limits acts) (Play.of p none limits acts) :=
    hstart.acts hcode acts
  refine ⟨?_, hplays.unseen, ?_⟩
  · rcases hplays.agrees with heq | ⟨hroom, w, h, hw, ⟨x, hx, hle⟩, hh⟩
    · exact .inl ⟨by rw [heq]; rfl, fun name => by rw [heq]; rfl, by rw [heq]; rfl⟩
    · obtain rfl : v = w := by
        subst hc
        exact Option.some.inj hw
      exact .inr ⟨⟨h, x, hh, hx, hle⟩, hroom⟩
  · rw [Play.of, List.foldl_append]
    exact Play.exists_added hcode more hplays.probed

/-- A play of `rescue` with the probe on its stack. -/
def rescueProbed (acts : List Act) : Play :=
  Play.of (rescue.emulate .lines).2 (some (rescue.stackVars .lines)) ⟨60, 8⟩ acts

theorem rescueProbed_evaluated : (rescue.emulate .lines).2.isResolved = true ∧
    (rescueProbed [.run, .call "g" []]).session.machine.snapshots.size = 1 ∧
    (rescueProbed [.run, .call "g" []]).results =
      [.ok .undefined, .error (.uncaught "7" ⟨"rescue.js", 1⟩)] := by decide +kernel

/-- A snapshot is taken where `g` throws, and nothing else is different. -/
theorem Play.probe_unnoticed_rescue :
    (∀ n ∈ (rescue.emulate .lines).2.code.nodes, n.Known (rescue.emulate .lines).2.table) ∧
      (rescueProbed [.run, .call "g" []]).session.machine.snapshots.size = 1 ∧
      (rescuePlay [.run, .call "g" []]).results = (rescueProbed [.run, .call "g" []]).results ∧
      (∀ name, (rescuePlay [.run, .call "g" []]).session.global name =
        (rescueProbed [.run, .call "g" []]).session.global name) ∧
      (rescuePlay [.run, .call "g" []]).session.machine =
        { (rescueProbed [.run, .call "g" []]).session.machine with snapshots := #[] } ∧
      ∃ new, (rescueProbed [.run, .call "g" [], .call "f" []]).session.machine.snapshots =
        (rescueProbed [.run, .call "g" []]).session.machine.snapshots ++ new := by
  obtain ⟨hresolved, hsize, hresults⟩ := rescueProbed_evaluated
  have hknown := (Program.resolved_of_isResolved hresolved).code
  obtain ⟨hagrees, -, hnew⟩ :=
    Play.probe_unnoticed hknown (rescue.stackVars .lines) ⟨60, 8⟩ [.run, .call "g" []]
      [.call "f" []]
  have hroom : ¬ ∃ n, .error (.fault (.tooManyFrames n)) ∈
      (rescueProbed [.run, .call "g" []]).results := by
    rintro ⟨n, hn⟩
    rw [hresults] at hn
    simp at hn
  obtain ⟨hsame, hglobals, hmachine⟩ := hagrees.resolve_right fun h => hroom h.2
  exact ⟨hknown, hsize, hsame, hglobals, hmachine, hnew⟩

open Builder in
/-- Throws where its variable `d` is `1e18`, and catches what it throws. -/
@[irreducible] def overdeep : Program :=
  ((do
    let s ← declareGlobal "s"
    let d ← declareGlobal "d"
    let p ← getPos
    let c ← catchClause "e" fun _ => return [.ofExpr (.assign p (.var p d) (.number p (-1)))]
    Builder.push (.vars p [⟨s, some (.array p []), p⟩, ⟨d, none, p⟩])
    Builder.push
      (.tryBlock p ⟨[.ofExpr (.assign p (.var p d) (.number p 1e18)), .raise p (.number p 1)], p⟩
      [c] none) : StateM Builder Unit).run (.start "overdeep.js")).2.program

/-- The variables `s` and `d` of `overdeep`, as those of a stack. -/
def overdeepVars : StackVars := ⟨⟨7⟩, ⟨8⟩, none⟩

/-- The depth where `overdeep` throws is below `2^63 - 1`, and yet a probe on it ends the run. -/
theorem Play.probe_noticed_overdeep :
    (∀ n ∈ overdeep.code.nodes, n.Known overdeep.table) ∧
      (Binary64.ofFloat 1e18).clampInt64 < 2 ^ 63 - 1 ∧
      (Play.of overdeep none ⟨60, 8⟩ [.run]).results = [.ok .undefined] ∧
      (Play.of overdeep (some overdeepVars) ⟨60, 8⟩ [.run]).results =
        [.error (.fault (.tooManyFrames (10 ^ 18 + 1)))] := by
  have hevaluated : overdeep.isResolved = true ∧ (Binary64.ofFloat 1e18).clampInt64 < 2 ^ 63 - 1 ∧
      (Play.of overdeep none ⟨60, 8⟩ [.run]).results = [.ok .undefined] ∧
      (Play.of overdeep (some overdeepVars) ⟨60, 8⟩ [.run]).results =
        [.error (.fault (.tooManyFrames (10 ^ 18 + 1)))] := by decide +kernel
  exact ⟨(Program.resolved_of_isResolved hevaluated.1).code, hevaluated.2⟩

end FrameLedger
