import FrameLedger.Proofs.Regime

/-!
# Steps of a program's own

Every operation that evaluation is made of respects a lawful regime: reading and writing variables
the program itself has, reading and writing properties, making values, throwing. Each gives values
that lead to nothing guarded if it gets such.
-/

namespace FrameLedger

theorem mem_resize {vs : Array Value} {n : Nat} {w : Value} (hw : w ∈ resize vs n) :
    w ∈ vs ∨ w = .undefined := by
  unfold resize at hw
  split at hw
  · obtain ⟨i, hi⟩ := Array.mem_iff_getElem?.1 hw
    rw [Array.take_eq_extract, Array.getElem?_extract] at hi
    split at hi
    · exact .inl (Array.mem_iff_getElem?.2 ⟨_, hi⟩)
    · nomatch hi
  · rcases Array.mem_append.1 hw with hw | hw
    · exact .inl hw
    · exact .inr (Array.mem_replicate.1 hw).2

namespace Regime

open Eval

variable {α β : Type} {J : Regime} {m n : Machine} {Q : α → Machine → Prop}

theorem Keeps.keys (hm : J.steady m) (v : Value) : J.Keeps (keys v) m fun _ _ => True := by
  cases v with
  | object r => exact Keeps.store_bind (.pure hm trivial)
  | array r => exact Keeps.store_bind (.pure hm trivial)
  | _ => exact .pure hm trivial

theorem Keeps.arithmetic (hm : J.steady m) (op : ArithOp) (l r : Value) :
    J.Keeps (arithmetic op l r) m J.Clear := by
  cases op with
  | add =>
    simp only [Eval.arithmetic]
    split
    · exact Keeps.text_bind (Keeps.text_bind (.pure hm trivial))
    · exact .pure hm trivial
  | _ => exact .pure hm trivial

/-- A place that the program itself knows. -/
def ClearRef (J : Regime) : Reference → Machine → Prop
  | .binding s, _ => J.site.Writes s
  | .property o _, m => J.Clear o m

theorem ClearRef.mono {r : Reference} (hr : J.ClearRef r m) (hg : J.Grows m n) :
    J.ClearRef r n := by
  cases r with
  | binding s => exact hr
  | property o k => exact Clear.mono hr hg

namespace Lawful

variable (hJ : J.Lawful) (hm : J.steady m)

include hJ hm

theorem of_ordinary {x : Eval α} {a : α} (hx : x.go m = (.ok a, n))
    (ho : m.Ordinary J.site.toLayout J.guarded n) (hq : Q a n) : J.Keeps x m Q :=
  .of_ok hx (hJ.sound.grows ho.store J.frame) (hJ.steady_ordinary m _ hm ho) hq

theorem charge (c : Setting) (k : Nat) :
    J.Keeps (charge c k) m fun _ n => n.store = m.store ∧ n.trace = m.trace := by
  have ho : m.Ordinary J.site.toLayout J.guarded { m with steps := m.steps + k } :=
    .of_store_eq (hJ.fits hm) rfl (Nat.le_add_right _ _) rfl
  by_cases hk : c.limits.steps < m.steps + k
  · rw [Keeps, Ends, go_charge, if_pos hk]
    exact ⟨.refl J m, hJ.failed (hJ.steady_ordinary m _ hm ho)⟩
  · exact hJ.of_ordinary hm (by rw [go_charge, if_neg hk]) ho ⟨rfl, rfl⟩

theorem tick (c : Setting) : J.Keeps (tick c) m fun _ n => n.store = m.store :=
  (hJ.charge hm c 1).mono fun _ _ _ _ hs => hs.1

theorem onStore {f : Store → α × Store}
    (ho : m.store.Ordinary J.site.toLayout J.guarded (f m.store).2)
    (hf : (f m.store).2.Fits J.site.toLayout J.guarded)
    (hq : Q (f m.store).1 (m.setStore (f m.store).2)) : J.Keeps (onStore f) m Q :=
  hJ.of_ordinary hm (go_onStore f m) (.setStore ho hf) hq

theorem modifyStore {f : Store → Store} {Q : Unit → Machine → Prop}
    (ho : m.store.Ordinary J.site.toLayout J.guarded (f m.store))
    (hf : (f m.store).Fits J.site.toLayout J.guarded) (hq : Q () (m.setStore (f m.store))) :
    J.Keeps (modifyStore f) m Q :=
  hJ.of_ordinary hm (go_modifyStore f m) (.setStore ho hf) hq

theorem ofDangling (r : Except Dangling α) : J.Keeps (ofDangling r) m fun _ _ => True := by
  cases r with
  | ok a => exact .pure hm trivial
  | error d => exact Keeps.fault (hJ.failed hm)

/-! ## Throwing -/

theorem recordThrow (c : Setting) :
    (∃ n, (recordThrow c).go m = (.ok (), n) ∧ n.store = m.store ∧ J.unwinding n) ∨
      ∃ e n, (Eval.recordThrow c).go m = (.error (.fault e), n) ∧ n.store = m.store ∧
        J.failed n := by
  have hu := hJ.threw m hm
  have hgo := go_recordThrow c m
  rcases hp : c.probe with _ | p
  · simp only [hp] at hgo
    exact .inl ⟨_, hgo, rfl, hu⟩
  · rcases hs : m.store.snapshot c.table p with d | _ | s <;> simp only [hp, hs] at hgo
    · exact .inr ⟨_, _, hgo, rfl, hJ.failed_of_unwinding _ hu⟩
    · exact .inl ⟨_, hgo, rfl, hu⟩
    · have hf := hJ.fits hm
      exact .inl
        ⟨_, hgo, rfl, hJ.unwinding_ordinary _ _ hu (.of_store_eq hf rfl (Nat.le_refl _) rfl)⟩

theorem recordThrow_bind (c : Setting) {v : Value} (hv : J.Clear v m) (p : Position) :
    J.Ends (Eval.recordThrow c >>= fun _ => throw (.thrown v p)) m Q := by
  rw [Ends, go_bind]
  rcases hJ.recordThrow hm c with ⟨n, hn, hs, hu⟩ | ⟨e, n, hn, hs, hf⟩ <;> rw [hn]
  · exact ⟨.of_store_eq hs, hu, .of_store_eq hv hs⟩
  · exact ⟨.of_store_eq hs, hf⟩

theorem raise (c : Setting) (p : Position) (k : ErrorKind) (message : String) :
    J.Keeps (raise c p k message : Eval α) m Q := by
  rw [Keeps, Ends, Eval.raise, go_bind]
  rcases hJ.recordThrow hm c with ⟨n, hn, hs, hu⟩ | ⟨e, n, hn, hs, hf⟩ <;> rw [hn]
  · have ho := n.store.ordinary_newObject J.site.toLayout J.guarded
      ⟨.ofList [("name", .string k.name), ("message", .string message)], some (.native k)⟩
    have hf := (hJ.unwinding_fits _ hu).newObject (n.store.clearObject_error J.guarded k message)
    simp only [go_bind, go_onStore, go_throw]
    exact ⟨(Grows.of_store_eq hs).trans (hJ.sound.grows ho J.frame), hJ.unwinding_ordinary _ _ hu
      (.setStore ho hf), trivial⟩
  · exact ⟨.of_store_eq hs, hf⟩

theorem raiseUnbound (c : Setting) (p : Position) (name : String) :
    J.Keeps (raiseUnbound c p name : Eval α) m Q :=
  hJ.raise hm c p _ _

/-! ## Properties -/

theorem element_clear {r : ArrayRef} {v : Value} (hv : v ∈ m.store.array r) : J.Clear v m := by
  rcases hr : m.store.arrays[r.index]? with _ | vs
  · simp [Store.array, hr] at hv
  · simp only [Store.array, hr, Option.getD_some] at hv
    exact (hJ.fits hm).arrays vs (Array.mem_iff_getElem?.2 ⟨_, hr⟩) v hv

theorem object_clear (r : ObjectRef) : m.store.ClearObject J.guarded (m.store.object r) := by
  rcases hr : m.store.objects[r.index]? with _ | o
  · simp only [Store.object, hr, Option.getD_none]
    exact ⟨fun _ he => absurd he List.not_mem_nil, by rintro _ ⟨⟩⟩
  · simp only [Store.object, hr, Option.getD_some]
    exact (hJ.fits hm).objects o (Array.mem_iff_getElem?.2 ⟨_, hr⟩)

theorem getProperty (c : Setting) (p : Position) (o : Value) (key : String) :
    J.Keeps (getProperty c p o key) m J.Clear := by
  cases o with
  | undefined => exact hJ.raise hm c p _ _
  | null => exact hJ.raise hm c p _ _
  | array r =>
    refine Keeps.store_bind ?_
    split
    · exact .pure hm trivial
    · refine .pure hm ?_
      rcases he : (arrayIndex? key).bind ((m.store.array r)[·]?) with _ | v
      · trivial
      · obtain ⟨i, -, hi⟩ := Option.bind_eq_some_iff.1 he
        exact hJ.element_clear hm (Array.mem_iff_getElem?.2 ⟨i, hi⟩)
  | string s =>
    simp only [Eval.getProperty]
    split
    · exact .pure hm trivial
    · refine .pure hm ?_
      rcases (arrayIndex? key).bind (s.toList[·]?) with _ | _ <;> trivial
  | object r =>
    refine Keeps.store_bind (.pure hm ?_)
    rcases he : ((m.store.object r).properties.get? key) with _ | v
    · trivial
    · obtain ⟨e, hmem, rfl⟩ := SortedMap.exists_mem_of_findEntry he
      exact (hJ.object_clear hm r).1 e hmem
  | native k =>
    refine .pure hm ?_
    split <;> trivial
  | bool b => exact .pure hm trivial
  | number x => exact .pure hm trivial
  | function r => exact .pure hm trivial

theorem grow (c : Setting) (r : ArrayRef) (k : Nat) :
    J.Keeps (grow c r k) m fun _ n => n.store = m.store ∧ n.trace = m.trace := by
  refine Keeps.store_bind ?_
  dsimp only
  split
  · exact hJ.charge hm c _
  · exact .pure hm ⟨rfl, rfl⟩

theorem modifyArray {r : ArrayRef} (hr : ¬ J.guarded r) {f : Array Value → Array Value}
    (hf : ∀ w ∈ f (m.store.array r), J.Clear w m) :
    J.Keeps (Eval.modifyStore (·.modifyArray r f)) m fun _ _ => True :=
  hJ.modifyStore hm (Store.ordinary_modifyArray _ hr f) ((hJ.fits hm).modifyArray hf) trivial

theorem setElement (c : Setting) {r : ArrayRef} (hr : ¬ J.guarded r) (i : Nat) {v : Value}
    (hv : J.Clear v m) : J.Keeps (setElement c r i v) m fun _ _ => True := by
  refine (hJ.grow hm c r (i + 1)).bind fun _ n hg hn _ => ?_
  refine (hJ.modifyArray hn hr fun w hw => ?_).bind fun _ k _ hk _ => ?_
  · rcases Array.mem_or_eq_of_mem_setIfInBounds hw with hw | rfl
    · split at hw
      · rcases mem_resize hw with hw | rfl
        · exact hJ.element_clear hn hw
        · trivial
      · exact hJ.element_clear hn hw
    · exact hv.mono hg
  · have hf := hJ.fits hk
    refine hJ.of_ordinary hk (go_modify _ _) ?_ trivial
    exact {
      store := .refl _ _ _
      fits := hf
      steps_le := Nat.le_refl _
      trace :=
        ⟨[.element k.store r i v], by simp, by simpa [Event.OrdinaryFrom] using ⟨.refl _ _ _, hr⟩⟩ }

theorem setLength (c : Setting) {r : ArrayRef} (hr : ¬ J.guarded r) (k : Nat) :
    J.Keeps (setLength c r k) m fun _ _ => True := by
  refine (hJ.grow hm c r k).bind fun _ n _ hn _ => hJ.modifyArray hn hr fun w hw => ?_
  rcases mem_resize hw with hw | rfl
  · exact hJ.element_clear hn hw
  · trivial

theorem modifyObject {r : ObjectRef} {f : Object → Object}
    (hf : m.store.ClearObject J.guarded (f (m.store.object r))) :
    J.Keeps (Eval.modifyStore (·.modifyObject r f)) m fun _ _ => True :=
  hJ.modifyStore hm (Store.ordinary_modifyObject _ _ _ r f) ((hJ.fits hm).modifyObject hf) trivial

theorem setProperty (c : Setting) (p : Position) {o : Value} (ho : J.Clear o m) (key : String)
    {v : Value} (hv : J.Clear v m) :
    J.Keeps (setProperty c p o key v) m fun _ _ => True := by
  cases o with
  | undefined => exact hJ.raise hm c p _ _
  | null => exact hJ.raise hm c p _ _
  | array r =>
    simp only [Eval.setProperty]
    split
    · split
      · exact hJ.setLength hm c ho.2 _
      · exact Keeps.text_bind (hJ.raise hm c p _ _)
    · split
      · exact hJ.setElement hm c ho.2 _ hv
      · exact .pure hm trivial
  | object r =>
    refine hJ.modifyObject hm ⟨fun e he => ?_, (hJ.object_clear hm r).2⟩
    rcases mem_insertEntry he with rfl | he
    · exact hv
    · exact (hJ.object_clear hm r).1 e he
  | bool b => exact .pure hm trivial
  | number x => exact .pure hm trivial
  | string s => exact .pure hm trivial
  | function r => exact .pure hm trivial
  | native k => exact .pure hm trivial

theorem deleteProperty {o : Value} (ho : J.Clear o m) (key : String) :
    J.Keeps (deleteProperty o key) m fun _ _ => True := by
  cases o with
  | array r =>
    simp only [Eval.deleteProperty]
    split
    · refine hJ.modifyArray hm ho.2 fun w hw => ?_
      rcases Array.mem_or_eq_of_mem_setIfInBounds hw with hw | rfl
      · exact hJ.element_clear hm hw
      · trivial
    · exact .pure hm trivial
  | object r =>
    refine hJ.modifyObject hm ⟨fun e he => ?_, (hJ.object_clear hm r).2⟩
    exact (hJ.object_clear hm r).1 e (List.mem_filter.1 he).1
  | undefined => exact .pure hm trivial
  | null => exact .pure hm trivial
  | bool b => exact .pure hm trivial
  | number x => exact .pure hm trivial
  | string s => exact .pure hm trivial
  | function r => exact .pure hm trivial
  | native k => exact .pure hm trivial

/-! ## Operations -/

theorem operate (c : Setting) (p : Position) (op : EagerOp) (l r : Value) :
    J.Keeps (operate c p op l r) m J.Clear := by
  cases op with
  | instanceOf =>
    simp only [Eval.operate]
    split
    · exact Keeps.store_bind (.pure hm trivial)
    · exact hJ.raise hm c p _ _
  | member =>
    refine Keeps.text_bind (Keeps.bind (P := fun _ _ => True) ?_ fun _ n _ hn _ => .pure hn trivial)
    cases r with
    | object r => exact Keeps.store_bind (.pure hm trivial)
    | array r => exact Keeps.store_bind (.pure hm trivial)
    | _ => exact hJ.raise hm c p _ _
  | arith op => exact .arithmetic hm op l r
  | _ => exact .pure hm trivial

theorem makeError (k : ErrorKind) (args : List Value) : J.Keeps (makeError k args) m J.Clear := by
  have hnew (message : String) : J.Keeps (Eval.onStore (·.newError k message)) m J.Clear :=
    hJ.onStore hm (Store.ordinary_newObject _ _ _ _)
      ((hJ.fits hm).newObject (Store.clearObject_error _ _ _ _)) trivial
  unfold Eval.makeError
  split
  · exact hnew ""
  · exact hnew ""
  · exact Keeps.text_bind (hnew _)

/-! ## Variables -/

theorem define {s : SymbolId} (hs : J.site.Writes s) (f : FrameId) {v : Value} (hv : J.Clear v m) :
    m.Ordinary J.site.toLayout J.guarded (m.setStore (m.store.define f s v)) :=
  .setStore (Store.ordinary_define _ hs f v) ((hJ.fits hm).define f (hJ.sound.not_uses hs.1) hv)

theorem bindIn (env frame : FrameId) {s : SymbolId} (hs : J.site.Writes s) {v : Value}
    (hv : J.Clear v m) : J.Keeps (bindIn env frame s v) m fun _ _ => True := by
  rcases ho : m.store.owner? env s with _ | f
  · have hgo : (Eval.bindIn env frame s v).go m =
        (.ok (), m.setStore (m.store.define frame s v)) := by
      simp only [Eval.bindIn, go_modifyStore, ho]
    exact hJ.of_ordinary hm hgo (hJ.define hm hs frame hv) trivial
  · have hgo : (Eval.bindIn env frame s v).go m = (.ok (), m.setStore (m.store.define f s v)) := by
      simp only [Eval.bindIn, go_modifyStore, ho]
    exact hJ.of_ordinary hm hgo (hJ.define hm hs f hv) trivial

theorem declare (env : FrameId) {s : SymbolId} (hs : J.site.Writes s) :
    J.Keeps (Eval.modifyStore (·.declare env s)) m fun _ _ => True := by
  have hgo := go_modifyStore (·.declare env s) m
  rcases m.store.declare_eq env s with he | ⟨-, he⟩ <;> rw [he] at hgo
  · exact hJ.of_ordinary hm hgo (.setStore (.refl _ _ _) (hJ.fits hm)) trivial
  · exact hJ.of_ordinary hm hgo (hJ.define hm hs env trivial) trivial

theorem readBinding (c : Setting) (p : Position) (env : FrameId) (s : SymbolId) :
    J.Keeps (Eval.read c p env (.binding s)) m fun v n => n = m ∧
      m.store.lookup env s = some v := by
  refine Keeps.store_bind ?_
  split
  · next v hv => exact .pure hm ⟨rfl, hv⟩
  · exact (hJ.ofDangling hm _).bind fun _ n _ hn _ => hJ.raiseUnbound hn c p _

theorem readVar (c : Setting) (p : Position) (env : FrameId) {s : SymbolId}
    (hs : s.index < J.site.base) :
    J.Keeps (Eval.read c p env (.binding s)) m J.Clear :=
  (hJ.readBinding hm c p env s).mono fun v n _ _ h => by
    obtain ⟨rfl, hv⟩ := h
    exact (hJ.fits hm).lookup_clear (hJ.sound.not_uses hs) hv

theorem read (c : Setting) (p : Position) (env : FrameId) {r : Reference} (hr : J.ClearRef r m) :
    J.Keeps (Eval.read c p env r) m J.Clear := by
  cases r with
  | binding s => exact hJ.readVar hm c p env hr.1
  | property o k => exact hJ.getProperty hm c p o k

theorem write (c : Setting) (p : Position) (env : FrameId) {r : Reference} (hr : J.ClearRef r m)
    {v : Value} (hv : J.Clear v m) :
    J.Keeps (write c p env r v) m fun _ _ => True := by
  cases r with
  | binding s => exact hJ.bindIn hm env _ hr hv
  | property o k => exact hJ.setProperty hm c p hr k hv

theorem update (c : Setting) (p q : Position) (env : FrameId) {r : Reference} (hr : J.ClearRef r m)
    (amount : Float) : J.Keeps (update c p q env r amount) m fun _ _ => True :=
  (hJ.read hm c q env hr).bind fun v n hg hn _ =>
    have hnew : J.Clear (.number (v.toNumber + amount)) n := trivial
    (hJ.write hn c p env (hr.mono hg) hnew).bind fun _ _ _ hk _ => .pure hk trivial

/-- A function is made and bound to its name. -/
theorem declareFunc {f f' : Func} (hp : J.site.pairs f f') {s : SymbolId} (hn : f'.name = some s)
    (hs : J.site.Writes s) {env : FrameId} (henv : m.store.Has env) :
    J.Keeps (do
      let v ← closure f' env
      Eval.modifyStore (·.define env s v)
      return v) m J.Clear := by
  have ho := m.store.ordinary_newClosure J.site.toLayout J.guarded ⟨f', env⟩
  have hd := Store.ordinary_define (h := (m.store.newClosure ⟨f', env⟩).2) J.guarded hs env
    (m.store.newClosure ⟨f', env⟩).1
  refine hJ.of_ordinary hm (n := (m.setStore (m.store.newClosure ⟨f', env⟩).2).setStore
    ((m.store.newClosure ⟨f', env⟩).2.define env s (m.store.newClosure ⟨f', env⟩).1)) rfl ?_ trivial
  exact {
    store := ho.trans hd
    fits := (hJ.fits hm).declareFunc hp henv hn (hJ.sound.not_uses hs.1)
    steps_le := Nat.le_refl _
    trace := ⟨_, by simp only [Machine.setStore_trace, List.append_assoc]; rfl, by
      simpa [Event.OrdinaryFrom] using ⟨ho, ho.trans hd⟩⟩ }

/-- A function is made and, if it has a name, bound to it. -/
theorem func {f f' : Func} (hp : J.site.pairs f f') (hw : ∀ s, f.name = some s → J.site.Writes s)
    {env : FrameId} (henv : m.store.Has env) :
    J.Keeps (do
      let v ← closure f' env
      match f'.name with
      | some s => Eval.modifyStore (·.define env s v)
      | none => pure ()
      return v) m J.Clear := by
  rcases hn : f'.name with _ | s
  · refine hJ.of_ordinary hm (n := m.setStore (m.store.newClosure ⟨f', env⟩).2) rfl ?_ trivial
    exact .setStore (m.store.ordinary_newClosure J.site.toLayout J.guarded ⟨f', env⟩)
      ((hJ.fits hm).newClosure hp henv fun s hs => by simp [hn] at hs)
  · exact hJ.declareFunc hm hp hn (hw s ((hJ.sound.framed f f' hp).name ▸ hn)) henv

/-! ## Calls -/

/-- A call respects a regime if entering a function does. -/
theorem invoke (c : Setting) {enter : Closure → List Value → Position → Eval Value}
    {args : List Value} (hargs : ∀ v ∈ args, J.Clear v m) (p : Position)
    (henter : ∀ n r cl, J.steady n →
      n.store.closure? r = some cl → (∀ v ∈ args, J.Clear v n) →
        J.Keeps (enter cl args p) n J.Clear)
    (callee : Value) : J.Keeps (Caller.invoke c enter callee args p) m J.Clear := by
  refine (hJ.tick hm c).bind fun _ n hg hn _ => ?_
  cases callee with
  | native k => exact hJ.makeError hn k args
  | function r =>
    refine Keeps.store_bind ?_
    rcases hcl : n.store.closure? r with _ | cl
    · exact hJ.raise hn c p _ _
    · exact henter n r cl hn hcl fun v hv => (hargs v hv).mono hg
  | _ => exact Keeps.text_bind (hJ.raise hn c p _ _)

end Lawful

end Regime

end FrameLedger
