import FrameLedger.Proofs.Ordinary
import FrameLedger.Proofs.Outcome

/-!
# Regimes

A regime says what a machine is held to while the code of one frame is in control: in what state the
code runs, in what state something thrown leaves it, and in what state the run may end.
`Regime.Keeps` says that a computation respects it. A regime is lawful when what a program does by
its own code respects it; then so does everything that is made of such steps.
-/

namespace FrameLedger

structure Layout.Sound (L : Layout) : Prop where
  fresh : ∀ s, L.vars.Uses s → L.base ≤ s.index
  stack_ne_depth : L.vars.stack ≠ L.vars.depth
  location_ne : ∀ s, L.vars.location = some s → s ≠ L.vars.stack ∧ s ≠ L.vars.depth
  wrap_lt : L.wrap.index < L.base
  framed : ∀ f f', L.pairs f f' → f.FramedAs L f'

namespace Layout.Sound

variable {L : Layout}

theorem not_uses (hL : L.Sound) {s : SymbolId} (hs : s.index < L.base) : ¬ L.vars.Uses s :=
  fun hu => Nat.not_le_of_lt hs (hL.fresh s hu)

theorem not_writes (hL : L.Sound) {s : SymbolId} (hs : L.vars.Uses s) : ¬ L.Writes s := fun hw =>
  hL.not_uses hw.1 hs

end Layout.Sound

structure Site.Sound (K : Site) : Prop extends K.toLayout.Sound where
  apart : ∀ own, K.own = some own → ∃ declared, own.Apart K.vars K.base declared

namespace Site.Sound

variable {K : Site}

theorem plain {L : Layout} (hL : L.Sound) : Sound ⟨L, none⟩ := ⟨hL, fun _ ho => nomatch ho⟩

theorem own_fresh (hK : K.Sound) {own : Own} (ho : K.own = some own) {s : SymbolId}
    (hs : own.Uses s) :
    ¬ K.Writes s ∧ ¬ K.vars.Uses s := by
  obtain ⟨declared, ha⟩ := hK.apart own ho
  obtain ⟨hbase, hvars⟩ := ha.fresh s (ha.mem s hs)
  exact ⟨fun hw => Nat.not_le_of_lt hw.1 hbase, hvars⟩

theorem grows (hK : K.Sound) {G : ArrayRef → Prop} {h h' : Store} (a : h.Ordinary K.toLayout G h')
    (B : FrameId) : h.Grows K B h' :=
  a.grows fun _ _ ho hs => (hK.own_fresh ho (.inr (.inr hs))).1

end Site.Sound

/-- What grows without a frame grows beside any frame. -/
theorem Store.Grows.beside {K : Site} {B : FrameId} {h h' : Store}
    (hg : h.Grows ⟨K.toLayout, none⟩ B h') (hK : K.Sound) (B' : FrameId) :
    h.Grows K B' h' where
  has := hg.has
  parent? := hg.parent?
  bound := hg.bound
  others f s hf hs hm :=
    hg.others f s hf hs fun h => h.elim (fun hv => hm (.inl hv)) fun ⟨_, ho, _⟩ => nomatch ho
  closure? := hg.closure?
  arrays_le := hg.arrays_le
  flag own s ho hs hv := by
    obtain ⟨hw, hvars⟩ := hK.own_fresh ho (.inr (.inr hs))
    rw [hg.others B' s (has_of_local? hv) hw, hv]
    rintro (hu | ⟨_, ho, _⟩)
    · exact hvars hu
    · nomatch ho

/-- An event of the program's own code, in a run from the given store on. -/
def Event.OrdinaryFrom (L : Layout) (G : ArrayRef → Prop) (h : Store) : Event → Prop
  | .store h' => h.Ordinary L G h'
  | .element h' r _ _ => h.Ordinary L G h' ∧ ¬ G r
  | _ => False

/-- What a machine does by the program's own code. -/
structure Machine.Ordinary (L : Layout) (G : ArrayRef → Prop) (m n : Machine) : Prop where
  store : m.store.Ordinary L G n.store
  fits : n.store.Fits L G
  steps_le : m.steps ≤ n.steps
  trace : ∃ es, n.trace.val = m.trace.val ++ es ∧ ∀ e ∈ es, e.OrdinaryFrom L G m.store

namespace Machine.Ordinary

variable {L : Layout} {G : ArrayRef → Prop} {m n k : Machine}

theorem trans (a : m.Ordinary L G n) (b : n.Ordinary L G k) : m.Ordinary L G k where
  store := a.store.trans b.store
  fits := b.fits
  steps_le := Nat.le_trans a.steps_le b.steps_le
  trace := by
    obtain ⟨es, hes, h⟩ := a.trace
    obtain ⟨fs, hfs, h'⟩ := b.trace
    refine ⟨es ++ fs, by rw [hfs, hes, List.append_assoc], fun e he => ?_⟩
    rcases List.mem_append.1 he with he | he
    · exact h e he
    · have := h' e he
      cases e with
      | store g => exact a.store.trans this
      | element g r i v => exact ⟨a.store.trans this.1, this.2⟩
      | _ => exact this.elim

/-- Steps and snapshots are nothing the layout of the store depends on. -/
theorem of_store_eq (hf : m.store.Fits L G) (hs : n.store = m.store) (hsteps : m.steps ≤ n.steps)
    (ht : n.trace.val = m.trace.val) : m.Ordinary L G n where
  store := hs ▸ .refl L G m.store
  fits := hs ▸ hf
  steps_le := hsteps
  trace := ⟨[], by simp [ht], by simp⟩

theorem setStore {h : Store} (hs : m.store.Ordinary L G h) (hf : h.Fits L G) :
    m.Ordinary L G (m.setStore h) where
  store := hs
  fits := hf
  steps_le := Nat.le_refl _
  trace := ⟨[.store h], by simp, by simpa [Event.OrdinaryFrom] using hs⟩

end Machine.Ordinary

structure Regime where
  site : Site
  /-- Where the code keeps its frame. -/
  frame : FrameId
  guarded : ArrayRef → Prop
  /-- The code runs. -/
  steady : Machine → Prop
  /-- Something was thrown. -/
  unwinding : Machine → Prop
  /-- The run has ended by a fault. -/
  failed : Machine → Prop
  /-- The code is left by a `return`, from a place with this exit. -/
  left : Option (Option SymbolId) → Machine → Prop

namespace Regime

structure Lawful (J : Regime) : Prop where
  sound : J.site.Sound
  unwinding_fits : ∀ m, J.unwinding m → m.store.Fits J.site.toLayout J.guarded
  steady_ordinary : ∀ m n, J.steady m → m.Ordinary J.site.toLayout J.guarded n → J.steady n
  unwinding_ordinary : ∀ m n, J.unwinding m → m.Ordinary J.site.toLayout J.guarded n → J.unwinding n
  unwinding_of_steady : ∀ m, J.steady m → J.unwinding m
  failed_of_unwinding : ∀ m, J.unwinding m → J.failed m
  failed_callDepth : ∀ m d, J.failed m → J.failed { m with callDepth := d }
  threw : ∀ m, J.steady m → J.unwinding (m.log (.threw m.store))

variable {α β : Type} (J : Regime)

def Grows (m n : Machine) : Prop := m.store.Grows J.site J.frame n.store

def Clear (v : Value) (m : Machine) : Prop := m.store.Clear J.guarded v

/-- How a computation may end; `Q` is for what it gives. -/
def Result (Q : α → Machine → Prop) : Except Abrupt α → Machine → Prop
  | .ok a, n => Q a n
  | .error (.thrown v _), n => J.unwinding n ∧ J.Clear v n
  | .error (.fault _), n => J.failed n

/-- The computation respects the regime, and `Q` holds of what it gives. -/
def Ends (x : Eval α) (m : Machine) (Q : α → Machine → Prop) : Prop :=
  J.Grows m (x.go m).2 ∧ J.Result Q (x.go m).1 (x.go m).2

/-- The same with regard to an earlier machine: what has been made since then may have changed. -/
def EndsFrom (m₀ : Machine) (x : Eval α) (m : Machine) (Q : α → Machine → Prop) : Prop :=
  J.Grows m₀ (x.go m).2 ∧ J.Result Q (x.go m).1 (x.go m).2

/-- The computation leaves the machine in the state in which the code goes on. -/
def Keeps (x : Eval α) (m : Machine) (Q : α → Machine → Prop) : Prop :=
  J.Ends x m fun a n => J.steady n ∧ Q a n

variable {J} {x : Eval α} {f : α → Eval β} {m n : Machine} {P Q : α → Machine → Prop}
  {R : β → Machine → Prop}

theorem Grows.refl (J : Regime) (m : Machine) : J.Grows m m := Store.Grows.refl _ _ _

theorem Grows.trans {k : Machine} (a : J.Grows m n) (b : J.Grows n k) : J.Grows m k :=
  Store.Grows.trans a b

theorem Clear.mono {v : Value} (hv : J.Clear v m) (hg : J.Grows m n) : J.Clear v n :=
  Store.Clear.mono hv hg.arrays_le

theorem Grows.of_store_eq (hs : n.store = m.store) : J.Grows m n := by
  rw [Grows, hs]
  exact .refl _ _ _

theorem Clear.of_store_eq {v : Value} (hv : J.Clear v m) (hs : n.store = m.store) :
    J.Clear v n := by
  rwa [Clear, hs]

theorem Ends.of_ok {a : α} (hx : x.go m = (.ok a, n)) (hg : J.Grows m n) (hq : Q a n) :
    J.Ends x m Q := by
  rw [Ends, hx]
  exact ⟨hg, hq⟩

theorem Ends.observe_bind {f : Except Abrupt α → Eval β} (hx : J.Ends x m P)
    (hf : ∀ o n, J.Grows m n → J.Result P o n → J.Ends (f o) n R) :
    J.Ends (Eval.observe x >>= f) m R := by
  have h := hf _ _ hx.1 hx.2
  rw [Ends, Eval.go_bind, Eval.go_observe]
  exact ⟨hx.1.trans h.1, h.2⟩

theorem Ends.observe (hx : J.Ends x m P) : J.Ends (Eval.observe x) m (J.Result P) := hx

theorem Ends.settle {o : Except Abrupt α} (ho : J.Result Q o m) : J.Ends (Eval.settle o) m Q := by
  rw [Ends, Eval.go_settle]
  exact ⟨.refl J m, ho⟩

theorem Ends.bind (hx : J.Ends x m P) (hf : ∀ a n, J.Grows m n → P a n → J.Ends (f a) n R) :
    J.Ends (x >>= f) m R := by
  have hgo : (x >>= f).go m = (Eval.observe x >>= fun o => Eval.settle o >>= f).go m := by
    rw [Eval.go_bind, Eval.go_bind, Eval.go_observe]
    simp only [Eval.go_bind, Eval.go_settle]
  rw [Ends, hgo]
  refine Ends.observe_bind hx fun o n hg ho => ?_
  rcases o with (⟨v, p⟩ | e) | a
  · exact ⟨.refl J n, ho⟩
  · exact ⟨.refl J n, ho⟩
  · exact hf a n hg ho

theorem Ends.since {m₀ : Machine} (hx : J.Ends x m P) (hg : J.Grows m₀ m) : J.EndsFrom m₀ x m P :=
  ⟨hg.trans hx.1, hx.2⟩

theorem EndsFrom.bind {m₀ : Machine} (hx : J.EndsFrom m₀ x m P)
    (hf : ∀ a n, P a n → J.EndsFrom m₀ (f a) n R) : J.EndsFrom m₀ (x >>= f) m R := by
  have h := hx.2
  rw [EndsFrom, Eval.go_bind]
  rcases hgo : x.go m with ⟨(⟨v, p⟩ | e) | a, n⟩ <;> rw [hgo] at h
  · exact ⟨by simpa [hgo] using hx.1, h⟩
  · exact ⟨by simpa [hgo] using hx.1, h⟩
  · exact hf a n h

theorem EndsFrom.mono {m₀ : Machine} (hx : J.EndsFrom m₀ x m P) (hq : ∀ a n, P a n → Q a n) :
    J.EndsFrom m₀ x m Q := by
  refine ⟨hx.1, ?_⟩
  have h := hx.2
  rcases ho : (x.go m).1 with (⟨v, p⟩ | e) | a <;> rw [ho] at h
  · exact h
  · exact h
  · exact hq a _ h

theorem EndsFrom.of_ok {m₀ : Machine} {a : α} (hx : x.go m = (.ok a, n)) (hg : J.Grows m₀ n)
    (hq : Q a n) :
    J.EndsFrom m₀ x m Q := by
  rw [EndsFrom, hx]
  exact ⟨hg, hq⟩

theorem EndsFrom.grows {m₀ : Machine} (hx : J.EndsFrom m₀ x m P) :
    J.EndsFrom m₀ x m fun a n => J.Grows m₀ n ∧ P a n := by
  obtain ⟨hg, h⟩ := hx
  refine ⟨hg, ?_⟩
  rcases hgo : x.go m with ⟨(⟨v, p⟩ | e) | a, n⟩ <;> rw [hgo] at h hg
  · exact h
  · exact h
  · exact ⟨hg, h⟩

theorem EndsFrom.observe {m₀ : Machine} (hx : J.EndsFrom m₀ x m P) :
    J.EndsFrom m₀ (Eval.observe x) m (J.Result P) := hx

theorem EndsFrom.settle {m₀ : Machine} {o : Except Abrupt α} (ho : J.Result P o m)
    (hg : J.Grows m₀ m) :
    J.EndsFrom m₀ (Eval.settle o) m P := (Ends.settle ho).since hg

theorem EndsFrom.modify_bind {m₀ : Machine} {g : Machine → Machine} {f : Unit → Eval β}
    (h : J.EndsFrom m₀ (f ()) (g m) R) : J.EndsFrom m₀ (modify g >>= f) m R := by
  unfold EndsFrom at h ⊢
  rwa [Eval.go_bind, Eval.go_modify]

theorem Ends.mono (hx : J.Ends x m P) (hq : ∀ a n, J.Grows m n → P a n → Q a n) : J.Ends x m Q := by
  refine ⟨hx.1, ?_⟩
  have h := hx.2
  rcases ho : (x.go m).1 with (⟨v, p⟩ | e) | a <;> rw [ho] at h
  · exact h
  · exact h
  · exact hq a _ hx.1 h

/-- A computation that respects one regime respects another one that asks for no more. -/
theorem Ends.transport {J' : Regime} (hx : J.Ends x m P) (hg : ∀ n, J.Grows m n → J'.Grows m n)
    (hu : ∀ n, J.Grows m n → J.unwinding n → J'.unwinding n)
    (hf : ∀ n, J.Grows m n → J.failed n → J'.failed n) (hc : ∀ v n, J.Clear v n → J'.Clear v n)
    (hq : ∀ a n, J.Grows m n → P a n → Q a n) : J'.Ends x m Q := by
  refine ⟨hg _ hx.1, ?_⟩
  have h := hx.2
  rcases ho : (x.go m).1 with (⟨v, p⟩ | e) | a <;> rw [ho] at h
  · exact ⟨hu _ hx.1 h.1, hc v _ h.2⟩
  · exact hf _ hx.1 h
  · exact hq a _ hx.1 h

/-- What is known of the machine from elsewhere may be added. -/
theorem Ends.and_go (hx : J.Ends x m P) (hq : ∀ a n, x.go m = (.ok a, n) → Q a n) :
    J.Ends x m fun a n => P a n ∧ Q a n := by
  refine ⟨hx.1, ?_⟩
  have h := hx.2
  rcases hgo : x.go m with ⟨(⟨v, p⟩ | e) | a, n⟩ <;> rw [hgo] at h
  · exact h
  · exact h
  · exact ⟨h, hq a n hgo⟩

theorem Ends.pure {a : α} (ha : Q a m) : J.Ends (pure a) m Q :=
  .of_ok (Eval.go_pure a m) (.refl J m) ha

theorem Keeps.of_ok {a : α} (hx : x.go m = (.ok a, n)) (hg : J.Grows m n) (hs : J.steady n)
    (hq : Q a n) :
    J.Keeps x m Q := Ends.of_ok hx hg ⟨hs, hq⟩

theorem Keeps.pure {a : α} (hm : J.steady m) (ha : Q a m) : J.Keeps (pure a) m Q :=
  Ends.pure ⟨hm, ha⟩

theorem Keeps.bind_ends (hx : J.Keeps x m P)
    (hf : ∀ a n, J.Grows m n → J.steady n → P a n → J.Ends (f a) n R) : J.Ends (x >>= f) m R :=
  Ends.bind hx fun a n hg h => hf a n hg h.1 h.2

theorem Keeps.bind (hx : J.Keeps x m P)
    (hf : ∀ a n, J.Grows m n → J.steady n → P a n → J.Keeps (f a) n R) : J.Keeps (x >>= f) m R :=
  hx.bind_ends hf

theorem Keeps.mono (hx : J.Keeps x m P) (hq : ∀ a n, J.Grows m n → J.steady n → P a n → Q a n) :
    J.Keeps x m Q :=
  Ends.mono hx fun a n hg h => ⟨h.1, hq a n hg h.1 h.2⟩

theorem Keeps.map {g : α → β} (hx : J.Keeps x m P) (hg : ∀ a n, J.Grows m n → P a n → R (g a) n) :
    J.Keeps (g <$> x) m R := by
  rw [← bind_pure_comp]
  exact hx.bind fun a n h hn ha => .pure hn (hg a n h ha)

/-- What a computation gives may not matter. -/
theorem Keeps.discard (hx : J.Keeps x m P) : J.Keeps (discard x) m fun _ _ => True :=
  hx.map fun _ _ _ _ => trivial

theorem Ends.fault {e : Fault} (hm : J.failed m) : J.Ends (Eval.fault e : Eval α) m Q :=
  ⟨.refl J m, hm⟩

/-- Looking at the machine takes it nowhere. -/
theorem Ends.get_bind {f : Machine → Eval β} (h : J.Ends (f m) m R) : J.Ends (get >>= f) m R := by
  unfold Ends at h ⊢
  rwa [Eval.go_bind, Eval.go_get]

theorem Keeps.fault {e : Fault} (hm : J.failed m) : J.Keeps (Eval.fault e : Eval α) m Q :=
  Ends.fault hm

theorem Keeps.store_bind {f : Store → Eval β} (h : J.Keeps (f m.store) m R) :
    J.Keeps (Eval.store >>= f) m R := by
  unfold Keeps Ends at h ⊢
  rwa [Eval.go_bind, Eval.go_store]

theorem Keeps.text_bind {v : Value} {f : String → Eval β} (h : J.Keeps (f (m.store.text v)) m R) :
    J.Keeps (Eval.text v >>= f) m R := by
  unfold Keeps Ends at h ⊢
  rwa [Eval.go_bind, Eval.go_text]

namespace Lawful

variable (hJ : J.Lawful)

include hJ

theorem fits (hm : J.steady m) : m.store.Fits J.site.toLayout J.guarded :=
  hJ.unwinding_fits m (hJ.unwinding_of_steady m hm)

theorem failed (hm : J.steady m) : J.failed m :=
  hJ.failed_of_unwinding m (hJ.unwinding_of_steady m hm)

end Lawful

end Regime

end FrameLedger
