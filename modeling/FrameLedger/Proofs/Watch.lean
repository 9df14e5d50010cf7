import FrameLedger.Proofs.Depth

/-!
# Watching over a stack

A `Watch` is set when a call begins: the stack has some depth then, and its frames are those of the
callers. `Watch.regime` is what all code of the call is held to. The depth only rises from where it
was, and no slot is written but for frames above; where the function is left normally the depth has
only gone up and down again, unless some function keeps no frame.

Whether the program itself may have come by the arrays of the stack is left open (`Terms.closed`).
Only if it has not, what it writes leaves the frames of the callers alone.
-/

namespace FrameLedger

open Eval

/-- What the depth may be when a call completes that began with the depth `d`. -/
def Layout.Level (L : Layout) (d x : Float) : Prop := (∀ f, ¬ L.exempt f) → Around d x

namespace Layout.Level

variable {L : Layout} {d x y : Float}

theorem refl (L : Layout) (d : Float) : L.Level d d := fun _ => .refl

theorem trans (a : L.Level d x) (b : L.Level x y) : L.Level d y := fun h => (a h).trans (b h)

theorem again (a : L.Level d x) : L.Level d (x + 1 - 1) := fun h => (a h).again

end Layout.Level

/-- On what terms programs are run. -/
structure Terms where
  /-- Whether the arrays of the stack are out of the program's reach. -/
  closed : Prop
  /-- How many steps there are. -/
  limit : Nat

/-- A call has kept the frames of its callers, and the depth if it completed. -/
def Event.Kept (L : Layout) (t : Terms) : Event → Prop
  | .call _ _ before inside outcome after =>
    ∀ r, before.local? Store.globals L.vars.stack = some (.array r) →
      ∃ (a : StackArrays) (d : Float), before.Stacked L.vars a d ∧
      (∀ h, h = after ∨ (∃ e, Happens e inside ∧ h ∈ e.stores) →
        (∃ k ≤ t.limit, ∃ x, Rises (Passes L.vars d inside) d k x ∧ h.Stacked L.vars a x) ∧
          (t.closed → before.Agrees a (Touches (Passes L.vars d inside) d t.limit) h)) ∧
      ∀ v, outcome = .ok v → ∃ x, L.Level d x ∧ after.Stacked L.vars a x
  | _ => True

/-- The stages of a call of a function that keeps a frame: before the push, after it, and once the
frame is popped. -/
inductive Stage where
  | entering
  | running
  | leaving

structure Watch where
  layout : Layout
  terms : Terms
  arrays : StackArrays
  /-- The depth there was. -/
  depth : Float
  /-- The store it was in. -/
  origin : Store
  /-- The steps that had been spent by then. -/
  begun : Nat
  /-- The depths that had been passed by then. -/
  known : Float → Prop
  /-- What had happened by then. -/
  past : List Event

namespace Watch

variable (W : Watch)

/-- The arrays that the program does not come by. -/
def guarded : ArrayRef → Prop := W.arrays.Guards W.terms.closed

/-- The depths that have been passed when `es` have happened. -/
def passed (es : List Event) (x : Float) : Prop := W.known x ∨ Attains W.layout.vars es x

/-- The slots that may be written for frames above. -/
def Touched (S : Float → Prop) : Nat → Prop := Touches S W.depth (W.terms.limit - W.begun)

/-- The frames are as they were, but for those above. -/
def Agrees (S : Float → Prop) (h : Store) : Prop :=
  W.terms.closed → W.origin.Agrees W.arrays (W.Touched S) h

/-- The depth has risen from where it was, through depths of `S` and spending no more than `n`
steps. -/
def Climbs (S : Float → Prop) (n : Nat) (x : Float) : Prop :=
  ∃ k, Rises S W.depth k x ∧ W.begun + k ≤ n ∧ (k = 0 ∨ W.begun + k ≤ W.terms.limit)

/-- The depth has risen from where it was, and the frames below are as they were. -/
def Sees (S : Float → Prop) (h : Store) : Prop :=
  (∃ n x, W.Climbs S n x ∧ h.Stacked W.layout.vars W.arrays x) ∧ W.Agrees S h

/-- What may happen during the call, when the depths `S` have been passed. -/
def Allows (S : Float → Prop) (e : Event) : Prop :=
  ∀ e', Happens e' [e] → (∀ h ∈ e'.stores, W.Sees S h) ∧ e'.Kept W.layout W.terms

/-- A machine during the call, with `D` for the depth and `I` for the index of a frame. -/
structure State (own : Option Own) (B : FrameId) (D : Float → Prop)
    (I : (Float → Prop) → Nat → Value → Prop) (m : Machine) : Prop where
  fits : m.store.Fits W.layout W.guarded
  agrees : W.Agrees (W.passed m.trace.val) m.store
  stacked : ∃ x, D x ∧ W.passed m.trace.val x ∧ W.Climbs (W.passed m.trace.val) m.steps x ∧
    m.store.Stacked W.layout.vars W.arrays x
  index : ∀ o, own = some o → ∃ w, m.store.local? B o.index = some w ∧
    I (W.passed m.trace.val) m.steps w
  events : ∃ es, m.trace.val = W.past ++ es ∧ ∀ e ∈ es, W.Allows (W.passed m.trace.val) e

/-- The text of an index names no slot but those of frames above. -/
def SafeKey (S : Float → Prop) (key : String) : Prop :=
  ∀ i, arrayIndex? key = some i ∨ key = "length" → W.Touched S i

/-- What is said of an index stays true as more happens. -/
def Lasts (I : (Float → Prop) → Nat → Value → Prop) : Prop :=
  ∀ ⦃S T : Float → Prop⦄ ⦃n n' : Nat⦄ ⦃w : Value⦄, I S n w → (∀ y, S y → T y) → n ≤ n' → I T n' w

variable {W} {own : Option Own} {B : FrameId} {D D' : Float → Prop}
  {I I' : (Float → Prop) → Nat → Value → Prop} {S T : Float → Prop} {m n : Machine} {e : Event}
  {h h' : Store}

theorem passed_append {es : List Event} {x : Float} (hx : W.passed es x) (fs : List Event) :
    W.passed (es ++ fs) x := hx.imp_right (·.append_left fs)

/-- The depth of a store that is noted has been passed. -/
theorem passed_store {x : Float}
    (hx : h.local? Store.globals W.layout.vars.depth = some (.number x)) (es : List Event) :
    W.passed (es ++ [.store h]) x := .inr (.store hx es)

theorem Climbs.mono {i j : Nat} {x : Float} (h : W.Climbs S i x) (hS : ∀ y, S y → T y)
    (hi : i ≤ j) :
    W.Climbs T j x := by
  obtain ⟨k, hk, hle, hlimit⟩ := h
  exact ⟨k, hk.mono hS, Nat.le_trans hle hi, hlimit⟩

theorem Climbs.around {i : Nat} {x : Float} (h : W.Climbs S i x) (hx : S x) :
    W.Climbs S i (x + 1 - 1) := by
  obtain ⟨k, hk, hle⟩ := h
  exact ⟨k, hk.around hx, hle⟩

theorem Agrees.mono (x : W.Agrees S h) (hS : ∀ y, S y → T y) : W.Agrees T h :=
  fun hc => (x hc).mono fun _ hi => hi.mono hS (Nat.le_refl _)

theorem Agrees.ordinary (x : W.Agrees S h) (o : h.Ordinary W.layout W.guarded h') : W.Agrees S h' :=
  fun hc => (x hc).ordinary hc o

theorem Sees.mono (x : W.Sees S h) (hS : ∀ y, S y → T y) : W.Sees T h := by
  obtain ⟨⟨i, y, hy, hs⟩, ha⟩ := x
  exact ⟨⟨i, y, hy.mono hS (Nat.le_refl i), hs⟩, ha.mono hS⟩

theorem Sees.ordinary (x : W.Sees S h) (hL : W.layout.Sound)
    (o : h.Ordinary W.layout W.guarded h') :
    W.Sees S h' := by
  obtain ⟨⟨i, y, hy, hs⟩, ha⟩ := x
  exact ⟨⟨i, y, hy, hs.ordinary hL o⟩, ha.ordinary o⟩

theorem Allows.mono (x : W.Allows S e) (hS : ∀ y, S y → T y) : W.Allows T e := fun e' he =>
  ⟨fun h hh => ((x e' he).1 h hh).mono hS, (x e' he).2⟩

/-- An event that is no call, and in which nothing else happens. -/
theorem allows_of_inside_nil (hin : e.inside = []) (hh : ∀ h ∈ e.stores, W.Sees S h)
    (hk : e.Kept W.layout W.terms) : W.Allows S e := by
  intro e' he
  obtain rfl := he.eq_of_inside_nil hin
  exact ⟨hh, hk⟩

theorem allows_store (hh : W.Sees S h) : W.Allows S (.store h) :=
  allows_of_inside_nil rfl (List.forall_mem_singleton.2 hh) trivial

theorem allows_element (hh : W.Sees S h) (r : ArrayRef) (i : Nat) (v : Value) :
    W.Allows S (.element h r i v) :=
  allows_of_inside_nil rfl (List.forall_mem_singleton.2 hh) trivial

theorem allows_threw (hh : W.Sees S h) : W.Allows S (.threw h) :=
  allows_of_inside_nil rfl (List.forall_mem_singleton.2 hh) trivial

theorem allows_result {es : List Event} (h : ∀ e ∈ es, W.Allows S e) : W.Allows S (.result es) := by
  intro e he
  rcases Happens.singleton_iff.1 he with rfl | he
  · exact ⟨fun g hg => absurd hg List.not_mem_nil, trivial⟩
  · obtain ⟨e', he', hin⟩ := he.exists_mem
    exact h e' he' e hin

namespace State

variable (x : W.State own B D I m)

include x

theorem sees : W.Sees (W.passed m.trace.val) m.store := by
  obtain ⟨y, -, -, hy, hs⟩ := x.stacked
  exact ⟨⟨m.steps, y, hy, hs⟩, x.agrees⟩

theorem mono_depth (hD : ∀ x, D x → D' x) : W.State own B D' I m :=
  let ⟨y, hy, hrest⟩ := x.stacked
  { x with stacked := ⟨y, hD y hy, hrest⟩ }

/-- For code that keeps no frame there is no index. -/
theorem forget (B' : FrameId) (I' : (Float → Prop) → Nat → Value → Prop) : W.State none B' D I' m :=
  { x with index := fun _ ho => nomatch ho }

/-- More happens, in which the watch sees nothing wrong. -/
theorem events_append {es : List Event} (ht : n.trace.val = m.trace.val ++ es)
    (hes : ∀ e ∈ es, W.Allows (W.passed n.trace.val) e) :
    ∃ es, n.trace.val = W.past ++ es ∧ ∀ e ∈ es, W.Allows (W.passed n.trace.val) e := by
  obtain ⟨ds, hds, hall⟩ := x.events
  refine ⟨ds ++ es, by rw [ht, hds, List.append_assoc],
    List.forall_mem_append.2 ⟨fun e he => ?_, hes⟩⟩
  refine (hall e he).mono fun y hy => ?_
  rw [ht]
  exact passed_append hy es

/-- The store becomes another one in which the stack is still watched. -/
theorem setStore {h : Store} (hf : h.Fits W.layout W.guarded)
    (ha : W.Agrees (W.passed (m.setStore h).trace.val) h)
    (hs : ∃ x, D' x ∧ W.Climbs (W.passed (m.setStore h).trace.val) m.steps x ∧
      h.Stacked W.layout.vars W.arrays x)
    (hi : ∀ o, own = some o → ∃ w, h.local? B o.index = some w ∧
      I' (W.passed (m.setStore h).trace.val) m.steps w) :
    W.State own B D' I' (m.setStore h) where
  fits := hf
  agrees := ha
  stacked := by
    obtain ⟨y, hD, hy, hst⟩ := hs
    refine ⟨y, hD, ?_, hy, hst⟩
    rw [Machine.setStore_trace]
    exact passed_store hst.depth _
  index := hi
  events := by
    obtain ⟨y, -, hy, hst⟩ := hs
    exact x.events_append (m.setStore_trace h)
      (List.forall_mem_singleton.2 (allows_store ⟨⟨m.steps, y, hy, hst⟩, ha⟩))

/-- Something is noted while the store stays as it is. -/
theorem log (hI : Lasts I) (ht : n.trace.val = m.trace.val ++ [e]) (hs : n.store = m.store)
    (hsteps : n.steps = m.steps) (he : W.Allows (W.passed m.trace.val) e) :
    W.State own B D I n := by
  have hmono (y : Float) (hy : W.passed m.trace.val y) : W.passed n.trace.val y := by
    rw [ht]
    exact passed_append hy [e]
  refine ⟨hs ▸ x.fits, hs ▸ x.agrees.mono hmono, ?_, fun o ho => ?_,
    x.events_append ht (List.forall_mem_singleton.2 (he.mono hmono))⟩
  · obtain ⟨y, hD, hp, hy, hst⟩ := x.stacked
    exact ⟨y, hD, hmono y hp, hy.mono hmono (Nat.le_of_eq hsteps.symm), hs ▸ hst⟩
  · obtain ⟨w, hw, hIw⟩ := x.index o ho
    exact ⟨w, hs ▸ hw, hI hIw hmono (Nat.le_of_eq hsteps.symm)⟩

theorem ordinary (hL : W.layout.Sound) (hI : Lasts I)
    (hown : ∀ o, own = some o → ¬ W.layout.Writes o.index) (o : m.Ordinary W.layout W.guarded n) :
    W.State own B D I n := by
  obtain ⟨fs, hfs, hord⟩ := o.trace
  have hmono (y : Float) (hy : W.passed m.trace.val y) : W.passed n.trace.val y := by
    rw [hfs]
    exact passed_append hy fs
  refine ⟨o.fits, (x.agrees.mono hmono).ordinary o.store, ?_, fun i hi => ?_,
    x.events_append hfs fun e he => ?_⟩
  · obtain ⟨y, hD, hp, hy, hst⟩ := x.stacked
    exact ⟨y, hD, hmono y hp, hy.mono hmono o.steps_le, hst.ordinary hL o.store⟩
  · obtain ⟨w, hw, hIw⟩ := x.index i hi
    refine ⟨w, ?_, hI hIw hmono o.steps_le⟩
    rw [o.store.others B i.index (Store.has_of_local? hw) (hown i hi), hw]
  · have hoe := hord e he
    have hsees := x.sees.mono hmono
    cases e with
    | store g => exact allows_store (hsees.ordinary hL hoe)
    | element g r i v => exact allows_element (hsees.ordinary hL hoe.1) r i v
    | _ => exact hoe.elim

end State

/-! ## The regime of a call -/

variable (W)

/-- A frame was pushed at this depth during the call, and by the function that was called. -/
def PushedAt (x : Float) (S : Float → Prop) (n : Nat) : Prop :=
  W.layout.Level W.depth x ∧
    (∃ k, Rises S W.depth k x ∧ W.begun + k < n ∧ W.begun + k < W.terms.limit) ∧ S x ∧ S (x + 1)

/-- The index of such a frame. -/
def Pushed (S : Float → Prop) (n : Nat) (w : Value) : Prop :=
  ∃ x, w = .number (x + 1) ∧ W.PushedAt x S n

/-- The depth at a stage. -/
def depthAt : Stage → Float → Prop
  | .running => fun _ => True
  | .entering | .leaving => W.layout.Level W.depth

/-- What the index of the frame is at a stage. -/
def indexAt : Stage → (Float → Prop) → Nat → Value → Prop
  | .entering => fun _ _ w => w = .undefined
  | .running | .leaving => W.Pushed

variable {W} {φ : Stage}

theorem depthAt_level {x y : Float} (hx : W.depthAt φ x) (hy : W.layout.Level x y) :
    W.depthAt φ y := by
  cases φ with
  | running => trivial
  | entering => exact Layout.Level.trans hx hy
  | leaving => exact Layout.Level.trans hx hy

/-- The depth there was before the push. -/
theorem PushedAt.climbs {x : Float} {i : Nat} (h : W.PushedAt x S i) : W.Climbs S i x := by
  obtain ⟨-, ⟨k, hk, hi, hlimit⟩, -⟩ := h
  exact ⟨k, hk, Nat.le_of_lt hi, .inr (Nat.le_of_lt hlimit)⟩

theorem PushedAt.climbs_succ {x : Float} {i : Nat} (h : W.PushedAt x S i) :
    W.Climbs S i (x + 1) := by
  obtain ⟨-, ⟨k, hk, hi, hlimit⟩, -⟩ := h
  exact ⟨k + 1, hk.up, hi, .inr hlimit⟩

theorem lasts_pushed : Lasts W.Pushed := by
  rintro S T n n' _ ⟨x, rfl, hlevel, ⟨k, hk, hi, hlimit⟩, hSx, hSy⟩ hS hn
  exact ⟨x, rfl, hlevel, ⟨k, hk.mono hS, Nat.lt_of_lt_of_le hi hn, hlimit⟩, hS _ hSx, hS _ hSy⟩

theorem lasts_indexAt : Lasts (W.indexAt φ) := by
  cases φ with
  | entering => exact fun _ _ _ _ _ h _ _ => h
  | running => exact lasts_pushed
  | leaving => exact lasts_pushed

theorem safeKey_pushed {i : Nat} {w : Value} (h : W.Pushed S i w) (g : Store) :
    W.SafeKey S (g.text w) := by
  obtain ⟨x, rfl, -, ⟨k, hx, -, hlimit⟩, -, hS⟩ := h
  exact fun i hi => ⟨k, Nat.lt_sub_of_add_lt (by omega), x, hx, hS, hi⟩

theorem indexAt_key {i : Nat} {w : Value} (h : W.indexAt φ S i w) (g : Store) :
    W.SafeKey S (g.text w) := by
  cases φ with
  | entering =>
    obtain rfl := h
    intro i hi
    rw [show g.text .undefined = "undefined" from rfl, show arrayIndex? "undefined" = none by
      decide] at hi
    rcases hi with hi | hi
    · cases hi
    · exact absurd hi (by decide)
  | running => exact safeKey_pushed h g
  | leaving => exact safeKey_pushed h g

variable (W)

/-- Where code is left by a `return`: the frame is popped, or the flag is set. -/
def Left (own : Option Own) (B : FrameId) (φ : Stage) (x : Option (Option SymbolId)) (m : Machine) :
    Prop :=
  match own, x with
  | none, _ => W.State own B (W.depthAt φ) (W.indexAt φ) m
  | some _, none => W.State own B (W.layout.Level W.depth) (W.indexAt φ) m
  | some _, some none => False
  | some o, some (some s) =>
    W.State own B (W.depthAt φ) (W.indexAt φ) m ∧ s ∈ o.flags ∧
      m.store.local? B s = some (.bool true)

/-- What the code of a call is held to. -/
def regime (own : Option Own) (B : FrameId) (φ : Stage) : Regime where
  site := ⟨W.layout, own⟩
  frame := B
  guarded := W.guarded
  steady := W.State own B (W.depthAt φ) (W.indexAt φ)
  unwinding := W.State own B (fun _ => True) (W.indexAt φ)
  failed := W.State own B (fun _ => True) (W.indexAt φ)
  left := W.Left own B φ

variable {W}

theorem lawful (hK : Site.Sound ⟨W.layout, own⟩) : (W.regime own B φ).Lawful where
  sound := hK
  unwinding_fits _ hm := hm.fits
  steady_ordinary _ _ hm ho :=
    hm.ordinary hK.toSound lasts_indexAt (fun _ h => (hK.own_fresh h (.inl rfl)).1) ho
  unwinding_ordinary _ _ hm ho :=
    hm.ordinary hK.toSound lasts_indexAt (fun _ h => (hK.own_fresh h (.inl rfl)).1) ho
  unwinding_of_steady _ hm := hm.mono_depth fun _ _ => trivial
  failed_of_unwinding _ hm := hm
  failed_callDepth _ _ hm := { hm with }
  threw m hm :=
    (hm.mono_depth fun _ _ => trivial).log lasts_indexAt (m.log_trace _) rfl rfl
      (allows_threw hm.sees)

end Watch

end FrameLedger
