import FrameLedger.Proofs.Watch

/-!
# Code under watch

Calls that are made during a call respect the watch that is set when they begin, and what such a
watch sees the earlier one sees too (`State.of_start`). A function notes locations in the slot of
its own frame (`keeps_note`). So the expressions of a call respect the regime of its watch:
`serves`.
-/

namespace FrameLedger

open Eval

/-- A machine on which a call may begin, where the depth is `d`. -/
structure Machine.Ready (L : Layout) (t : Terms) (a : StackArrays) (d : Float) (m : Machine) :
    Prop where
  fits : m.store.Fits L (a.Guards t.closed)
  stacked : m.store.Stacked L.vars a d

/-- The watch that is set where a call begins. -/
noncomputable def Watch.start (L : Layout) (t : Terms) (a : StackArrays) (d : Float) (m : Machine) :
    Watch :=
  ⟨L, t, a, d, m.store, m.steps, (· = d), m.trace.val⟩

/-- What a call is held to. -/
def Watch.calling (W : Watch) : Regime := W.regime none Store.globals .entering

/-- Calls respect the watch that is set where they begin. -/
def Caller.Watched (L : Layout) (t : Terms) (call : Caller) : Prop :=
  ∀ a d m callee args p, m.Ready L t a d → m.store.Clear (a.Guards t.closed) callee →
    (∀ v ∈ args, m.store.Clear (a.Guards t.closed) v) →
    let J := (Watch.start L t a d m).calling
    J.Keeps (call callee args p) m J.Clear

namespace Watch

variable {W : Watch} {own : Option Own} {B env : FrameId} {D : Float → Prop}
  {I : (Float → Prop) → Nat → Value → Prop} {S T : Float → Prop} {m n : Machine} {φ : Stage}
  {c : Setting} {call : Caller}

/-! ## Calls -/

/-- The watch that is set holds where it is set. -/
theorem State.of_ready {L : Layout} {t : Terms} {a : StackArrays} {d : Float} (hm : m.Ready L t a d)
    (hD : D d) : (Watch.start L t a d m).State none B D I m where
  fits := hm.fits
  agrees _ := .refl _ _ _
  stacked := ⟨d, hD, .inl rfl, ⟨0, .refl, Nat.le_refl _, .inl rfl⟩, hm.stacked⟩
  index _ ho := nomatch ho
  events := ⟨[], by simp [Watch.start], by simp⟩

theorem Climbs.of_start {d x : Float} {i : Nat} (hd : W.Climbs T m.steps d)
    (hx : (Watch.start W.layout W.terms W.arrays d m).Climbs T i x) : W.Climbs T i x := by
  obtain ⟨k, hk, hle, hlimit⟩ := hd
  obtain ⟨l, hl, hle', hlimit'⟩ := hx
  replace hle' : m.steps + l ≤ i := hle'
  replace hlimit' : l = 0 ∨ m.steps + l ≤ W.terms.limit := hlimit'
  exact ⟨k + l, hk.trans hl, by omega, by omega⟩

/-- What a later watch sees an earlier one sees. -/
theorem Agrees.of_start {d : Float} {h : Store} (hm : W.Agrees T m.store)
    (hd : W.Climbs T m.steps d) (ha : (Watch.start W.layout W.terms W.arrays d m).Agrees T h) :
    W.Agrees T h := fun hc => by
  obtain ⟨k, hk, hle, -⟩ := hd
  refine (hm hc).trans ((ha hc).mono fun i hi => hi.rises hk fun l hl => ?_)
  replace hl : l < W.terms.limit - m.steps := hl
  omega

theorem Sees.of_start {d : Float} {h : Store} (hm : W.Agrees T m.store) (hd : W.Climbs T m.steps d)
    (hs : (Watch.start W.layout W.terms W.arrays d m).Sees T h) : W.Sees T h := by
  obtain ⟨⟨i, y, hy, hst⟩, ha⟩ := hs
  exact ⟨⟨i, y, hd.of_start hy, hst⟩, .of_start hm hd ha⟩

/-- After a call the watch of the caller goes on. -/
theorem State.of_start {d : Float} {D' D'' : Float → Prop}
    {I' : (Float → Prop) → Nat → Value → Prop} (x : W.State own B D I m)
    (hp : W.passed m.trace.val d) (hd : W.Climbs (W.passed m.trace.val) m.steps d)
    (hK : Site.Sound ⟨W.layout, own⟩) (hI : Lasts I)
    (hg : m.store.Grows ⟨W.layout, none⟩ Store.globals n.store) (hD : ∀ i, D' i → D'' i)
    (y : (Watch.start W.layout W.terms W.arrays d m).State none Store.globals D' I' n) :
    W.State own B D'' I n := by
  obtain ⟨fs, hfs, hall⟩ := y.events
  replace hfs : n.trace.val = m.trace.val ++ fs := hfs
  have hmono (z : Float) (hz : W.passed m.trace.val z) : W.passed n.trace.val z := by
    rw [hfs]
    exact passed_append hz fs
  -- the callee knows no more depths than the one it began with
  have hsub (z : Float) (hz : (Watch.start W.layout W.terms W.arrays d m).passed n.trace.val z) :
      W.passed n.trace.val z := by
    rcases hz with rfl | hz
    · exact hmono _ hp
    · exact .inr hz
  have ha := x.agrees.mono hmono
  have hd' := hd.mono hmono (Nat.le_refl _)
  obtain ⟨z, hz, hpz, hcz, hs⟩ := y.stacked
  have hsteps : m.steps ≤ n.steps := by
    obtain ⟨k, -, hle, -⟩ := hcz
    exact Nat.le_trans (Nat.le_add_right _ k) hle
  refine ⟨y.fits, .of_start ha hd' (y.agrees.mono hsub), ?_, fun o ho => ?_,
    x.events_append hfs fun e he e' he' => ⟨fun h hh => ?_, (hall e he e' he').2⟩⟩
  · exact ⟨z, hD z hz, hsub z hpz, hd'.of_start (hcz.mono hsub (Nat.le_refl _)), hs⟩
  · obtain ⟨w, hw, hi⟩ := x.index o ho
    obtain ⟨hwrites, hvars⟩ := hK.own_fresh ho (.inl rfl)
    refine ⟨w, ?_, hI hi hmono hsteps⟩
    rw [hg.others B o.index (Store.has_of_local? hw) hwrites, hw]
    rintro (hu | ⟨_, ho, _⟩)
    · exact hvars hu
    · nomatch ho
  · exact .of_start ha hd' (((hall e he e' he').1 h hh).mono hsub)

theorem keeps_call (hK : Site.Sound ⟨W.layout, own⟩) (hcall : call.Watched W.layout W.terms)
    (hm : (W.regime own B φ).steady m) {callee : Value} {args : List Value} (p : Position)
    (hcallee : (W.regime own B φ).Clear callee m)
    (hargs : ∀ v ∈ args, (W.regime own B φ).Clear v m) :
    (W.regime own B φ).Keeps (call callee args p) m (W.regime own B φ).Clear := by
  obtain ⟨d, hD, hp, hd, hs⟩ := State.stacked hm
  refine (hcall W.arrays d m callee args p ⟨hm.fits, hs⟩ hcallee hargs).transport ?_ ?_ ?_
    (fun _ _ => id) ?_
  · exact fun n hg => Store.Grows.beside (K := ⟨W.layout, own⟩) hg hK B
  · exact fun n hg hu => State.of_start hm hp hd hK lasts_indexAt hg (fun _ _ => trivial) hu
  · exact fun n hg hu => State.of_start hm hp hd hK lasts_indexAt hg (fun _ _ => trivial) hu
  · exact fun v n hg hn =>
      ⟨State.of_start hm hp hd hK lasts_indexAt hg (fun i hi => depthAt_level hD hi) hn.1, hn.2⟩

/-! ## Writing to the stack -/

/-- The depths that have been passed stay passed. -/
theorem passed_setStore {x : Float} (hx : W.passed m.trace.val x) (h : Store) :
    W.passed (m.setStore h).trace.val x := by
  rw [Machine.setStore_trace]
  exact passed_append hx _

/-- The store becomes another one where the depth and the index are the same. -/
theorem State.setStore_same (x : W.State own B D I m) (hI : Lasts I) {h : Store}
    (hf : h.Fits W.layout W.guarded) (ha : W.Agrees (W.passed m.trace.val) h)
    (hs : ∀ d, m.store.Stacked W.layout.vars W.arrays d → h.Stacked W.layout.vars W.arrays d)
    (hi : ∀ o, own = some o → h.local? B o.index = m.store.local? B o.index) :
    W.State own B D I (m.setStore h) := by
  refine x.setStore hf (ha.mono fun _ hy => passed_setStore hy h) ?_ fun o ho => ?_
  · obtain ⟨d, hD, -, hd, hst⟩ := x.stacked
    exact ⟨d, hD, hd.mono (fun _ hy => passed_setStore hy h) (Nat.le_refl _), hs d hst⟩
  · obtain ⟨w, hw, hIw⟩ := x.index o ho
    exact ⟨w, (hi o ho).trans hw, hI hIw (fun _ hy => passed_setStore hy h) (Nat.le_refl _)⟩

theorem keeps_modifyArray (hm : (W.regime own B φ).steady m) {r : ArrayRef}
    {f : Array Value → Array Value} (hf : ∀ v ∈ f (m.store.array r), m.store.Clear W.guarded v)
    (ha : W.terms.closed → ∀ q i, ¬ W.Touched (W.passed m.trace.val) i →
      (m.store.modifyArray r f).element q i = m.store.element q i) :
    (W.regime own B φ).Keeps (modifyStore (·.modifyArray r f)) m fun _ _ => True := by
  refine .of_ok (go_modifyStore _ m) (Store.grows_modifyArray r f) ?_ trivial
  refine State.setStore_same hm lasts_indexAt (hm.fits.modifyArray hf) (fun hc => ?_)
    (fun _ hs => hs.modifyArray r f) fun _ _ => rfl
  exact (hm.agrees hc).trans fun q _ => ha hc q

/-- A property of an array of the stack is written. -/
theorem keeps_setGuarded (hK : Site.Sound ⟨W.layout, own⟩) (hm : (W.regime own B φ).steady m)
    (p : Position) {r : ArrayRef} (hr : W.arrays.Holds r) {key : String}
    (hkey : W.SafeKey (W.passed m.trace.val) key) {v : Value} (hv : (W.regime own B φ).Clear v m) :
    (W.regime own B φ).Keeps (setProperty c p (.array r) key v) m fun _ _ => True := by
  have hJ : (W.regime own B φ).Lawful := lawful hK
  simp only [setProperty]
  split
  · next hlength =>
    split
    · refine (hJ.grow hm c r _).bind fun _ n _ hn hs => ?_
      refine keeps_modifyArray hn (fun w hw => ?_) fun _ q i hi =>
        absurd (hs.2 ▸ hkey i (.inr hlength)) hi
      rcases mem_resize hw with hw | rfl
      · exact hJ.element_clear hn hw
      · trivial
    · exact Regime.Keeps.text_bind (hJ.raise hm c p _ _)
  · split
    · next i hi =>
      refine (hJ.grow hm c r (i + 1)).bind fun _ n hg hn hs => ?_
      refine (keeps_modifyArray hn (fun w hw => ?_) fun hc q j hj => ?_).bind fun _ k _ hk _ => ?_
      · rcases Array.mem_or_eq_of_mem_setIfInBounds hw with hw | rfl
        · split at hw
          · rcases mem_resize hw with hw | rfl
            · exact hJ.element_clear hn hw
            · trivial
          · exact hJ.element_clear hn hw
        · exact hv.mono hg
      · refine Store.element_write ((hJ.fits hn).guarded_lt r ⟨hc, hr⟩) i v q ?_
        rintro rfl
        exact hj (hs.2 ▸ hkey j (.inl hi))
      · exact .of_ok (go_modify _ k) (.of_store_eq rfl)
          (State.log hk lasts_indexAt (k.log_trace _) rfl rfl (allows_element hk.sees r i v))
            trivial
    · exact .pure hm trivial

/-- The index of the frame, as the code of the function finds it. -/
theorem State.lookup_index (x : W.State own B D I m) {o : Own} (ho : own = some o)
    (hi : m.store.Inside ⟨W.layout, own⟩ B env) :
    ∃ w, m.store.lookup env o.index = some w ∧ I (W.passed m.trace.val) m.steps w := by
  obtain ⟨w, hw, hI⟩ := x.index o ho
  refine ⟨w, ?_, hI⟩
  rw [Store.lookup_eq_of_owner? (hi.owner? x.fits.toRooted ho (.inl rfl)), hw]

/-- A location is noted in the slot of the frame. -/
theorem keeps_note (hK : Site.Sound ⟨W.layout, own⟩) (hm : (W.regime own B φ).steady m) {o : Own}
    (ho : own = some o) {r : Recorder} (hr : W.layout.vars.location = some r.location)
    (p : Position) (hi : m.store.Inside ⟨W.layout, own⟩ B env) :
    (W.regime own B φ).Keeps
      ((Expr.assign p (.index p (.var p r.location) (.var p o.index)) (r.note p)).eval c call env) m
      fun _ _ => True := by
  obtain ⟨d, -, -, -, hs⟩ := hm.stacked
  obtain ⟨q, hq, hloc⟩ := hs.location _ hr
  obtain ⟨w, hw, hI⟩ := State.lookup_index hm ho hi
  have hl := hm.fits.lookup_var (.inr (.inr hr)) hloc hi.has
  obtain ⟨text, hgo⟩ := go_noteCode c call p r hl hw
  have hset := keeps_setGuarded (c := c) hK hm p (.inr hq) (indexAt_key hI m.store)
    (v := .string text) trivial
  unfold Regime.Keeps Regime.Ends
  rw [hgo]
  exact hset.bind fun _ n _ hn _ => .pure hn trivial

theorem serves (hK : Site.Sound ⟨W.layout, own⟩) (hcall : call.Watched W.layout W.terms) :
    (W.regime own B φ).Serves c call where
  toLawful := lawful hK
  calls _ _ _ p hm hcallee hargs _ := keeps_call hK hcall hm p hcallee hargs
  notes _ _ _ p _ ho hr hm hi := keeps_note hK hm ho hr p hi

end Watch

end FrameLedger
