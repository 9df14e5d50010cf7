import FrameLedger.Proofs.Unstacked

/-!
# Making the stack

The global code begins by making an empty stack, possibly behind declarators of its own, and goes on
under the watch of that stack. `settled_run` says what a run of it leaves, and `settled_call` what a
call from outside leaves: a machine without a stack, or with one that a call may begin on.
-/

namespace FrameLedger

open Eval

namespace Store

variable {L : Layout} {G G' : ArrayRef → Prop} {h : Store}

theorem Clear.unguard {v : Value} (hv : h.Clear G v) (hsub : ∀ r, G' r → G r) : h.Clear G' v := by
  cases v with
  | array r => exact ⟨hv.1, fun hr => hv.2 (hsub r hr)⟩
  | _ => trivial

/-- Fewer arrays may be guarded. -/
theorem Fits.unguard (hh : h.Fits L G) (hsub : ∀ r, G' r → G r) : h.Fits L G' where
  toRooted := hh.toRooted
  elsewhere := hh.elsewhere
  closure := hh.closure
  has_env := hh.has_env
  named := hh.named
  binding f s v hv hs := (hh.binding f s v hv hs).unguard hsub
  arrays vs hvs v hv := (hh.arrays vs hvs v hv).unguard hsub
  objects o ho := ⟨fun e he => ((hh.objects o ho).1 e he).unguard hsub,
    fun v hv => ((hh.objects o ho).2 v hv).unguard hsub⟩
  guarded_lt r hr := hh.guarded_lt r (hsub r hr)

/-- What is there leads to no array that is not. -/
theorem Clear.newArray {v : Value} (hv : h.Clear G v) (vs : Array Value) :
    (h.newArray vs).2.Clear (fun r => G r ∨ r = ⟨h.arrays.size⟩) v := by
  cases v with
  | array r =>
    refine ⟨Nat.lt_of_lt_of_le hv.1 (by simp [Store.newArray]), ?_⟩
    rintro (hr | rfl)
    · exact hv.2 hr
    · exact Nat.lt_irrefl _ hv.1
  | _ => trivial

/-- A new array may be guarded. -/
theorem Fits.newGuarded (hh : h.Fits L G) :
    (h.newArray #[]).2.Fits L fun r => G r ∨ r = ⟨h.arrays.size⟩ where
  has_globals := hh.has_globals
  parent_lt := hh.parent_lt
  has_parent := hh.has_parent
  elsewhere := hh.elsewhere
  closure := hh.closure
  has_env := hh.has_env
  named := hh.named
  binding f s v hv hs := (hh.binding f s v hv hs).newArray _
  arrays vs hvs v hv := by
    rcases Array.mem_push.1 hvs with hvs | rfl
    · exact (hh.arrays vs hvs v hv).newArray _
    · simp at hv
  objects o ho := ⟨fun e he => ((hh.objects o ho).1 e he).newArray _,
    fun v hv => ((hh.objects o ho).2 v hv).newArray _⟩
  guarded_lt r hr := by
    rcases hr with hr | rfl
    · exact Nat.lt_of_lt_of_le (hh.guarded_lt r hr) (by simp [Store.newArray])
    · simp [Store.newArray]

/-- An array that is made for a variable. -/
def openArray (h : Store) (s : SymbolId) : Store :=
  (h.newArray #[]).2.define globals s (.array ⟨h.arrays.size⟩)

/-- A store in which an empty stack has been made. -/
def openStack (h : Store) (v : StackVars) : Store :=
  let h := (h.openArray v.stack).define globals v.depth (.number (level 0))
  v.location.elim h h.openArray

/-- Where it is held. -/
def openedArrays (h : Store) (v : StackVars) : StackArrays :=
  ⟨⟨h.arrays.size⟩, v.location.map fun _ => ⟨h.arrays.size + 1⟩⟩

theorem Rooted.openArray (hh : h.Rooted) (s : SymbolId) : (h.openArray s).Rooted :=
  Rooted.define (h := (h.newArray #[]).2) ⟨hh.has_globals, hh.parent_lt, hh.has_parent⟩ _ _ _

theorem Fits.openArray (hh : h.Fits L G) {s : SymbolId} (hs : L.vars.Uses s) :
    (h.openArray s).Fits L fun r => G r ∨ r = ⟨h.arrays.size⟩ :=
  hh.newGuarded.defineVar hs _

theorem Fits.openStack (hh : h.Fits L G) :
    (h.openStack L.vars).Fits L (h.openedArrays L.vars).Holds := by
  have hnone : h.Fits L fun _ => False := hh.unguard fun _ h => h.elim
  have hstack := (hnone.openArray (.inl rfl)).defineVar (.inr (.inl rfl)) (.number (level 0))
  rcases hl : L.vars.location with _ | s
  · simp only [Store.openStack, openedArrays, hl, Option.elim, Option.map]
    refine hstack.unguard fun r hr => ?_
    rcases hr with hr | hr
    · exact .inr hr
    · nomatch hr
  · simp only [Store.openStack, openedArrays, hl, Option.elim, Option.map]
    refine (hstack.openArray (.inr (.inr hl))).unguard fun r hr => ?_
    rcases hr with hr | hr
    · exact .inl (.inr hr)
    · refine .inr ?_
      rw [← Option.some.inj hr]
      simp [Store.openArray, Store.newArray]

theorem local?_openArray (hh : h.Has globals) (s t : SymbolId) :
    (h.openArray s).local? globals t =
      if t = s then some (.array ⟨h.arrays.size⟩) else h.local? globals t := by
  have hh' : (h.newArray #[]).2.Has globals := hh
  rw [openArray, local?_define]
  simp only [true_and, hh', and_true]
  rfl

theorem stacked_openStack (hL : L.Sound) (hh : h.Has globals) :
    (h.openStack L.vars).Stacked L.vars (h.openedArrays L.vars) (level 0) := by
  obtain ⟨h₁, h₁_eq⟩ : ∃ h₁, h₁ =
    (h.openArray L.vars.stack).define globals L.vars.depth (.number (level 0)) :=
    ⟨_, rfl⟩
  have hopen : (h.openArray L.vars.stack).Has globals := (has_define _ _ _ _).2 hh
  have hhas : h₁.Has globals := by simpa [h₁_eq] using hopen
  have hsize : h₁.arrays.size = h.arrays.size + 1 := by simp [h₁_eq, openArray, newArray]
  have hstack : h₁.local? globals L.vars.stack = some (.array ⟨h.arrays.size⟩) := by
    rw [h₁_eq, local?_define_of_ne _ _ _ _ hL.stack_ne_depth, local?_openArray hh, if_pos rfl]
  have hdepth : h₁.local? globals L.vars.depth = some (.number (level 0)) := by
    rw [h₁_eq, local?_define_self _ _ _ _ hopen]
  rcases hl : L.vars.location with _ | s
  · simp only [openStack, openedArrays, hl, Option.elim, Option.map, ← h₁_eq]
    exact ⟨hstack, hdepth, fun s hs => absurd (hl.symm.trans hs) (Option.some_ne_none s).symm,
      fun _ => rfl⟩
  · simp only [openStack, openedArrays, hl, Option.elim, Option.map, ← h₁_eq]
    obtain ⟨hs, hd⟩ := hL.location_ne s hl
    refine ⟨?_, ?_, fun t ht => ⟨_, rfl, ?_⟩,
      fun h => absurd (hl.symm.trans h) (Option.some_ne_none s)⟩
    · rw [local?_openArray hhas, if_neg (Ne.symm hs), hstack]
    · rw [local?_openArray hhas, if_neg (Ne.symm hd), hdepth]
    · obtain rfl := Option.some.inj (hl.symm.trans ht)
      rw [local?_openArray hhas, if_pos rfl, hsize]

end Store

section

variable {c : Setting} {call : Caller} {m : Machine}

/-- In the global frame a variable is bound there, whether it was before or not. -/
theorem go_bindIn_globals (hh : m.store.Rooted) (s : SymbolId) (v : Value) :
    (bindIn Store.globals Store.globals s v).go m =
      (.ok (), m.setStore (m.store.define Store.globals s v)) := by
  rw [bindIn, go_modifyStore]
  rcases hs : m.store.local? Store.globals s with _ | w
  · rw [Store.owner?_of_no_parent hs (Store.parent?_globals hh)]
  · rw [Store.owner?_of_local? (by simp [hs])]

theorem go_declareArray (hh : m.store.Rooted) (s : SymbolId) (p : Position) :
    (declareVars c call [⟨s, some (.array p []), p⟩] Store.globals).go m =
      (.ok (), (m.setStore (m.store.newArray #[]).2).setStore (m.store.openArray s)) := by
  have hh' : (m.setStore (m.store.newArray #[]).2).store.Rooted :=
    ⟨hh.has_globals, hh.parent_lt, hh.has_parent⟩
  simp only [declareVars, List.forM, Expr.eval, evalAll, pure_bind, go_bind, go_onStore, go_pure]
  rw [go_bindIn_globals hh']
  rfl

/-- Making the stack shows nothing but stores. -/
theorem go_declareStack (c : Setting) (call : Caller) (hh : m.store.Rooted) (v : StackVars) : ∃ n,
    (declareVars c call v.decls Store.globals).go m = (.ok (), n) ∧ n.store = m.store.openStack v ∧
      n.steps = m.steps ∧ ∃ es, n.trace.val = m.trace.val ++ es ∧ ∀ e ∈ es, ∃ h, e = .store h := by
  have hdepth (n : Machine) (hn : n.store.Rooted) (p : Position) :
      (declareVars c call [⟨v.depth, some (.number p (-1)), p⟩] Store.globals).go n =
        (.ok (), n.setStore (n.store.define Store.globals v.depth (.number (level 0)))) := by
    simp only [declareVars, List.forM, Expr.number, Expr.eval, pure_bind, Literal.value, go_bind,
      go_bindIn_globals hn, go_pure, level]
  have hstack := (hh.openArray v.stack).define Store.globals v.depth (.number (level 0))
  have hfirst : (declareVars c call [⟨v.stack, some (.array .synthetic []), .synthetic⟩,
      ⟨v.depth, some (.number .synthetic (-1)), .synthetic⟩] Store.globals).go m = (.ok (),
        ((m.setStore (m.store.newArray #[]).2).setStore (m.store.openArray v.stack)).setStore
          ((m.store.openArray v.stack).define Store.globals v.depth (.number (level 0)))) := by
    rw [← List.singleton_append, declareVars_append, go_bind, go_declareArray hh]
    exact hdepth _ (hh.openArray v.stack) _
  rw [StackVars.decls, declareVars_append, go_bind, hfirst]
  rcases hl : v.location with _ | s
  · refine ⟨_, rfl, by simp [Store.openStack, hl], rfl, _, by simp; rfl, by simp⟩
  · simp only [Option.toList_some, List.map_cons, List.map_nil]
    rw [go_declareArray (by exact hstack)]
    refine ⟨_, rfl, by simp [Store.openStack, hl], rfl, _, by simp; rfl, by simp⟩

end

/-! ## Acts from outside -/

/-- A machine between two acts: there is no stack yet, or one that a call may begin on. -/
def Machine.Settled (L : Layout) (t : Terms) (G : ArrayRef → Prop) (m : Machine) : Prop :=
  G = (fun _ => False) ∧ m.Unstacked L t ∨
    ∃ a d, G = a.Guards t.closed ∧ m.Ready L t a d ∧ KeptThroughout L t m.trace.val

/-- The global code of a program makes the stack, behind declarators of its own. -/
def Program.Opens (L : Layout) (p : Program) : Prop :=
  ∃ q ds ds' rest rest', declsFramed ⟨L, none⟩ ds ds' ∧ stmtsFramedAs ⟨L, none⟩ rest {} rest' ∧
    p.code.stmts = .vars q (ds' ++ L.vars.decls) :: rest'

/-- A regime for the global code, under which machines are settled. -/
structure Regime.Settles (J : Regime) (t : Terms) : Prop where
  own : J.site.own = none
  frame : J.frame = Store.globals
  failed : ∀ m, J.failed m → m.Settled J.site.toLayout t J.guarded
  declares : ∀ m s, J.site.vars.Uses s → J.steady m →
    J.Keeps (modifyStore (·.declare Store.globals s)) m fun _ _ => True

section

variable {L : Layout} {t : Terms} {G : ArrayRef → Prop} {m n : Machine} {c : Setting}

theorem Machine.Settled.fits (hm : m.Settled L t G) : m.store.Fits L G := by
  rcases hm with ⟨rfl, hm⟩ | ⟨a, n, rfl, hm, -⟩
  · exact hm.fits
  · exact hm.fits

theorem Machine.Settled.events (hm : m.Settled L t G) : KeptThroughout L t m.trace.val := by
  rcases hm with ⟨-, hm⟩ | ⟨-, -, -, -, hm⟩
  · exact hm.events
  · exact hm

theorem settled_of_state {W : Watch} {own : Option Own} {B : FrameId} {D : Float → Prop}
    {I : (Float → Prop) → Nat → Value → Prop} (hpast : KeptThroughout W.layout W.terms W.past)
    (x : W.State own B D I m) :
    m.Settled W.layout W.terms W.guarded := by
  obtain ⟨d, -, -, -, hs⟩ := x.stacked
  obtain ⟨es, hes, hall⟩ := x.events
  refine .inr ⟨W.arrays, d, rfl, ⟨x.fits, hs⟩, ?_⟩
  rw [hes]
  exact hpast.append (.allowed hall)

/-- Where there is a stack its variables are declared. -/
theorem settles_watch {W : Watch} (hL : W.layout.Sound)
    (hpast : KeptThroughout W.layout W.terms W.past) :
    (W.regime none Store.globals .running).Settles W.terms where
  own := rfl
  frame := rfl
  failed _ hm := settled_of_state hpast hm
  declares m s hs hm := by
    have hbound : (m.store.local? Store.globals s).isSome := by
      obtain ⟨_, -, -, -, hst⟩ := hm.stacked
      rw [Option.isSome_iff_exists]
      rcases hs with rfl | rfl | hs
      · exact ⟨_, hst.stack⟩
      · exact ⟨_, hst.depth⟩
      · obtain ⟨_, -, hv⟩ := hst.location s hs
        exact ⟨_, hv⟩
    have hsame : m.store.declare Store.globals s = m.store := if_pos hbound
    refine .of_ok (go_modifyStore _ m) (.of_store_eq hsame) ?_ trivial
    rw [hsame]
    exact (Watch.lawful (.plain hL)).steady_ordinary m _ hm (.setStore (.refl _ _ _) hm.fits)

theorem settles_unstacked : (unstacked L t none Store.globals).Settles t where
  own := rfl
  frame := rfl
  failed _ hm := .inl ⟨rfl, hm⟩
  declares m s hs hm := by
    rcases m.store.declare_eq Store.globals s with he | ⟨-, he⟩
    · refine .of_ok (go_modifyStore _ m) (.of_store_eq he) ?_ trivial
      rw [he]
      exact hm.setStore hm.fits hm.unstacked
    · refine .of_ok (go_modifyStore _ m) ?_ ?_ trivial <;> rw [he]
      · exact Store.grows_defineVar (K := ⟨L, none⟩) hs _ fun _ _ ho => nomatch ho
      · refine hm.setStore (hm.fits.defineVar hs _) fun t ht hne => ?_
        rw [Store.local?_define]
        split
        · exact .inr rfl
        · exact hm.unstacked t ht hne

/-- From a settled machine on, code is held to a regime under which machines are settled. -/
theorem Machine.Settled.exists_regime (hm : m.Settled L t G) (hL : L.Sound)
    (hlimit : t.limit = c.limits.steps) : ∃ J : Regime, J.site = ⟨L, none⟩ ∧ J.guarded = G ∧
      J.Governs c c.caller ∧ J.Settles t ∧ J.steady m := by
  rcases hm with ⟨rfl, hm⟩ | ⟨a, d, rfl, hm, hkept⟩
  · exact ⟨unstacked L t none Store.globals, rfl, rfl,
      governs_unstacked hL (unstacked_within hL _), settles_unstacked, hm⟩
  · exact ⟨(Watch.start L t a d m).regime none Store.globals .running, rfl, rfl,
      Watch.governs_plain hL (watched_within hL hlimit _), settles_watch hL hkept,
        Watch.State.of_ready hm trivial⟩

theorem Regime.Settles.of_keeps {α : Type} {J : Regime} (hset : J.Settles t) (hJ : J.Lawful)
    {x : Eval α} {Q : α → Machine → Prop} (hx : J.Keeps x m Q) :
    (x.go m).2.Settled J.site.toLayout t J.guarded := by
  obtain ⟨-, h⟩ := hx
  rcases ho : (x.go m).1 with (⟨v, p⟩ | e) | a <;> rw [ho] at h
  · exact hset.failed _ (hJ.failed_of_unwinding _ h.1)
  · exact hset.failed _ h
  · exact hset.failed _ (hJ.failed h.1)

/-- A call from outside leaves a settled machine, however it ends. -/
theorem settled_call (hL : L.Sound) (hlimit : t.limit = c.limits.steps) (hm : m.Settled L t G)
    {callee : Value} (hcallable : callee.isCallable) {args : List Value}
    (hargs : ∀ v ∈ args, m.store.Clear G v) (p : Position) :
    ((c.caller callee args p).go m).2.Settled L t G := by
  obtain ⟨J, hsite, rfl, hJ, hset, hsteady⟩ := hm.exists_regime hL hlimit
  have hcallee : J.Clear callee m := by
    cases callee with
    | array r => nomatch hcallable
    | _ => trivial
  have hcall := hJ.calls m callee args p hsteady hcallee hargs hcallable
  have hsettled := hset.of_keeps hJ.toLawful hcall
  rwa [hsite] at hsettled

theorem StackVars.uses_of_mem_decls {v : StackVars} {s : SymbolId} (hs : s ∈ v.decls.map (·.name)) :
    v.Uses s := by
  simpa [decls, Uses, Function.comp_def, or_assoc] using hs

/-- Hoisting what the global code declares. -/
theorem Regime.Settles.hoist {J : Regime} (hset : J.Settles t) (hJ : J.Governs c c.caller)
    {p : Program} (hp : p.Opens J.site.toLayout) (hm : J.steady m) :
    J.Keeps (Eval.hoist p.code.stmts Store.globals) m fun _ _ => True := by
  obtain ⟨q, ds, ds', rest, rest', hds, hrest, heq⟩ := hp
  obtain ⟨hnames, hwrites⟩ := declsFramed_names hds
  have hdeclared : ∀ s ∈ stmtsDeclared p.code.stmts, J.site.Writes s ∨ J.site.vars.Uses s := by
    rw [heq, stmtsDeclared, Stmt.declared, List.map_append, stmtsDeclared_framed _ _ _ hrest]
    intro s hs
    rcases List.mem_append.1 hs with hs | hs
    · rcases List.mem_append.1 hs with hs | hs
      · exact .inl (hwrites s (hnames ▸ hs))
      · exact .inr (StackVars.uses_of_mem_decls hs)
    · exact .inl (stmtsDeclared_writes _ _ ⟨_, hrest⟩ s hs)
  have hfuncs : ∃ fs, List.Forall₂ (DeclaredAs J.site.toLayout) fs
      (p.code.stmts.filterMap Stmt.declaration?) := by
    rw [heq, List.filterMap_cons_none rfl]
    exact ⟨_, declarations_framed (K := ⟨J.site.toLayout, none⟩)
      (fun f f' h => (hJ.sound.framed f f' h).name) _ _ _ hrest⟩
  obtain ⟨fs, hfs⟩ := hfuncs
  refine (Regime.Lawful.declareNames _ hm fun s hs n hn => ?_).bind fun _ n hg hn _ =>
    hJ.declareFuncs hfs hn (hJ.fits hn).has_globals
  exact (hdeclared s hs).elim (fun hs => hJ.declare hn _ hs) fun hs => hset.declares n s hs hn

/-- The rest of the global code, once there is a stack. -/
theorem settled_rest (hL : L.Sound) (hlimit : t.limit = c.limits.steps) {a : StackArrays}
    (hm : m.Ready L t a (level 0)) (hkept : KeptThroughout L t m.trace.val)
    {rest rest' : List Stmt} (hrest : stmtsFramedAs ⟨L, none⟩ rest {} rest') (p : Program) :
    ((execStmts c c.caller rest' Store.globals >>= p.leave).go m).2.Settled L t
      (a.Guards t.closed) := by
  have hJ : ((Watch.start L t a (level 0) m).regime none Store.globals .running).Governs c
      c.caller :=
    Watch.governs_plain hL (watched_within hL hlimit _)
  have hset := settles_watch (W := Watch.start L t a (level 0) m) hL hkept
  have hsteady : ((Watch.start L t a (level 0) m).regime none Store.globals .running).steady m :=
    Watch.State.of_ready hm trivial
  have hrun :=
    ends_execStmts hJ hrest hsteady (.body hm.stacked.has_globals fun _ _ ho => nomatch ho)
  have hkeeps : ((Watch.start L t a (level 0) m).regime none Store.globals .running).Keeps
      (execStmts c c.caller rest' Store.globals >>= p.leave) m fun _ _ => True := by
    refine hrun.bind fun flow n _ hn => ?_
    match flow, hn with
    | .next, hn => exact Regime.Keeps.pure hn trivial
    | .returns _, hn => exact Regime.Keeps.fault (hJ.failed hn.1)
    | .breaks _, hn => exact Regime.Keeps.fault (hJ.failed hn)
    | .continues _, hn => exact Regime.Keeps.fault (hJ.failed hn)
  exact hset.of_keeps hJ.toLawful hkeeps

/-- A run of the global code leaves a settled machine, however it ends. -/
theorem settled_run (hL : L.Sound) (hlimit : t.limit = c.limits.steps) (hm : m.Settled L t G)
    {p : Program} (hp : p.Opens L) : ∃ G', ((p.exec c).go m).2.Settled L t G' := by
  obtain ⟨J, hsite, rfl, hJ, hset, hsteady⟩ := hm.exists_regime hL hlimit
  have hhoist := hset.hoist hJ (p := p) (by rwa [hsite]) hsteady
  obtain ⟨q, ds, ds', rest, rest', hds, hrest, heq⟩ := hp
  have hfirst : J.Keeps (do
      Eval.hoist p.code.stmts Store.globals
      tick c
      declareVars c c.caller ds' Store.globals) m fun _ _ => True := by
    refine hhoist.bind fun _ n hg hn _ => (hJ.tick hn c).bind fun _ k hg' hk _ => ?_
    refine hJ.declareVars (by rwa [hsite]) hk ?_
    rw [hset.frame]
    exact .body (hJ.fits hk).has_globals fun o _ ho => nomatch hset.own.symm.trans ho
  have hexec : p.exec c = (do
      Eval.hoist p.code.stmts Store.globals
      tick c
      declareVars c c.caller ds' Store.globals) >>= fun _ =>
        declareVars c c.caller L.vars.decls Store.globals >>= fun _ =>
          execStmts c c.caller rest' Store.globals >>= p.leave := by
    rw [Program.exec, heq]
    simp only [execStmts, Stmt.exec, declareVars_append, bind_assoc, pure_bind]
  have hsettled := hset.of_keeps hJ.toLawful hfirst
  rw [hexec, go_bind]
  rcases hgo : (Eval.hoist p.code.stmts Store.globals >>= fun _ => tick c >>= fun _ =>
    declareVars c c.caller ds' Store.globals).go m with ⟨e | ⟨⟩, n⟩ <;> rw [hgo] at hsettled
  · exact ⟨J.guarded, by rwa [hsite] at hsettled⟩
  · rw [hsite] at hsettled
    obtain ⟨k, hgo', hstore, hsteps, es, hes, hall⟩ :=
      go_declareStack c c.caller hsettled.fits.toRooted L.vars
    have hready : k.Ready L t (n.store.openedArrays L.vars) (level 0) := {
      fits := hstore ▸ hsettled.fits.openStack.unguard fun _ hr => hr.2
      stacked := hstore ▸ Store.stacked_openStack hL hsettled.fits.has_globals }
    have hkept : KeptThroughout L t k.trace.val := by
      rw [hes]
      refine hsettled.events.append (.of_mem fun e he => ?_)
      obtain ⟨h, rfl⟩ := hall e he
      exact .store L _ h
    have hrest' := settled_rest hL hlimit hready hkept hrest p
    simp only [go_bind, hgo'] at hrest' ⊢
    exact ⟨_, hrest'⟩

end

end FrameLedger
