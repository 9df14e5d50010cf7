import FrameLedger.Proofs.Entering
import FrameLedger.Proofs.FrameCode

/-!
# Calls under watch

A call respects the watch that is set where it begins: `watched_within`, by induction on how deep
calls may nest. A function makes its frame, runs the declarators in front of the push, pushes, and
then runs under the regime of `Watch.governs_framed`.
-/

namespace FrameLedger

open Eval

namespace Watch

variable {W : Watch} {own : Option Own} {o : Own} {B env : FrameId} {D : Float → Prop}
  {I : (Float → Prop) → Nat → Value → Prop} {m n k : Machine} {φ : Stage} {c : Setting}
  {call : Caller} {p : Position}

/-! ## The event of a call -/

variable {L : Layout} {t : Terms} {a : StackArrays} {d : Float}

theorem sees_start (hm : m.Ready L t a d) (S : Float → Prop) : (start L t a d m).Sees S m.store :=
  ⟨⟨m.steps, d, ⟨0, .refl, Nat.le_refl _, .inl rfl⟩, hm.stacked⟩, fun _ => .refl _ _ _⟩

theorem allows_call (hm : m.Ready L t a d) {es : List Event}
    (hes : ∀ e ∈ es, (start L t a d m).Allows (Passes L.vars d es) e) {h : Store}
    (hh : (start L t a d m).Sees (Passes L.vars d es) h) (callee : Value) (args : List Value)
    {outcome : Except Abrupt Value}
    (hok : ∀ v, outcome = .ok v → ∃ x, L.Level d x ∧ h.Stacked L.vars a x) :
    (start L t a d m).Allows (Passes L.vars d es) (.call callee args m.store es outcome h) := by
  intro e he
  rcases Happens.singleton_iff.1 he with rfl | he
  · refine ⟨List.forall_mem_cons.2 ⟨sees_start hm _, List.forall_mem_singleton.2 hh⟩, fun r _ => ?_⟩
    have hsees (g : Store) (hg : (start L t a d m).Sees (Passes L.vars d es) g) :
        (∃ k ≤ t.limit, ∃ x, Rises (Passes L.vars d es) d k x ∧ g.Stacked L.vars a x) ∧
          (t.closed → m.store.Agrees a (Touches (Passes L.vars d es) d t.limit) g) := by
      obtain ⟨⟨i, x, ⟨k, hk, -, hlimit⟩, hst⟩, ha⟩ := hg
      replace hlimit : k = 0 ∨ m.steps + k ≤ t.limit := hlimit
      exact ⟨⟨k, by omega, x, hk, hst⟩,
        fun hc => (ha hc).mono fun _ hi => hi.mono (fun _ => id) (Nat.sub_le _ _)⟩
    refine ⟨a, d, hm.stacked, ?_, hok⟩
    rintro g (rfl | ⟨e, he, hg⟩)
    · exact hsees g hh
    · obtain ⟨e', he', hin⟩ := he.exists_mem
      exact hsees g ((hes e' he' e hin).1 g hg)
  · obtain ⟨e', he', hin⟩ := he.exists_mem
    exact hes e' he' e hin

theorem State.of_call (hm : m.Ready L t a d)
    (y : ((start L t a d m).fresh (· = d)).State none Store.globals D I n) (callee : Value)
    (args : List Value) (outcome : Except Abrupt Value)
    (hok : ∀ v, outcome = .ok v → ∃ x, L.Level d x ∧ n.store.Stacked L.vars a x) {n' : Machine}
    (ht : n'.trace.val = m.trace.val ++ [.call callee args m.store n.trace.val outcome n.store])
    (hs : n'.store = n.store) (hsteps : n.steps ≤ n'.steps) :
    (start L t a d m).State none Store.globals D I n' := by
  have hmono (x : Float) (hx : Passes L.vars d n.trace.val x) :
      (start L t a d m).passed n'.trace.val x := by
    rw [ht]
    refine hx.imp_right fun hx => .append_right ?_ _
    exact .within (e := .call callee args m.store n.trace.val outcome n.store) hx
  obtain ⟨es, hes, hall⟩ := y.events
  replace hes : n.trace.val = es := hes
  refine ⟨hs ▸ y.fits, fun hc => hs ▸ y.agrees.mono hmono hc, ?_, fun _ ho => (nomatch ho), _, ht,
    ?_⟩
  · obtain ⟨x, hD, hp, hx, hst⟩ := y.stacked
    exact ⟨x, hD, hmono x hp, Climbs.mono hx hmono hsteps, hs ▸ hst⟩
  · have hinside : ∀ e ∈ n.trace.val, (start L t a d m).Allows (Passes L.vars d n.trace.val) e :=
      hes ▸ hall
    have hcall := allows_call hm hinside y.sees callee args hok
    exact List.forall_mem_singleton.2 (hcall.mono hmono)

/-- What a call does is one event, which the watch allows. -/
theorem keeps_together (hm : m.Ready L t a d) (callee : Value) (args : List Value) {x : Eval Value}
    (hx : ((start L t a d m).fresh (· = d)).calling.Keeps x { m with trace := .of [] }
      (start L t a d m).calling.Clear) :
    (start L t a d m).calling.Keeps (together (.call callee args) x) m
      (start L t a d m).calling.Clear := by
  rw [Regime.Keeps, Regime.Ends, go_together]
  obtain ⟨hg, hr⟩ := hx
  refine ⟨hg, ?_⟩
  rcases hgo : x.go { m with trace := .of [] } with ⟨(⟨v, p⟩ | e) | v, n⟩ <;> rw [hgo] at hr
  · exact ⟨State.of_call hm hr.1 callee args (.error (.thrown v p)) (by rintro _ ⟨⟩) (by simp) rfl
      (Nat.le_refl _), hr.2⟩
  · exact State.of_call hm hr callee args (.error (.fault e)) (by rintro _ ⟨⟩) (by simp) rfl
      (Nat.le_refl _)
  · refine ⟨State.of_call hm hr.1 callee args (.ok v) (fun _ _ => ?_) (by simp) rfl (Nat.le_refl _),
      hr.2⟩
    obtain ⟨x, hx, -, -, hs⟩ := hr.1.stacked
    exact ⟨x, hx, hs⟩

/-! ## Entering a function -/

/-- The name of a function is found where its body runs. -/
theorem exists_lookup_name {h : Store} (hh : h.Rooted) {p : FrameId} (hp : h.parent? B = some p)
    {s : SymbolId} (hs : (h.local? p s).isSome) :
    ∃ v, h.lookup B s = some v := by
  rcases hB : h.local? B s with _ | v
  · obtain ⟨v, hv⟩ := Option.isSome_iff_exists.1 hs
    exact ⟨v, by rw [Store.lookup_of_parent? hh hB hp, Store.lookup_of_local? hv]⟩
  · exact ⟨v, Store.lookup_of_local? hB⟩

/-- The index of the frame is set. -/
theorem State.setIndex (x : W.State (some o) B D I m) (hK : Site.Sound ⟨W.layout, some o⟩)
    (hB : m.store.Has B) {w : Value} (hw : W.Pushed (W.passed m.trace.val) m.steps w) :
    W.State (some o) B D W.Pushed (m.setStore (m.store.define B o.index w)) := by
  have hvars := (hK.own_fresh rfl (.inl rfl : o.Uses o.index)).2
  have hclear : m.store.Clear W.guarded w := by
    obtain ⟨_, rfl, -⟩ := hw
    trivial
  refine x.setStore (x.fits.define B hvars hclear) (x.agrees.mono fun _ hy => passed_setStore hy _)
    ?_ fun o' ho => ?_
  · obtain ⟨d, hD, -, hd, hst⟩ := x.stacked
    exact ⟨d, hD, hd.mono (fun _ hy => passed_setStore hy _) (Nat.le_refl _), hst.define hvars B _⟩
  · obtain rfl := Option.some.inj ho
    exact ⟨w, Store.local?_define_self _ _ _ _ hB,
      lasts_pushed hw (fun _ hy => passed_setStore hy _) (Nat.le_refl _)⟩

/-- The push raises the depth and sets the index, and what is left of it is to write the name. -/
theorem State.push (x : W.State (some o) B (W.layout.Level W.depth) I m)
    (hK : Site.Sound ⟨W.layout, some o⟩) (hi : m.store.Inside ⟨W.layout, some o⟩ B B)
    (hlimit : m.steps + 1 ≤ W.terms.limit) {name : Option SymbolId}
    (hname : ∀ s, name = some s → s.index < W.layout.base ∧
      ∀ h, m.store.Grows ⟨W.layout, some o⟩ B h → h.Rooted → ∃ v, h.lookup B s = some v)
    (c : Setting) (call : Caller) (p : Position) : ∃ n key v,
      ((pushCode W.layout.vars o.index name p).exec c call none B).go
          { m with steps := m.steps + 1 } =
        (do setProperty c p (.array W.arrays.stack) key v; return .next : Eval Flow).go n ∧
      W.State (some o) B (fun _ => True) W.Pushed n ∧ m.store.Grows ⟨W.layout, some o⟩ B n.store ∧
      W.SafeKey (W.passed n.trace.val) key ∧ n.store.Clear W.guarded v := by
  obtain ⟨d, hlevel, hp, hd, hst⟩ := x.stacked
  have hhas := hi.has
  have hlookup (s : SymbolId) (hs : W.layout.vars.Uses s) (w : Value)
      (hw : m.store.local? Store.globals s = some w) : m.store.lookup B s = some w :=
    x.fits.lookup_var hs hw hhas
  obtain ⟨k, hk, hle, -⟩ := hd
  have hd : W.Climbs (W.passed m.trace.val) (m.steps + 1) d := ⟨k, hk, by omega, .inr (by omega)⟩
  have hup : W.Climbs (W.passed m.trace.val) (m.steps + 1) (d + 1) :=
    ⟨k + 1, hk.up, by omega, .inr (by omega)⟩
  have x₀ : W.State (some o) B (W.layout.Level W.depth) (fun _ _ _ => True)
      { m with steps := m.steps + 1 } :=
    { x with
      stacked := ⟨d, hlevel, hp, hd, hst⟩
      index := fun o' ho => (x.index o' ho).imp fun w hw => ⟨hw.1, trivial⟩ }
  have x₁ := x₀.setDepth hK (fun _ _ _ _ _ _ _ _ => trivial) (E := fun _ => True) trivial hup
  have hindex := (hi.mono (grows_setDepth hK m.store (.number (d + 1)))
    fun _ _ ho hu => hK.own_fresh ho hu).owner? x₁.fits.toRooted rfl (.inl rfl : o.Uses o.index)
  have hB := (grows_setDepth (B := B) hK m.store (.number (d + 1))).has B hhas
  have hpushed : W.Pushed (W.passed (({ m with steps := m.steps + 1 } : Machine).setStore
      (m.store.define Store.globals W.layout.vars.depth (.number (d + 1)))).trace.val) (m.steps + 1)
      (.number (d + 1)) := by
    refine ⟨d, rfl, hlevel, ⟨k, hk.mono fun _ hy => passed_setStore hy _, by omega, by omega⟩,
      passed_setStore hp _, ?_⟩
    rw [Machine.setStore_trace]
    exact passed_store (hst.setDepth hK.toSound _).depth _
  obtain ⟨n, hn⟩ : ∃ n, n = (({ m with steps := m.steps + 1 } : Machine).setStore
      (m.store.define Store.globals W.layout.vars.depth (.number (d + 1)))).setStore
      ((m.store.define Store.globals W.layout.vars.depth (.number (d + 1))).define B o.index
        (.number (d + 1))) := ⟨_, rfl⟩
  have x₂ : W.State (some o) B (fun _ => True) W.Pushed n := hn ▸ x₁.setIndex hK hB hpushed
  have hgrows : m.store.Grows ⟨W.layout, some o⟩ B n.store := by
    obtain ⟨declared, hapart⟩ := hK.apart o rfl
    rw [hn]
    exact (grows_setDepth hK m.store _).trans
      (Store.grows_defineOwn rfl (.inl rfl : o.Uses o.index) _
      fun hf => absurd hf hapart.index_not_mem)
  obtain ⟨v, hv, hclear⟩ : ∃ v, ((name.elim (Expr.null p) (.var p)).eval c call B).go n =
    (.ok v, n) ∧
      n.store.Clear W.guarded v := by
    rcases name with _ | s
    · exact ⟨.null, go_eval_literal c call p .null, trivial⟩
    · obtain ⟨hs, hbound⟩ := hname s rfl
      obtain ⟨v, hv⟩ := hbound _ hgrows x₂.fits.toRooted
      exact ⟨v, go_eval_var c call p hv, x₂.fits.lookup_clear (hK.not_uses hs) hv⟩
  have hkey : W.Pushed (W.passed n.trace.val) (m.steps + 1) (.number (d + 1)) :=
    hn ▸ lasts_pushed hpushed (fun _ hy => passed_setStore hy _) (Nat.le_refl _)
  refine ⟨n, displayNumber (d + 1), v, ?_, x₂, hgrows, safeKey_pushed hkey m.store, hclear⟩
  exact go_pushCode (m := { m with steps := m.steps + 1 }) c call p
    (hlookup _ (.inl rfl) _ hst.stack) (hlookup _ (.inr (.inl rfl)) _ hst.depth)
    (x₀.owner?_depth hhas) rfl hindex hn hv none

/-- What the code of the function respects the call respects. -/
theorem ends_entered {α : Type} {x : Eval α} {P : α → Machine → Prop}
    (hn : Entered ⟨W.layout, some o⟩ W.guarded env B m n) (hK : Site.Sound ⟨W.layout, some o⟩)
    (hx : (W.regime (some o) B φ).Ends x n P) : W.calling.EndsFrom m x n fun a k =>
      Entered ⟨W.layout, some o⟩ W.guarded env B m k ∧ P a k :=
  Entered.ends (J := W.regime (some o) B φ) hn hK
    ⟨rfl, rfl, fun _ h => State.forget h _ _, fun _ h => State.forget h _ _⟩ hx

theorem leaving_of_leaves {r : Place} (hr : r.exit = none) {flow : Flow} (hne : flow ≠ .next)
    (hf : (W.regime (some o) B .running).Leaves r flow n) : W.calling.Leaving flow n := by
  match flow, hf with
  | .next, _ => exact absurd rfl hne
  | .returns v, ⟨hl, hv⟩ =>
    rw [hr] at hl
    exact ⟨State.forget hl _ _, hv⟩
  | .breaks _, hn => exact State.forget hn _ _
  | .continues _, hn => exact State.forget hn _ _

/-- A function pushes its frame, runs its body and pops the frame. -/
theorem ends_pushed (hK : Site.Sound ⟨W.layout, some o⟩) (hcall : call.Watched W.layout W.terms)
    (hlimit : W.terms.limit = c.limits.steps) (hn : Entered ⟨W.layout, some o⟩ W.guarded env B m n)
    (hs : (W.regime (some o) B .entering).steady n) {name : Option SymbolId}
    (hname : ∀ s, name = some s → s.index < W.layout.base ∧ (m.store.local? env s).isSome)
    {ss rest : List Stmt} (hrest : stmtsFramedAs ⟨W.layout, some o⟩ ss {} rest) (q : Position) :
    W.calling.EndsFrom m (execStmts c call (pushCode W.layout.vars o.index name p ::
      (rest ++ if Block.endsWithExit ⟨rest, q⟩ then []
        else [.ofExpr (popCode W.layout.vars o.index p)])) B) n
      W.calling.Leaving := by
  have htick := ends_entered hn hK (((lawful hK).tick hs c).and_go (Q := fun _ k =>
      k = { n with steps := n.steps + 1 } ∧ n.steps + 1 ≤ W.terms.limit) fun _ k hgo => by
    rw [go_tick] at hgo
    split at hgo
    · cases hgo
    · exact ⟨(Prod.mk.inj hgo).2.symm, by omega⟩)
  refine htick.bind fun _ k hk => ?_
  obtain ⟨-, -, rfl, hle⟩ := hk
  have hfound (s : SymbolId) (h : name = some s) : s.index < W.layout.base ∧
      ∀ h, n.store.Grows ⟨W.layout, some o⟩ B h → h.Rooted → ∃ v, h.lookup B s = some v :=
    ⟨(hname s h).1, fun h' hg hh => exists_lookup_name hh
      ((hg.parent? B hn.inside.has).trans hn.parent?)
      (hg.bound _ _ ((hn.outside Store.globals).bound _ _ (hname s h).2))⟩
  obtain ⟨l, key, v, hgo, hl, hg, hkey, hv⟩ := State.push hs hK hn.inside hle hfound c call p
  replace hl : (W.regime (some o) B .running).steady l := hl
  have hpush : W.calling.EndsFrom m ((pushCode W.layout.vars o.index name p).exec c call none B)
      { n with steps := n.steps + 1 } fun flow k => Entered ⟨W.layout, some o⟩ W.guarded env B m k ∧
        (W.regime (some o) B .running).steady k ∧ flow = .next := by
    rw [Regime.EndsFrom, hgo]
    exact ends_entered (hn.mono hK hg) hK ((keeps_setGuarded hK hl p (.inl rfl) hkey hv).bind
      fun _ k _ hk _ => .pure hk rfl)
  refine hpush.bind fun flow k hpushed => ?_
  obtain ⟨hk, hks, rfl⟩ := hpushed
  have hrun := ends_execStmts (governs_framed (c := c) hK hcall) hrest hks hk.inside
  by_cases hexit : Block.endsWithExit ⟨rest, q⟩ = true
  · rw [if_pos hexit, List.append_nil]
    have hne : (W.regime (some o) B .running).Ends (execStmts c call rest B) k W.calling.Leaving :=
      (hrun.and_go (Q := fun flow _ => flow ≠ .next) fun flow n hgo hflow =>
        execStmts_ne_next c call B hexit k n (hflow ▸ hgo)).mono fun _ _ _ hf => leaving_of_leaves
          rfl hf.2 hf.1
    exact (ends_entered hk hK hne).mono fun _ _ hf => hf.2
  · rw [if_neg hexit, execStmts_append]
    refine (ends_entered hk hK hrun).bind fun flow l hlf => ?_
    obtain ⟨hl, hf⟩ := hlf
    by_cases hflow : flow = .next
    · subst hflow
      refine ((ends_entered hl hK (ends_pop hK hf hl.inside fun j _ hj _ => ?_))).mono fun _ _ hf =>
        hf.2
      exact .pure (State.forget hj _ _)
    · cases flow with
      | next => exact absurd rfl hflow
      | _ => exact .of_ok (go_pure _ _) (hl.outside Store.globals) (leaving_of_leaves rfl hflow hf)

/-- The body of a function, whether it keeps a frame or not. -/
theorem ends_body (hL : W.layout.Sound) (hcall : call.Watched W.layout W.terms)
    (hlimit : W.terms.limit = c.limits.steps) {f : Func} {cl : Closure}
    (hf : f.FramedAs W.layout cl.func) (hn : Making W.layout W.guarded m cl.env B n)
    (hbound : ∀ s ∈ stmtsDeclared cl.func.body.stmts, (n.store.local? B s).isSome)
    (hname : ∀ s, cl.func.name = some s → (m.store.local? cl.env s).isSome)
    (hs : W.calling.steady n) :
    W.calling.EndsFrom m (execStmts c call cl.func.body.stmts B) n W.calling.Leaving := by
  have hgrows : W.calling.Grows m n := (Site.Sound.plain hL).grows hn.ordinary.store _
  rcases hf.body with ⟨hplain, hss⟩ | ⟨o, declared, ss, hapart, hss, hbody⟩
  · rcases hplain with hnil | hexempt
    · rw [hnil] at hss
      rw [show cl.func.body.stmts = [] from hss]
      exact .of_ok (go_pure _ _) hgrows hs
    · have hdeep (k : Machine) (hk : (W.regime none B .running).steady k) : W.calling.steady k :=
        (State.forget hk _ _).mono_depth fun _ _ h => absurd hexempt (h f)
      have hs' : (W.regime none B .running).steady n :=
        (hs.mono_depth fun _ _ => trivial).forget _ _
      have hrun := ends_execStmts (governs_plain (c := c) hL hcall) hss hs'
        (.body hn.has fun _ _ ho => nomatch ho)
      have hends : W.calling.Ends (execStmts c call cl.func.body.stmts B) n W.calling.Leaving := by
        refine hrun.transport
          (fun k hg => Store.Grows.beside (K := ⟨W.layout, none⟩) hg (.plain hL) _)
          (fun k _ hk => State.forget hk _ _) (fun k _ hk => State.forget hk _ _) (fun _ _ => id)
          fun flow k _ hf => ?_
        match flow, hf with
        | .next, hk => exact hdeep k hk
        | .returns v, ⟨hk, hv⟩ => exact ⟨hdeep k hk, hv⟩
        | .breaks _, hk => exact State.forget hk _ _
        | .continues _, hk => exact State.forget hk _ _
      exact hends.since hgrows
  · have hK : Site.Sound ⟨W.layout, some o⟩ :=
      ⟨hL, fun _ ho => Option.some.inj ho ▸ ⟨declared, hapart⟩⟩
    obtain ⟨q, ds, ds', tail, rest, -, hds, hrest, heq⟩ :=
      assembled_eq W.layout.vars f o.index declared hss
    have hmem := (mem_stmtsDeclared_assembled W.layout.vars f o.index declared hss).1
    rw [← hbody] at hmem
    have hentered : Entered ⟨W.layout, some o⟩ W.guarded cl.env B m n := {
      new := hn.new
      parent? := hn.parent?
      grows := ⟨n.store, hn.ordinary.store, .refl _ _ _⟩
      inside := .body hn.has fun o' s ho hu => by
        obtain rfl := Option.some.inj ho
        exact hbound s (hmem s (hapart.mem s hu)) }
    have hsteady : (W.regime (some o) B .entering).steady n := { hs with
      index := fun o' ho => by
        obtain rfl := Option.some.inj ho
        obtain ⟨w, hw⟩ :=
          Option.isSome_iff_exists.1 (hbound o.index (hmem _ (hapart.mem _ (.inl rfl))))
        refine ⟨w, hw, (hn.only _ w hw).resolve_left (hK.own_fresh rfl (.inl rfl)).1⟩ }
    rw [hbody, heq]
    refine (ends_entered hentered hK ((lawful hK).tick hsteady c)).bind
      fun _ k ⟨hk, hks, hstore⟩ => ?_
    have hdeclared (s : SymbolId) (hs : s ∈ declared) : (k.store.local? B s).isSome := by
      rw [hstore]
      exact hbound s (hmem s hs)
    refine (ends_entered hk hK
      ((serves (B := B) hK hcall).leadingVars hks hk.inside hds hdeclared f.pos q)).bind
      fun flow l ⟨hl, hls, hflow⟩ => ?_
    subst hflow
    refine ends_pushed hK hcall hlimit hl hls (fun s h => ?_) hrest f.body.pos
    exact ⟨hf.name_lt s h, hname s (hf.name.trans h)⟩

theorem keeps_enter (hL : W.layout.Sound) (hcall : call.Watched W.layout W.terms)
    (hlimit : W.terms.limit = c.limits.steps) {f : Func} {cl : Closure}
    (hf : f.FramedAs W.layout cl.func) (henv : m.store.Has cl.env)
    (hname : ∀ s, cl.func.name = some s → (m.store.local? cl.env s).isSome)
    (hm : W.calling.steady m) {args : List Value} (hargs : ∀ v ∈ args, W.calling.Clear v m)
    (p : Position) :
    W.calling.Keeps (enter c call cl args p) m W.calling.Clear :=
  (lawful (.plain hL)).enter hf henv hm hargs p fun _ _ hn hbound hs =>
    ends_body hL hcall hlimit hf hn hbound hname hs

end Watch

open Watch

variable {L : Layout} {t : Terms} {c : Setting}

/-- A call respects its watch if entering a function does. -/
theorem watched_ofEnter (hL : L.Sound) {enter : Closure → List Value → Position → Eval Value}
    (henter : ∀ (W : Watch) (m : Machine) (f : Func) (cl : Closure) (args : List Value)
        (p : Position),
      W.layout = L → W.terms = t → f.FramedAs L cl.func → m.store.Has cl.env →
      (∀ s, cl.func.name = some s → (m.store.local? cl.env s).isSome) → W.calling.steady m →
      (∀ v ∈ args, W.calling.Clear v m) → W.calling.Keeps (enter cl args p) m W.calling.Clear) :
    (Caller.ofEnter c enter).Watched L t := by
  intro a d m callee args p hm hcallee hargs
  have hJ : ((start L t a d m).fresh (· = d)).calling.Lawful := lawful (.plain hL)
  have hs : ((start L t a d m).fresh (· = d)).calling.steady { m with trace := .of [] } :=
    ⟨hm.fits, fun _ => .refl _ _ _,
      ⟨d, .refl L d, .inl rfl, ⟨0, .refl, Nat.le_refl _, .inl rfl⟩, hm.stacked⟩, fun _ ho =>
      (nomatch ho), ⟨[], by simp [Watch.fresh], by simp⟩⟩
  refine keeps_together hm callee args
    (hJ.invoke hs c hargs p (fun n r cl hn hcl hargs => ?_) callee)
  obtain ⟨f, hf⟩ := hn.fits.closure r cl hcl
  exact henter _ n f cl args p rfl rfl (hL.framed f cl.func hf) (hn.fits.has_env r cl hcl)
    (fun s hs => hn.fits.named r cl s hcl hs) hn hargs

theorem watched_within (hL : L.Sound) (hlimit : t.limit = c.limits.steps) :
    ∀ n, (Caller.within c n).Watched L t
  | 0 => watched_ofEnter hL fun _ _ _ _ _ _ hW _ _ _ _ hm _ =>
    .fault ((lawful (.plain (hW ▸ hL))).failed hm)
  | n + 1 => watched_ofEnter hL fun _ _ _ _ _ p hW ht hf henv hname hm hargs => by
    have hcall := watched_within hL hlimit n
    subst hW ht
    exact keeps_enter hL hcall hlimit hf henv hname hm hargs p

end FrameLedger
