import FrameLedger.Proofs.Calls

/-!
# Before the stack exists

Until the global code has made the stack, the variables that are to hold it hold nothing. A function
that keeps a frame then fails where it pushes it, and no call that happens begins with a stack to
keep: `unstacked_within`, by induction on how deep calls may nest.
-/

namespace FrameLedger

open Eval

/-- The variables for the arrays of the stack hold nothing yet. -/
def Store.Unstacked (v : StackVars) (h : Store) : Prop :=
  ∀ s, v.Uses s → s ≠ v.depth → h.local? globals s = none ∨ h.local? globals s = some .undefined

/-- All calls have kept what they had to. -/
def KeptThroughout (L : Layout) (t : Terms) (es : List Event) : Prop :=
  ∀ e, Happens e es → e.Kept L t

namespace KeptThroughout

variable {L : Layout} {t : Terms} {es fs : List Event} {e : Event}

theorem nil (L : Layout) (t : Terms) : KeptThroughout L t [] := fun _ h => nomatch h

theorem of_mem (h : ∀ e ∈ es, KeptThroughout L t [e]) : KeptThroughout L t es := fun e he => by
  obtain ⟨e', hmem, hin⟩ := he.exists_mem
  exact h e' hmem e hin

theorem mem (h : KeptThroughout L t es) (he : e ∈ es) : KeptThroughout L t [e] := fun e' h' =>
  h e' (h'.of_mem he)

theorem append (h : KeptThroughout L t es) (h' : KeptThroughout L t fs) :
    KeptThroughout L t (es ++ fs) :=
  of_mem fun _ he => (List.mem_append.1 he).elim h.mem h'.mem

/-- An event in which nothing else happens, and which is no call. -/
theorem store (L : Layout) (t : Terms) (h : Store) : KeptThroughout L t [.store h] := fun e he => by
  obtain rfl := he.eq_of_inside_nil rfl
  trivial

theorem threw (L : Layout) (t : Terms) (h : Store) : KeptThroughout L t [.threw h] := fun e he => by
  obtain rfl := he.eq_of_inside_nil rfl
  trivial

theorem result (h : KeptThroughout L t es) : KeptThroughout L t [.result es] := fun e he => by
  rcases Happens.singleton_iff.1 he with rfl | he
  · trivial
  · exact h e he

theorem ordinary {G : ArrayRef → Prop} {h : Store} (he : e.OrdinaryFrom L G h) :
    KeptThroughout L t [e] := by
  intro e' he'
  cases e with
  | store g => exact store L t g e' he'
  | element g r i v =>
    obtain rfl := he'.eq_of_inside_nil rfl
    trivial
  | _ => exact he.elim

theorem allowed {W : Watch} {S : Float → Prop} (h : ∀ e ∈ es, W.Allows S e) :
    KeptThroughout W.layout W.terms es :=
  of_mem fun e he e' he' => (h e he e' he').2

end KeptThroughout

/-- A machine without a stack. -/
structure Machine.Unstacked (L : Layout) (t : Terms) (m : Machine) : Prop where
  fits : m.store.Fits L fun _ => False
  unstacked : m.store.Unstacked L.vars
  events : KeptThroughout L t m.trace.val

/-- What code is held to while there is no stack. -/
def unstacked (L : Layout) (t : Terms) (own : Option Own) (B : FrameId) : Regime where
  site := ⟨L, own⟩
  frame := B
  guarded _ := False
  steady := Machine.Unstacked L t
  unwinding := Machine.Unstacked L t
  failed := Machine.Unstacked L t
  left _ := Machine.Unstacked L t

/-- Calls change nothing about that. -/
def Caller.Unstacked (L : Layout) (t : Terms) (call : Caller) : Prop :=
  ∀ m callee args p, m.Unstacked L t → (∀ v ∈ args, m.store.Clear (fun _ => False) v) →
    let J := unstacked L t none Store.globals
    J.Keeps (call callee args p) m J.Clear

namespace Machine.Unstacked

variable {L : Layout} {t : Terms} {m n : Machine}

theorem setStore (hm : m.Unstacked L t) {h : Store} (hf : h.Fits L fun _ => False)
    (hu : h.Unstacked L.vars) : (m.setStore h).Unstacked L t where
  fits := hf
  unstacked := hu
  events := by
    rw [Machine.setStore_trace]
    exact hm.events.append (.store L t h)

theorem ordinary (hm : m.Unstacked L t) (hL : L.Sound) (ho : m.Ordinary L (fun _ => False) n) :
    n.Unstacked L t where
  fits := ho.fits
  unstacked s hs hne := by
    rw [ho.store.others _ s hm.fits.has_globals (hL.not_writes hs)]
    exact hm.unstacked s hs hne
  events := by
    obtain ⟨es, hes, hall⟩ := ho.trace
    rw [hes]
    exact hm.events.append (.of_mem fun e he => .ordinary (hall e he))

theorem fresh (hm : m.Unstacked L t) : Machine.Unstacked L t { m with trace := .of [] } :=
  { hm with events := by simpa using KeptThroughout.nil L t }

/-- What is kept together is one event more. -/
theorem of_fresh (hm : m.Unstacked L t) (hn : n.Unstacked L t) {e : Event}
    (he : KeptThroughout L t [e]) :
    Machine.Unstacked L t { n with trace := .of (m.trace.val ++ [e]) } :=
  { hn with events := by simpa using hm.events.append he }

end Machine.Unstacked

section

variable {L : Layout} {t : Terms} {own : Option Own} {o : Own} {B env : FrameId} {m n : Machine}
  {c : Setting} {call : Caller}

theorem lawful_unstacked (hK : Site.Sound ⟨L, own⟩) : (unstacked L t own B).Lawful where
  sound := hK
  unwinding_fits _ hm := hm.fits
  steady_ordinary _ _ hm ho := hm.ordinary hK.toSound ho
  unwinding_ordinary _ _ hm ho := hm.ordinary hK.toSound ho
  unwinding_of_steady _ hm := hm
  failed_of_unwinding _ hm := hm
  failed_callDepth _ _ hm := { hm with }
  threw m hm :=
    { hm with
      events := by
        rw [Machine.log_trace]
        exact hm.events.append (.threw L t _) }

/-- A variable for an array of the stack is not bound, or holds nothing. -/
theorem keeps_readUnstacked (hK : Site.Sound ⟨L, own⟩) (hm : m.Unstacked L t)
    (henv : m.store.Has env) {s : SymbolId} (hs : L.vars.Uses s) (hne : s ≠ L.vars.depth)
    (p : Position) :
    (unstacked L t own B).Keeps (read c p env (.binding s)) m fun v n => v = .undefined ∧
      n = m := by
  refine ((lawful_unstacked hK).readBinding hm c p env s).mono fun v n _ _ h => ⟨?_, h.1⟩
  have hnone (h : m.store.local? Store.globals s = none) : m.store.lookup env s = none := by
    rcases ho : m.store.owner? env s with _ | f
    · simp [Store.lookup, ho]
    · rw [Store.lookup_eq_of_owner? ho]
      by_cases hf : f = Store.globals
      · rw [hf, h]
      · exact hm.fits.elsewhere f s hf hs
  rcases hm.unstacked s hs hne with hu | hu
  · rw [hnone hu] at h
    cases h.2
  · rw [hm.fits.lookup_var hs hu henv] at h
    exact (Option.some.inj h.2).symm

/-- Writing to a property of what is no object fails. -/
theorem keeps_setUndefined (hK : Site.Sound ⟨L, own⟩) (hm : m.Unstacked L t) (p : Position)
    (key : String) (v : Value) :
    (unstacked L t own B).Keeps (setProperty c p .undefined key v) m fun _ _ =>
      False :=
  (lawful_unstacked hK).raise hm c p _ _

/-- There is no place for a location yet. -/
theorem keeps_noteUnstacked (hK : Site.Sound ⟨L, some o⟩) (hm : m.Unstacked L t) {r : Recorder}
    (hr : L.vars.location = some r.location) (p : Position)
    (hi : m.store.Inside ⟨L, some o⟩ B env) :
    (unstacked L t (some o) B).Keeps
      ((Expr.assign p (.index p (.var p r.location) (.var p o.index)) (r.note p)).eval c call env) m
      fun _ _ => True := by
  have hJ : (unstacked L t (some o) B).Lawful := lawful_unstacked hK
  rw [Expr.assign, Expr.eval]
  simp only [Expr.reference, Expr.eval, bind_assoc, pure_bind, write]
  refine (keeps_readUnstacked hK hm hi.has (.inr (.inr hr)) (hK.location_ne _ hr).2 p).bind
    fun v n _ hn h => ?_
  obtain ⟨rfl, rfl⟩ := h
  refine (hJ.readBinding hn c p env o.index).bind fun w n _ hn _ => Regime.Keeps.text_bind ?_
  obtain ⟨text, ht⟩ := go_note c call p r env n
  refine (Regime.Keeps.of_ok ht (.refl _ n) hn trivial).bind (P := fun _ _ => True)
    fun _ k _ hk _ => ?_
  exact (keeps_setUndefined hK hk p _ _).bind fun _ _ _ _ h => h.elim

/-- The depth is set, which is bound in the global frame if anywhere. -/
theorem keeps_setDepthUnstacked (hK : Site.Sound ⟨L, own⟩) (hm : m.Unstacked L t) (v : Value) :
    (unstacked L t own B).Keeps (bindIn env Store.globals L.vars.depth v) m fun _ _ => True := by
  have howner : (bindIn env Store.globals L.vars.depth v).go m =
      (.ok (), m.setStore (m.store.define Store.globals L.vars.depth v)) := by
    rw [bindIn, go_modifyStore]
    split
    · next f hf =>
      by_cases hg : f = Store.globals
      · rw [hg]
      · have := Store.isSome_of_owner? _ hf
        rw [hm.fits.elsewhere f _ hg (.inr (.inl rfl))] at this
        cases this
    · rfl
  refine .of_ok howner ?_ (hm.setStore (hm.fits.defineVar (.inr (.inl rfl)) v) fun s hs hne => ?_)
    trivial
  · exact Store.grows_defineVar (K := ⟨L, own⟩) (.inr (.inl rfl)) v fun _ _ ho ht =>
      (hK.own_fresh ho (.inr (.inr ht))).2
  · rw [Store.local?_define_of_ne _ _ _ _ hne]
    exact hm.unstacked s hs hne

/-- A push raises the depth and sets the index, but there is no stack to write the name to. -/
theorem keeps_pushUnstacked (hK : Site.Sound ⟨L, some o⟩) (hm : m.Unstacked L t)
    (hi : m.store.Inside ⟨L, some o⟩ B B) {name : Option SymbolId} (p : Position) :
    (unstacked L t (some o) B).Keeps ((pushCode L.vars o.index name p).exec c call none B) m
      fun _ _ => False := by
  have hJ : (unstacked L t (some o) B).Lawful := lawful_unstacked hK
  have hindex : o.Uses o.index := .inl rfl
  obtain ⟨declared, hapart⟩ := hK.apart o rfl
  have hinside {m n : Machine} (hi : m.store.Inside ⟨L, some o⟩ B B)
      (hg : (unstacked L t (some o) B).Grows m n) : n.store.Inside ⟨L, some o⟩ B B :=
    hi.mono hg fun _ _ ho hu => hK.own_fresh ho hu
  rw [pushCode, exec_ofExpr c call none rfl, Expr.assign, Expr.eval]
  simp only [Expr.reference, Expr.assign, Expr.eval, bind_assoc, pure_bind, update, write]
  refine (keeps_readUnstacked hK hm hi.has (.inl rfl) hK.stack_ne_depth p).bind fun v n _ hn h => ?_
  obtain ⟨rfl, rfl⟩ := h
  refine (hJ.readBinding hn c _ B L.vars.depth).bind fun w k hg hk _ => ?_
  refine (keeps_setDepthUnstacked hK hk _).bind fun _ l hg' hl _ => ?_
  have hi' := hinside (hinside hi hg) hg'
  have hset : (unstacked L t (some o) B).Keeps
      (bindIn B Store.globals o.index (.number (w.toNumber + 1))) l fun _ _ => True := by
    have hvars := (hK.own_fresh rfl hindex).2
    refine .of_ok (go_bindIn Store.globals _ (hi'.owner? hl.fits.toRooted rfl hindex)) ?_
      (hl.setStore (hl.fits.define B hvars trivial) fun s hs hne => ?_) trivial
    · exact Store.grows_defineOwn (K := ⟨L, some o⟩) rfl hindex _ fun hf =>
        absurd hf hapart.index_not_mem
    · rw [Store.local?_define_of_ne _ _ _ _ (by rintro rfl; exact hvars hs)]
      exact hl.unstacked s hs hne
  refine hset.bind fun _ j _ hj _ => Regime.Keeps.text_bind ?_
  have hname : (unstacked L t (some o) B).Keeps ((name.elim (Expr.null p) (.var p)).eval c call B) j
      fun _ _ => True := by
    cases name with
    | none => exact .pure hj trivial
    | some s => exact (hJ.readBinding hj c p B s).mono fun _ _ _ _ _ => trivial
  refine hname.bind fun v i _ hi _ => ?_
  exact (keeps_setUndefined hK hi p _ v).bind fun _ _ _ _ h => h.elim

/-! ## Calls -/

theorem serves_unstacked (hK : Site.Sound ⟨L, own⟩) (hcall : call.Unstacked L t) :
    (unstacked L t own B).Serves c call where
  toLawful := lawful_unstacked hK
  calls m callee args p hm _ hargs _ := by
    refine (hcall m callee args p hm hargs).transport (fun n hg => ?_) (fun _ _ => id)
      (fun _ _ => id) (fun _ _ => id) (fun _ _ _ => id)
    exact Store.Grows.beside (K := ⟨L, own⟩) hg hK B
  notes m o r p env ho hr hm hi := by
    obtain rfl : own = some o := ho
    exact keeps_noteUnstacked hK hm hr p hi

/-- What is kept together changes nothing about there being no stack. -/
theorem keeps_togetherUnstacked {e : Store → List Event → Except Abrupt Value → Store → Event}
    {x : Eval Value} {Q : Value → Store → Prop} (hm : m.Unstacked L t)
    (he : ∀ es r h, KeptThroughout L t es → KeptThroughout L t [e m.store es r h])
    (hx : (unstacked L t own B).Keeps x { m with trace := .of [] } fun v n => Q v n.store) :
    (unstacked L t own B).Keeps (together e x) m fun v n => Q v n.store := by
  rw [Regime.Keeps, Regime.Ends, go_together]
  obtain ⟨hg, hr⟩ := hx
  refine ⟨hg, ?_⟩
  rcases hgo : x.go { m with trace := .of [] } with ⟨(⟨v, p⟩ | f) | v, n⟩ <;> rw [hgo] at hr
  · exact ⟨hm.of_fresh hr.1 (he _ _ _ hr.1.events), hr.2⟩
  · exact hm.of_fresh hr (he _ _ _ hr.events)
  · exact ⟨hm.of_fresh hr.1 (he _ _ _ hr.1.events), hr.2⟩

theorem governs_unstacked (hL : L.Sound) (hcall : call.Unstacked L t) :
    (unstacked L t none B).Governs c call := by
  have hJ : (unstacked L t none B).Serves c call := serves_unstacked (.plain hL) hcall
  refine hJ.governs_plain rfl (fun _ _ _ _ => id) (fun _ _ => Iff.rfl)
    fun m p e e' label env he hm hi => ?_
  have heval := hJ.evalOptional he hm.fresh hi
  exact (keeps_togetherUnstacked (Q := fun v h => h.Clear (fun _ => False) v) hm
    (fun _ _ _ => .result) heval).bind fun v n _ hn hv => .pure hn ⟨v, rfl, hv⟩

/-- No call begins with a stack. -/
theorem keptThroughout_call (hm : m.Unstacked L t) (hL : L.Sound) (callee : Value)
    (args : List Value) {es : List Event} (r : Except Abrupt Value) (h : Store)
    (hes : KeptThroughout L t es) :
    KeptThroughout L t [.call callee args m.store es r h] := fun e he => by
  rcases Happens.singleton_iff.1 he with rfl | he
  · intro a ha
    rcases hm.unstacked _ (.inl rfl) hL.stack_ne_depth with hu | hu <;> nomatch hu.symm.trans ha
  · exact hes e he

theorem ends_bodyUnstacked (hL : L.Sound) (hcall : call.Unstacked L t) {f : Func} {cl : Closure}
    (hf : f.FramedAs L cl.func) (hn : Making L (fun _ => False) m cl.env B n)
    (hbound : ∀ s ∈ stmtsDeclared cl.func.body.stmts, (n.store.local? B s).isSome)
    (hs : n.Unstacked L t) :
    (unstacked L t none Store.globals).EndsFrom m (execStmts c call cl.func.body.stmts B) n
      (unstacked L t none Store.globals).Leaving := by
  have hgrows : (unstacked L t none Store.globals).Grows m n :=
    (Site.Sound.plain hL).grows hn.ordinary.store _
  rcases hf.body with ⟨-, hss⟩ | ⟨o, declared, ss, hapart, hss, hbody⟩
  · have hrun := ends_execStmts (governs_unstacked (c := c) (B := B) hL hcall) hss hs
      (.body hn.has fun _ _ ho => nomatch ho)
    refine Regime.Ends.since
      (hrun.transport (fun k hg => ?_) (fun _ _ => id) (fun _ _ => id) (fun _ _ => id)
      fun flow k _ hk => ?_) hgrows
    · exact Store.Grows.beside (K := ⟨L, none⟩) hg (.plain hL) _
    · cases flow <;> exact hk
  · have hK : Site.Sound ⟨L, some o⟩ := ⟨hL, fun _ ho => Option.some.inj ho ▸ ⟨declared, hapart⟩⟩
    have hJ : (unstacked L t (some o) B).Serves c call := serves_unstacked hK hcall
    obtain ⟨q, ds, ds', tail, rest, -, hds, hrest, heq⟩ :=
      assembled_eq L.vars f o.index declared hss
    have hmem := (mem_stmtsDeclared_assembled L.vars f o.index declared hss).1
    rw [← hbody] at hmem
    have hinside : n.store.Inside ⟨L, some o⟩ B B := .body hn.has fun o' s ho hu => by
      obtain rfl := Option.some.inj ho
      exact hbound s (hmem s (hapart.mem s hu))
    have hentered : Entered ⟨L, some o⟩ (fun _ => False) cl.env B m n :=
      ⟨hn.new, hn.parent?, ⟨n.store, hn.ordinary.store, .refl _ _ _⟩, hinside⟩
    -- The push fails, so nothing behind it runs.
    have hrun : (unstacked L t (some o) B).Ends (execStmts c call cl.func.body.stmts B) n fun _ _ =>
        False := by
      rw [hbody, heq]
      refine (hJ.tick hs c).bind_ends fun _ k hg hk hstore => ?_
      have hi := hJ.inside_mono hinside hg
      have hdeclared (s : SymbolId) (hs : s ∈ declared) : (k.store.local? B s).isSome := by
        rw [hstore]
        exact hbound s (hmem s hs)
      refine (hJ.leadingVars hk hi hds hdeclared f.pos q).bind_ends fun flow l hg' hl hflow => ?_
      subst hflow
      refine (hJ.tick hl c).bind_ends fun _ j hg'' hj _ => ?_
      exact (keeps_pushUnstacked hK hj (hJ.inside_mono (hJ.inside_mono hi hg') hg'')
        f.pos).bind_ends fun _ _ _ _ h => h.elim
    have hunder : (unstacked L t (some o) B).Under (unstacked L t none Store.globals) :=
      ⟨rfl, rfl, fun _ => id, fun _ => id⟩
    exact (hentered.ends hK hunder hrun).mono fun _ _ h => h.2.elim

theorem unstacked_ofEnter (hL : L.Sound) {enter : Closure → List Value → Position → Eval Value}
    (henter : ∀ (m : Machine) (f : Func) (cl : Closure) (args : List Value) (p : Position),
      f.FramedAs L cl.func → m.store.Has cl.env → m.Unstacked L t →
      (∀ v ∈ args, m.store.Clear (fun _ => False) v) →
      let J := unstacked L t none Store.globals
      J.Keeps (enter cl args p) m J.Clear) :
    (Caller.ofEnter c enter).Unstacked L t := by
  intro m callee args p hm hargs
  have hJ : (unstacked L t none Store.globals).Lawful := lawful_unstacked (.plain hL)
  refine keeps_togetherUnstacked (Q := fun v h => h.Clear (fun _ => False) v) hm
    (fun _ r h => keptThroughout_call hm hL callee args r h)
    (hJ.invoke hm.fresh c hargs p (fun n r cl hn hcl hargs => ?_) callee)
  obtain ⟨f, hf⟩ := hn.fits.closure r cl hcl
  exact henter n f cl args p (hL.framed f cl.func hf) (hn.fits.has_env r cl hcl) hn hargs

theorem unstacked_within (hL : L.Sound) : ∀ n, (Caller.within c n).Unstacked L t
  | 0 => unstacked_ofEnter hL fun _ _ _ _ _ _ _ hm _ => .fault hm
  | n + 1 => unstacked_ofEnter hL fun _ _ _ _ p hf henv hm hargs =>
    (lawful_unstacked (.plain hL)).enter hf henv hm hargs p fun _ _ hn hbound hs =>
      ends_bodyUnstacked hL (unstacked_within hL n) hf hn hbound hs

end

end FrameLedger
