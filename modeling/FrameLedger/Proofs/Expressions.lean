import FrameLedger.Proofs.Steps

/-!
# Framed expressions

A framed expression respects every lawful regime that calls and noted locations respect:
`Expr.keeps_eval`, by induction on the expression it was made from.
-/

namespace FrameLedger

open Eval

namespace Regime

/-- A lawful regime that also calls and noted locations respect. -/
structure Serves (J : Regime) (c : Setting) (call : Caller) : Prop extends J.Lawful where
  calls : ∀ m callee args p, J.steady m → J.Clear callee m → (∀ v ∈ args, J.Clear v m) →
    callee.isCallable → J.Keeps (call callee args p) m J.Clear
  notes : ∀ m (own : Own) (r : Recorder) p env, J.site.own = some own →
    J.site.vars.location = some r.location → J.steady m → m.store.Inside J.site J.frame env →
    J.Keeps
      ((Expr.assign p (.index p (.var p r.location) (.var p own.index)) (r.note p)).eval c call env)
      m
      fun _ _ => True

namespace Serves

variable {J : Regime} {c : Setting} {call : Caller} {m n : Machine} {env : FrameId}

theorem inside_mono (hJ : J.Serves c call) (hi : m.store.Inside J.site J.frame env)
    (hg : J.Grows m n) :
    n.store.Inside J.site J.frame env :=
  hi.mono hg fun _ _ ho hu => hJ.sound.own_fresh ho hu

theorem construct (hJ : J.Serves c call) (hm : J.steady m) (p : Position) (e : Expr) {ctor : Value}
    {args : List Value} (hc : J.Clear ctor m) (ha : ∀ v ∈ args, J.Clear v m) :
    J.Keeps (construct c call p e ctor args) m J.Clear := by
  have hraise : J.Keeps
      (do raise c p .typeError ((← ofDangling (e.describe c.table)) ++ " is not a constructor"))
      m J.Clear :=
    (hJ.ofDangling hm _).bind fun _ n _ hn _ => hJ.raise hn c p _ _
  cases ctor with
  | native k =>
    exact (hJ.tick hm c).bind fun _ n _ hn _ => hJ.makeError hn k args
  | function r =>
    refine (hJ.calls m (.function r) args p hm hc ha rfl).bind fun v n hg hn hv => ?_
    have hnew : J.Keeps (onStore (·.newObject ⟨∅, some (.function r)⟩)) n J.Clear := by
      refine hJ.onStore hn (Store.ordinary_newObject _ _ _ _) ((hJ.fits hn).newObject ?_) trivial
      exact ⟨fun _ he => absurd he List.not_mem_nil, fun v hv => by
        obtain rfl := Option.some.inj hv; trivial⟩
    cases v with
    | object q => exact .pure hn hv
    | array q => exact .pure hn hv
    | _ => exact hnew
  | _ => exact hraise

/-- A noted location comes first, then the expression itself. -/
theorem noted (hJ : J.Serves c call) {framed : Expr → Prop} {e' : Expr}
    (he : J.site.Noted framed e')
    (ih : ∀ e m, framed e → J.steady m → m.store.Inside J.site J.frame env →
      J.Keeps (e.eval c call env) m J.Clear)
    (hm : J.steady m) (hi : m.store.Inside J.site J.frame env) :
    J.Keeps (e'.eval c call env) m J.Clear := by
  rcases he with he | ⟨own, r, e, ho, hl, he, -, rfl⟩
  · exact ih e' m he hm hi
  · refine (hJ.notes m own r e.pos env ho hl hm hi).discard.bind fun _ n hg hn _ => ?_
    exact ih e n he hn (hJ.inside_mono hi hg)

end Serves

end Regime

section

variable {J : Regime} {c : Setting} {call : Caller} (hJ : J.Serves c call) {env : FrameId}

include hJ

theorem keeps_memberKey {m : Machine} (hm : J.steady m) (n : MemberName) :
    J.Keeps (memberKey c n) m fun _ _ => True := by
  cases n with
  | symbol s => exact hJ.ofDangling hm _
  | property p => exact .pure hm trivial

mutual

theorem Expr.keeps_eval : ∀ (e e' : Expr) (m : Machine), e.Framed J.site e' → J.steady m →
    m.store.Inside J.site J.frame env → J.Keeps (e'.eval c call env) m J.Clear
  | .var p s, _, m, ⟨hs, rfl⟩, hm, _ => hJ.readVar hm c p env hs
  | .bare p n, _, m, rfl, hm, _ => hJ.raiseUnbound hm c p n
  | .member p q n, _, m, ⟨_, q', hq, rfl⟩, hm, hi => by
    refine (hJ.noted hq q.keeps_eval hm hi).bind fun o k _ hk _ => ?_
    exact (keeps_memberKey hJ hk n).bind fun _ _ _ hl _ => hJ.getProperty hl c p o _
  | .index p a i, _, m, ⟨a', i', ha, hi', rfl⟩, hm, hi => by
    refine (hJ.noted ha a.keeps_eval hm hi).bind fun o k hg hk _ => ?_
    refine (hJ.noted hi' i.keeps_eval hk (hJ.inside_mono hi hg)).bind fun w l _ hl _ => ?_
    exact Regime.Keeps.text_bind (hJ.getProperty hl c p o _)
  | .call p f as, _, m, ⟨f', as', hf, has, rfl⟩, hm, hi => by
    refine (f.keeps_eval f' m hf hm hi).bind fun callee k hg hk hc => ?_
    refine (keeps_evalAll as as' k has hk (hJ.inside_mono hi hg)).bind fun args l hg' hl hargs => ?_
    split
    · next hcall => exact hJ.calls l callee args p hl (hc.mono hg') hargs hcall
    · exact (hJ.ofDangling hl _).bind fun _ n _ hn _ => hJ.raise hn c p _ _
  | .new p f as, _, m, ⟨f', as', hf, has, rfl⟩, hm, hi => by
    refine (hJ.noted hf f.keeps_eval hm hi).bind fun ctor k hg hk hc => ?_
    refine (keeps_evalAll as as' k has hk (hJ.inside_mono hi hg)).bind fun args l hg' hl hargs => ?_
    exact hJ.construct hl p f' (hc.mono hg') hargs
  | .prefixed p op x, _, m, ⟨htarget, x', hx, rfl⟩, hm, hi => by
    have href (ht : J.site.Target x) (hx : x.Framed J.site x') := x.keeps_reference x' m hx ht hm hi
    have hval (h : op.usage = .value) : J.Keeps (x'.eval c call env) m J.Clear := by
      rw [if_pos h] at hx
      exact hJ.noted hx x.keeps_eval hm hi
    cases op with
    | inc =>
      exact (href (htarget (.inl rfl)) hx).bind fun r k _ hk hr =>
        (hJ.update hk c p _ env hr 1).map fun _ _ _ _ => trivial
    | dec =>
      exact (href (htarget (.inr rfl)) hx).bind fun r k _ hk hr =>
        (hJ.update hk c p _ env hr (-1)).map fun _ _ _ _ => trivial
    | typeof =>
      simp only [Expr.eval]
      split
      · exact Regime.Keeps.store_bind (.pure hm trivial)
      · exact (x.keeps_eval x' m hx hm hi).map fun _ _ _ _ => trivial
    | delete =>
      simp only [Expr.eval]
      have hdel (hne : ∀ q s, x' ≠ .var q s) (hx : x.Framed J.site x') : J.Keeps (do
          match ← x'.reference c call env with
          | .property o k => deleteProperty o k
          | .binding _ => pure ()
          return .bool true) m J.Clear := by
        refine (href (fun s hs => ?_) hx).bind fun r k _ hk hr => ?_
        · cases x with
          | var q t => exact absurd hx.2 (hne q t)
          | _ => nomatch hs
        cases r with
        | binding s => exact .pure hk trivial
        | property o key =>
          exact (hJ.deleteProperty hk hr key).bind fun _ _ _ hl _ => .pure hl trivial
      split
      · exact .pure hm trivial
      · exact .pure hm trivial
      · exact hdel (by simp) hx
      · exact hdel (by simp) hx
      · exact (x.keeps_eval x' m hx hm hi).discard.bind fun _ _ _ hk _ => .pure hk trivial
    | neg => exact (hval rfl).map fun _ _ _ _ => trivial
    | plus => exact (hval rfl).map fun _ _ _ _ => trivial
    | not => exact (hval rfl).map fun _ _ _ _ => trivial
    | void => exact (hval rfl).discard.bind fun _ _ _ hk _ => .pure hk trivial
  | .postfixed p op x, _, m, ⟨htarget, x', hx, rfl⟩, hm, hi => by
    refine (x.keeps_reference x' m hx htarget hm hi).bind fun r k _ hk hr => ?_
    cases op with
    | inc => exact (hJ.update hk c p _ env hr 1).map fun _ _ _ _ => trivial
    | dec => exact (hJ.update hk c p _ env hr (-1)).map fun _ _ _ _ => trivial
  | .binary p op l r, _, m, ⟨htarget, l', r', hl, hr, rfl⟩, hm, hi => by
    have hleft (h : op.isAssignment = false) : J.Keeps (l'.eval c call env) m J.Clear := by
      rw [if_neg (by simp [h])] at hl
      exact hJ.noted hl l.keeps_eval hm hi
    have hright (k : Machine) (hg : J.Grows m k) (hk : J.steady k) : J.Keeps (r'.eval c call env) k
        J.Clear :=
      hJ.noted hr r.keeps_eval hk (hJ.inside_mono hi hg)
    cases op with
    | assign =>
      refine (l.keeps_reference l' m hl (htarget rfl) hm hi).bind fun ref k hg hk href => ?_
      refine (hright k hg hk).bind fun v n hg' hn hv => ?_
      exact (hJ.write hn c p env (href.mono hg') hv).bind fun _ _ hg'' ho _ =>
        .pure ho (hv.mono hg'')
    | assignWith op =>
      refine (l.keeps_reference l' m hl (htarget rfl) hm hi).bind fun ref k hg hk href => ?_
      refine (hJ.read hk c _ env href).bind fun old n hg' hn _ => ?_
      refine (hright n (hg.trans hg') hn).bind fun w o hg'' ho _ => ?_
      refine (Regime.Keeps.arithmetic ho op old w).bind fun v q hg3 hq hv => ?_
      exact (hJ.write hq c p env ((href.mono hg').mono (hg''.trans hg3)) hv).bind
        fun _ _ hg4 hs _ => .pure hs (hv.mono hg4)
    | comma =>
      exact (hleft rfl).discard.bind fun _ k hg hk _ => hright k hg hk
    | or =>
      refine (hleft rfl).bind fun v k hg hk hv => ?_
      split
      · exact .pure hk hv
      · exact hright k hg hk
    | and =>
      refine (hleft rfl).bind fun v k hg hk hv => ?_
      split
      · exact hright k hg hk
      · exact .pure hk hv
    | eager op =>
      refine (hleft rfl).bind fun v k hg hk _ => ?_
      exact (hright k hg hk).bind fun w n _ hn _ => hJ.operate hn c p op v w
  | .cond p t a b, _, m, ⟨t', a', b', ht, ha, hb, rfl⟩, hm, hi => by
    refine (hJ.noted ht t.keeps_eval hm hi).bind fun v k hg hk _ => ?_
    split
    · exact hJ.noted ha a.keeps_eval hk (hJ.inside_mono hi hg)
    · exact hJ.noted hb b.keeps_eval hk (hJ.inside_mono hi hg)
  | .literal p l, _, m, rfl, hm, _ => .pure hm (by cases l <;> trivial)
  | .array p es, _, m, ⟨es', hes, rfl⟩, hm, hi => by
    refine (keeps_evalAll es es' m hes hm hi).bind fun vs k _ hk hvs => ?_
    exact hJ.onStore hk (Store.ordinary_newArray (hJ.fits hk) _)
      ((hJ.fits hk).newArray fun v hv => hvs v (by simpa using hv)) ((hJ.fits hk).clear_newArray _)
  | .object p ps, _, m, ⟨ps', hps, rfl⟩, hm, hi => by
    refine (keeps_evalProperties ps ps' m hps hm hi).bind fun es k _ hk hes => ?_
    refine hJ.onStore hk (Store.ordinary_newObject _ _ _ _) ((hJ.fits hk).newObject ?_) trivial
    exact ⟨fun e he => hes e (SortedMap.mem_ofList he), fun _ hv => nomatch hv⟩
  | .func p f, _, m, ⟨hw, f', hf, rfl⟩, hm, hi => hJ.func hm hf hw hi.has

theorem Expr.keeps_reference : ∀ (e e' : Expr) (m : Machine), e.Framed J.site e' → J.site.Target e →
    J.steady m → m.store.Inside J.site J.frame env → J.Keeps (e'.reference c call env) m J.ClearRef
  | .var p s, _, m, ⟨_, rfl⟩, ht, hm, _ => .pure hm (ht s rfl)
  | .bare p n, _, m, rfl, _, hm, _ => hJ.raiseUnbound hm c p n
  | .member p q n, _, m, ⟨_, q', hq, rfl⟩, _, hm, hi => by
    refine (hJ.noted hq q.keeps_eval hm hi).bind fun o k _ hk ho => ?_
    exact (keeps_memberKey hJ hk n).map fun _ _ hg _ => ho.mono hg
  | .index p a i, _, m, ⟨a', i', ha, hi', rfl⟩, _, hm, hi => by
    refine (hJ.noted ha a.keeps_eval hm hi).bind fun o k hg hk ho => ?_
    refine (hJ.noted hi' i.keeps_eval hk (hJ.inside_mono hi hg)).bind fun w l hg' hl _ => ?_
    exact Regime.Keeps.text_bind (.pure hl (ho.mono hg'))
  | .call p f as, _, m, ⟨f', as', _, _, rfl⟩, _, hm, _ => hJ.raise hm c _ _ _
  | .new p f as, _, m, ⟨f', as', _, _, rfl⟩, _, hm, _ => hJ.raise hm c _ _ _
  | .prefixed p op x, _, m, ⟨_, x', _, rfl⟩, _, hm, _ => hJ.raise hm c _ _ _
  | .postfixed p op x, _, m, ⟨_, x', _, rfl⟩, _, hm, _ => hJ.raise hm c _ _ _
  | .binary p op l r, _, m, ⟨_, l', r', _, _, rfl⟩, _, hm, _ => hJ.raise hm c _ _ _
  | .cond p t a b, _, m, ⟨t', a', b', _, _, _, rfl⟩, _, hm, _ => hJ.raise hm c _ _ _
  | .literal p l, _, m, rfl, _, hm, _ => hJ.raise hm c _ _ _
  | .array p es, _, m, ⟨es', _, rfl⟩, _, hm, _ => hJ.raise hm c _ _ _
  | .object p ps, _, m, ⟨ps', _, rfl⟩, _, hm, _ => hJ.raise hm c _ _ _
  | .func p f, _, m, ⟨_, f', _, rfl⟩, _, hm, _ => hJ.raise hm c _ _ _

theorem keeps_evalAll : ∀ (es es' : List Expr) (m : Machine), exprsFramed J.site es es' →
    J.steady m → m.store.Inside J.site J.frame env →
    J.Keeps (evalAll c call es' env) m fun vs n => ∀ v ∈ vs, J.Clear v n
  | [], _, m, rfl, hm, _ => .pure hm (by simp)
  | e :: es, _, m, ⟨e', rest, he, hes, rfl⟩, hm, hi => by
    refine (hJ.noted he e.keeps_eval hm hi).bind fun v k hg hk hv => ?_
    refine (keeps_evalAll es rest k hes hk (hJ.inside_mono hi hg)).bind fun vs l hg' hl hvs =>
      .pure hl ?_
    exact List.forall_mem_cons.2 ⟨hv.mono hg', hvs⟩

theorem keeps_evalProperties :
    ∀ (ps ps' : List Property) (m : Machine), propertiesFramed J.site ps ps' →
    J.steady m → m.store.Inside J.site J.frame env →
    J.Keeps (evalProperties c call ps' env) m fun es n => ∀ e ∈ es, J.Clear e.2 n
  | [], _, m, rfl, hm, _ => .pure hm (by simp)
  | ⟨k, e⟩ :: ps, _, m, ⟨e', rest, he, hps, rfl⟩, hm, hi => by
    refine (hJ.noted he e.keeps_eval hm hi).bind fun v n hg hn hv => ?_
    refine (keeps_evalProperties ps rest n hps hn (hJ.inside_mono hi hg)).bind
      fun vs l hg' hl hvs => .pure hl ?_
    exact List.forall_mem_cons.2 ⟨hv.mono hg', hvs⟩

end

end

end FrameLedger
