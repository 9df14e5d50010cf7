import FrameLedger.Proofs.Statements

/-!
# What inserted code does

The equations of the code that keeps a frame: pushing, popping, resetting the depth, noting a
location, setting a flag. Each says which store it leads to, provided the variables it reads are
bound.
-/

namespace FrameLedger

open Eval

@[simp] theorem Value.toNumber_number (x : Float) : (Value.number x).toNumber = x := rfl

namespace Store

variable {L : Layout} {G : ArrayRef → Prop} {K : Site} {B : FrameId} {h : Store}

/-- The variables of the stack may hold anything. -/
theorem Fits.defineVar (hh : h.Fits L G) {s : SymbolId} (hs : L.vars.Uses s) (v : Value) :
    (h.define globals s v).Fits L G where
  toRooted := hh.toRooted.define globals s v
  elsewhere f t hf ht := by
    rw [local?_define, if_neg (fun he => hf he.1)]
    exact hh.elsewhere f t hf ht
  closure := hh.closure
  has_env r cl hc := by simpa using hh.has_env r cl hc
  named r cl t hc ht := isSome_local?_define _ _ _ _ (hh.named r cl t hc ht)
  binding f t w hw ht := by
    rw [local?_define_of_ne _ _ _ _ (by rintro rfl; exact ht hs)] at hw
    exact hh.binding f t w hw ht
  arrays := hh.arrays
  objects := hh.objects
  guarded_lt := hh.guarded_lt

/-- A variable of the stack is found in the global frame. -/
theorem Fits.owner?_var (hh : h.Fits L G) {s : SymbolId} (hs : L.vars.Uses s)
    (hb : (h.local? globals s).isSome) {env : FrameId} (henv : h.Has env) :
    h.owner? env s = some globals :=
  owner?_eq_globals hh.toRooted (fun f hf => hh.elsewhere f s hf hs) hb env.index env rfl henv

theorem Fits.lookup_var (hh : h.Fits L G) {s : SymbolId} (hs : L.vars.Uses s) {v : Value}
    (hb : h.local? globals s = some v) {env : FrameId} (henv : h.Has env) :
    h.lookup env s = some v := by
  rw [lookup_eq_of_owner? (hh.owner?_var hs (by simp [hb]) henv), hb]

theorem grows_defineVar {s : SymbolId} (hs : K.vars.Uses s) (v : Value)
    (hflags : ∀ own t, K.own = some own → t ∈ own.flags → ¬ K.vars.Uses t) :
    h.Grows K B (h.define globals s v) where
  has g hg := by simpa using hg
  parent? g hg := by simp
  bound g t ht := isSome_local?_define _ _ _ _ ht
  others g t _ _ hm := local?_define_of_ne _ _ _ _ (by rintro rfl; exact hm (.inl hs))
  closure? r cl hc := hc
  arrays_le := Nat.le_refl _
  flag own t ho ht hv := by
    rw [local?_define_of_ne _ _ _ _ (by rintro rfl; exact hflags own t ho ht hs), hv]

theorem grows_defineOwn {own : Own} {s : SymbolId} (ho : K.own = some own) (hs : own.Uses s)
    (v : Value) (hv : s ∈ own.flags → v = .bool true) :
    h.Grows K B (h.define B s v) where
  has g hg := by simpa using hg
  parent? g hg := by simp
  bound g t ht := isSome_local?_define _ _ _ _ ht
  others g t _ _ hm := by
    rw [local?_define, if_neg]
    rintro ⟨rfl, rfl, -⟩
    exact hm (.inr ⟨own, ho, hs, rfl⟩)
  closure? r cl hc := hc
  arrays_le := Nat.le_refl _
  flag own' t ho' ht hw := by
    obtain rfl := Option.some.inj (ho.symm.trans ho')
    rw [local?_define]
    split
    · next he =>
      obtain ⟨-, rfl, -⟩ := he
      rw [hv ht]
    · exact hw

/-- Elements of arrays are nothing that growing is about. -/
theorem grows_modifyArray (r : ArrayRef) (f : Array Value → Array Value) :
    h.Grows K B (h.modifyArray r f) where
  has _ := id
  parent? _ _ := rfl
  bound _ _ := id
  others _ _ _ _ _ := rfl
  closure? _ _ := id
  arrays_le := by simp [Store.modifyArray]
  flag _ _ _ _ := id

/-- What is bound in a frame that was not there changes nothing. -/
theorem Grows.define_new {h' : Store} (a : h.Grows K B h') {f : FrameId} (hf : ¬ h.Has f)
    (s : SymbolId) (v : Value) :
    h.Grows K B (h'.define f s v) where
  has g hg := by simpa using a.has g hg
  parent? g hg := by simpa using a.parent? g hg
  bound g t ht := isSome_local?_define _ _ _ _ (a.bound g t ht)
  others g t hg ht hm := by
    rw [local?_define, if_neg]
    · exact a.others g t hg ht hm
    · rintro ⟨rfl, -⟩
      exact hf hg
  closure? := a.closure?
  arrays_le := a.arrays_le
  flag own t ho ht hv := by
    rw [local?_define, if_neg]
    · exact a.flag own t ho ht hv
    · rintro ⟨rfl, -⟩
      exact hf (has_of_local? hv)

theorem Inside.define {env f : FrameId} {s : SymbolId} (hs : ∀ own, K.own = some own → ¬ own.Uses s)
    (v : Value) (hi : h.Inside K B env) : (h.define f s v).Inside K B env := by
  have hne (own : Own) (t : SymbolId) (ho : K.own = some own) (ht : own.Uses t) : t ≠ s := by
    rintro rfl
    exact hs own ho ht
  induction hi with
  | body hB hbound =>
    refine .body (by simpa using hB) fun own t ho ht => ?_
    rw [local?_define_of_ne _ _ _ _ (hne own t ho ht)]
    exact hbound own t ho ht
  | inner hf hfB hp hnone _ ih =>
    refine .inner (by simpa using hf) hfB (by simpa using hp) (fun own t ho ht => ?_) ih
    rw [local?_define_of_ne _ _ _ _ (hne own t ho ht)]
    exact hnone own t ho ht

end Store

section Equations

variable (c : Setting) (call : Caller) {m : Machine} {env : FrameId} (p : Position)

theorem go_eval_var {s : SymbolId} {v : Value} (hv : m.store.lookup env s = some v) :
    ((Expr.var p s).eval c call env).go m = (.ok v, m) := by
  simp only [Expr.eval, Eval.read, go_bind, go_store, hv, go_pure]

theorem go_bindIn (frame : FrameId) {f : FrameId} {s : SymbolId} (v : Value)
    (ho : m.store.owner? env s = some f) :
    (bindIn env frame s v).go m = (.ok (), m.setStore (m.store.define f s v)) := by
  simp only [bindIn, go_modifyStore, ho]

theorem go_eval_literal (l : Literal) :
    ((Expr.literal p l).eval c call env).go m = (.ok l.value, m) := rfl

/-- An assignment to a variable that is bound. -/
theorem go_assign_var {s : SymbolId} {e : Expr} {v : Value} {n : Machine} {f : FrameId}
    (he : (e.eval c call env).go m = (.ok v, n)) (ho : n.store.owner? env s = some f) :
    ((Expr.assign p (.var p s) e).eval c call env).go m =
      (.ok v, n.setStore (n.store.define f s v)) := by
  simp only [Expr.assign, Expr.eval, Expr.reference, pure_bind, go_bind, he, write,
    go_bindIn Store.globals v ho, go_pure]

theorem go_eval_eager {op : EagerOp} {l r : Expr} {v w : Value} {n k : Machine}
    (hl : (l.eval c call env).go m = (.ok v, n)) (hr : (r.eval c call env).go n = (.ok w, k)) :
    ((Expr.binary p (.eager op) l r).eval c call env).go m = (operate c p op v w).go k := by
  simp only [Expr.eval, go_bind, hl, hr]

/-- An expression that stands as a statement. -/
theorem exec_ofExpr {e : Expr} (label : Option String) (hd : e.isDeclaration = false) :
    (Stmt.ofExpr e).exec c call label env = e.eval c call env >>= fun _ => pure .next := by
  refine Eval.ext fun m => ?_
  simp only [Stmt.ofExpr, Stmt.exec, hd, Bool.false_eq_true, if_false, go_bind, go_discard, go_pure]
  rcases (e.eval c call env).go m with ⟨_ | _, n⟩ <;> rfl

theorem keeps_ofExpr {J : Regime} {e : Expr} {P : Value → Machine → Prop} (label : Option String)
    (hd : e.isDeclaration = false) (he : J.Keeps (e.eval c call env) m P) :
    J.Keeps ((Stmt.ofExpr e).exec c call label env) m fun flow n => flow = .next ∧ ∃ v, P v n := by
  rw [exec_ofExpr c call label hd]
  exact he.bind fun v _ _ hn hv => .pure hn ⟨rfl, v, hv⟩

theorem go_popCode {vars : StackVars} {index : SymbolId} {w : Value} {f : FrameId}
    (hi : m.store.lookup env index = some w) (hd : m.store.owner? env vars.depth = some f) :
    ((popCode vars index p).eval c call env).go m = (.ok (.number (w.toNumber - 1)),
      m.setStore (m.store.define f vars.depth (.number (w.toNumber - 1)))) :=
  go_assign_var c call p
    ((go_eval_eager c call p (go_eval_var c call p hi) (go_eval_literal c call p _)).trans
      (by simp only [operate, arithmetic, Literal.value, Value.toNumber_number, go_pure])) hd

theorem go_resetCode {vars : StackVars} {index : SymbolId} {w : Value} {f : FrameId}
    (label : Option String) (hi : m.store.lookup env index = some w)
    (hd : m.store.owner? env vars.depth = some f) :
    ((resetCode vars index p).exec c call label env).go m =
      (.ok .next, m.setStore (m.store.define f vars.depth w)) := by
  have heval := go_assign_var c call p (go_eval_var c call p hi) hd
  rw [resetCode, exec_ofExpr c call label rfl, go_bind, heval]
  rfl

/-- What a note says is a text, and nothing changes by it. -/
theorem go_note (r : Recorder) (env : FrameId) (m : Machine) : ∃ text,
    ((r.note p).eval c call env).go m = (.ok (.string text), m) := by
  unfold Recorder.note
  dsimp only
  split
  · refine ⟨m.store.text (.string (p.baseName r.separator ++ ":")) ++ m.store.text
      (.string (toString p.line)), ?_⟩
    refine (go_eval_eager c call p (go_eval_literal c call p _) (go_eval_literal c call p _)).trans
      ?_
    simp only [operate, arithmetic, Literal.value, Value.isTextual, Bool.true_or, if_true, go_bind,
      go_text, go_pure]
  · exact ⟨_, go_eval_literal c call p _⟩

/-- A location is written to the element that the index of the frame names. -/
theorem go_noteCode (r : Recorder) {location index : SymbolId} {o w : Value}
    (hl : m.store.lookup env location = some o) (hi : m.store.lookup env index = some w) : ∃ text,
    ((Expr.assign p (.index p (.var p location) (.var p index)) (r.note p)).eval c call env).go m =
      (do
        setProperty c p o (m.store.text w) (.string text)
        return .string text : Eval Value).go m := by
  obtain ⟨text, ht⟩ := go_note c call p r env m
  refine ⟨text, ?_⟩
  have hindex : ((Expr.index p (.var p location) (.var p index)).reference c call env).go m =
      (.ok (.property o (m.store.text w)), m) := by
    simp only [Expr.reference, go_bind, go_eval_var c call p hl, go_eval_var c call p hi, go_text,
      go_pure]
  simp only [Expr.assign, Expr.eval, go_bind, hindex, ht, write]

/-- The depth is raised and kept as the index of the frame, then the name is written to that
element. -/
theorem go_pushCode {vars : StackVars} {index : SymbolId} {name : Option SymbolId} {o d v : Value}
    {f f' : FrameId} {x : Float} {n : Machine} (hstack : m.store.lookup env vars.stack = some o)
    (hdepth : m.store.lookup env vars.depth = some d) (hd : m.store.owner? env vars.depth = some f)
    (hx : d.toNumber + 1 = x)
    (hindex : (m.store.define f vars.depth (.number x)).owner? env index = some f')
    (hn : n = (m.setStore (m.store.define f vars.depth (.number x))).setStore
      ((m.store.define f vars.depth (.number x)).define f' index (.number x)))
    (hname : ((name.elim (Expr.null p) (.var p)).eval c call env).go n = (.ok v, n))
    (label : Option String) :
    ((pushCode vars index name p).exec c call label env).go m =
      (do
        setProperty c p o (displayNumber x) v
        return .next : Eval Flow).go n := by
  have hbump : ((Expr.prefixed p .inc (.var p vars.depth)).eval c call env).go m =
      (.ok (.number x), m.setStore (m.store.define f vars.depth (.number x))) := by
    simp only [Expr.eval, Expr.reference, pure_bind, update, Eval.read, go_bind, go_store, hdepth,
      go_pure, write, hx, go_bindIn _ _ hd]
  have hslot : ((Expr.index p (.var p vars.stack) (.assign p (.var p index)
      (.prefixed p .inc (.var p vars.depth)))).reference c call env).go m =
      (.ok (.property o (displayNumber x)), n) := by
    simp only [Expr.reference, go_bind, go_eval_var c call p hstack,
      go_assign_var c call p hbump hindex, go_text, go_pure, hn]
    rfl
  have heval : ((Expr.assign p (.index p (.var p vars.stack) (.assign p (.var p index)
      (.prefixed p .inc (.var p vars.depth)))) (name.elim (Expr.null p) (.var p))).eval c call
        env).go m =
      (do
        setProperty c p o (displayNumber x) v
        return v : Eval Value).go n := by
    rw [Expr.assign, Expr.eval]
    simp only [go_bind, hslot, hname, write]
  refine (congrArg (Eval.go · m) (exec_ofExpr c call label rfl)).trans ?_
  simp only [go_bind, heval]
  rcases (setProperty c p o (displayNumber x) v).go n with ⟨_ | _, k⟩ <;> rfl

end Equations

end FrameLedger
