import FrameLedger.Proofs.Budget

/-!
# Descent

Why evaluation needs no bound but the step limit: whenever a task asks for another, a step has been
spent since it began, or the other is about less syntax (`Task.descends`). A loop asks for its next
turns and a call for the body of the function only after a step, so the syntax need not get smaller
there.
-/

namespace FrameLedger

open Eval

/-- The syntax that a task is about. The keys that a loop has yet to visit and the arguments of a
call do not count. -/
noncomputable def Task.size : {α : Type} → Task α → Nat
  | _, .eval e _ => sizeOf e
  | _, .refer e _ => sizeOf e
  | _, .evalAll es _ => sizeOf es
  | _, .evalProperties ps _ => sizeOf ps
  | _, .declare ds _ => sizeOf ds
  | _, .select cs _ _ => sizeOf cs
  | _, .exec s _ _ => sizeOf s
  | _, .execAll ss _ => sizeOf ss
  | _, .turns t incr b _ _ => sizeOf t + sizeOf incr + sizeOf b
  | _, .visit _ b _ _ _ => sizeOf b
  | _, .execCases cs _ _ => sizeOf cs
  | _, .call .. => 0

/-- Every task that code asks for from this machine is smaller than `size`, or is asked for when
more than `start` steps are spent. In the end, `post` holds. -/
def Code.Descends {α : Type} (start size : Nat) (post : Except Abrupt α → Machine → Prop) :
    Code α → Machine → Prop
  | .ret r, m => post r m
  | .perform _ x next, m => (next (x.go m).1).Descends start size post (x.go m).2
  | .ask t next, m => (start < m.steps ∨ t.size < size) ∧
    ∀ r n, m.steps ≤ n.steps → (next r).Descends start size post n

namespace Code.Descends

variable {α β : Type} {c : Setting} {env : FrameId} {start size s : Nat} {m : Machine} {x : Code α}
  {y : Eval α}

/-- So many steps are spent. -/
abbrev Past (s : Nat) (_ : Except Abrupt α) (n : Machine) : Prop := s ≤ n.steps

theorem bind {f : α → Code β} {P : Except Abrupt α → Machine → Prop}
    {Q : Except Abrupt β → Machine → Prop} (hx : x.Descends start size P m)
    (hok : ∀ a n, P (.ok a) n → (f a).Descends start size Q n)
    (herror : ∀ e n, P (.error e) n → Q (.error e) n) : (x >>= f).Descends start size Q m := by
  induction x generalizing m with
  | ret r =>
    cases r with
    | ok a => exact hok a m hx
    | error e => exact herror e m hx
  | perform shown y next ih => exact ih _ hx
  | ask t next ih => exact ⟨hx.1, fun r n hn => ih r (hx.2 r n hn)⟩

theorem mono {P Q : Except Abrupt α → Machine → Prop} (hx : x.Descends start size P m)
    (h : ∀ r n, P r n → Q r n) :
    x.Descends start size Q m := by
  induction x generalizing m with
  | ret r => exact h r m hx
  | perform shown y next ih => exact ih _ hx
  | ask t next ih => exact ⟨hx.1, fun r n hn => ih r (hx.2 r n hn)⟩

theorem attempt {P : Except Abrupt α → Machine → Prop} (hx : x.Descends start size P m) :
    x.attempt.Descends start size (fun r n => ∃ r', r = .ok r' ∧ P r' n) m := by
  induction x generalizing m with
  | ret r => exact ⟨r, rfl, hx⟩
  | perform shown y next ih => exact ih _ hx
  | ask t next ih => exact ⟨hx.1, fun r n hn => ih r (hx.2 r n hn)⟩

theorem andThen {f : α → Code β} {s' : Nat} (hx : x.Descends start size (Past s) m) (hs : s' ≤ s)
    (hf : ∀ a n, s ≤ n.steps → (f a).Descends start size (Past s') n) :
    (x >>= f).Descends start size (Past s') m :=
  hx.bind hf fun _ _ h => hs.trans h

theorem attempt_andThen {f : Except Abrupt α → Code β} (hx : x.Descends start size (Past s) m)
    (hf : ∀ r n, s ≤ n.steps → (f r).Descends start size (Past s) n) :
    (x.attempt >>= f).Descends start size (Past s) m := by
  refine hx.attempt.bind (fun r n hn => ?_) fun _ _ h => ?_
  · obtain ⟨r', -, hn⟩ := hn
    exact hf r n hn
  · obtain ⟨r', hr, -⟩ := h
    cases hr

theorem pure (a : α) (hm : s ≤ m.steps) : (pure a : Code α).Descends start size (Past s) m := hm

theorem act (env : FrameId) (hy : y.Orderly c env) (hm : s ≤ m.steps) (vs : List Value) :
    (Code.act c vs y).Descends start size (Past s) m := hm.trans (hy.leads m).steps_le

theorem tick (hm : s ≤ m.steps) :
    (Code.act c [] (tick c)).Descends start size (Past (s + 1)) m := by
  show s + 1 ≤ ((Eval.tick c).go m).2.steps
  rw [go_tick]
  split <;> exact Nat.succ_le_succ hm

theorem request {t : Task α} (ht : start < m.steps ∨ t.size < size) (hm : s ≤ m.steps) :
    (request t).Descends start size (Past s) m := ⟨ht, fun _ _ hn => hm.trans hn⟩

/-- After a turn of a loop that goes on, a step more is spent. -/
structure Turned (s : Nat) (r : Except Abrupt (Option Flow)) (n : Machine) : Prop where
  le_steps : s ≤ n.steps
  lt_steps : r = .ok none → s < n.steps

theorem Turned.error {e : Abrupt} {n : Machine} (hn : s ≤ n.steps) : Turned s (.error e) n :=
  ⟨hn, by rintro ⟨⟩⟩

theorem Turned.some {flow : Flow} {n : Machine} (hn : s ≤ n.steps) : Turned s (.ok (some flow)) n :=
  ⟨hn, by rintro ⟨⟩⟩

theorem again {t : Task Flow} {turn : Code (Option Flow)}
    (hx : turn.Descends start size (Turned start) m) :
    (Code.again t turn).Descends start size (Past start) m := by
  refine hx.bind (fun o n hn => ?_) fun _ _ h => h.le_steps
  cases o with
  | none => exact .request (.inl (hn.lt_steps rfl)) hn.le_steps
  | some flow => exact hn.le_steps

/-- A turn that spends a step. -/
theorem spent {turn : Code (Option Flow)} (hx : turn.Descends start size (Past (start + 1)) m) :
    turn.Descends start size (Turned start) m :=
  hx.mono fun _ _ h => ⟨Nat.le_of_succ_le h, fun _ => h⟩

theorem together {e : Store → List Event → Except Abrupt α → Store → Event}
    (hx : ∀ n, s ≤ n.steps → x.Descends start size (Past s) n) (hm : s ≤ m.steps) :
    (Code.together c e x).Descends start size (Past s) m :=
  (hx { m with trace := .of [] } hm).attempt_andThen fun _ _ hn => hn

/-! ## What tasks ask for -/

theorem update (p q : Position) (r : Reference) (amount : Float) (hm : s ≤ m.steps) :
    (Code.update c p q env r amount).Descends start size (Past s) m :=
  (act env (.read ..) hm _).andThen le_rfl fun _ _ hn => (act env (.write ..) hn _).andThen le_rfl
    fun _ _ hn => .pure _ hn

theorem construct (p : Position) (e : Expr) (ctor : Value) (args : List Value) (hm : s ≤ m.steps)
    (hsize : 0 < size) :
    (Code.construct c p e ctor args).Descends start size (Past s) m := by
  cases ctor with
  | native k =>
    exact (tick hm).andThen (Nat.le_succ s) fun _ _ hn =>
      act Store.globals (.makeError ..) (by omega) _
  | function r =>
    refine (request (.inr hsize) hm).andThen le_rfl fun v n hn => ?_
    cases v with
    | object q => exact .pure _ hn
    | array q => exact .pure _ hn
    | _ => exact act Store.globals (.onStore fun h => h.follows_newObject ..) hn _
  | _ =>
    exact (act Store.globals (.ofDangling _) hm _).andThen le_rfl fun _ _ hn =>
      act Store.globals (.raise ..) hn _

theorem expr (e : Expr) (env : FrameId) (m : Machine) :
    (e.code c env).Descends m.steps (sizeOf e) (Past m.steps) m := by
  have hm := Nat.le_refl m.steps
  cases e with
  | var p s => exact act env (.read ..) hm _
  | bare p name => exact act env (.raiseUnbound ..) hm _
  | member p q n =>
    exact (request (.inr (by simp +arith [Task.size])) hm).andThen le_rfl fun _ _ hn =>
      (act env (.memberKey n) hn _).andThen le_rfl fun _ _ hn => act env (.getProperty ..) hn _
  | index p a i =>
    exact (request (.inr (by simp +arith [Task.size])) hm).andThen le_rfl fun _ _ hn =>
      (request (.inr (by simp +arith [Task.size])) hn).andThen le_rfl fun _ _ hn =>
      (act env (.text _) hn _).andThen le_rfl fun _ _ hn => act env (.getProperty ..) hn _
  | call p f as =>
    refine (request (.inr (by simp +arith [Task.size])) hm).andThen le_rfl fun callee _ hn => ?_
    refine (request (.inr (by simp +arith [Task.size])) hn).andThen le_rfl fun args _ hn => ?_
    split
    · exact request (.inr (by simp +arith [Task.size])) hn
    · exact (act env (.ofDangling _) hn _).andThen le_rfl fun _ _ hn => act env (.raise ..) hn _
  | new p f as =>
    exact (request (.inr (by simp +arith [Task.size])) hm).andThen le_rfl fun _ _ hn =>
      (request (.inr (by simp +arith [Task.size])) hn).andThen le_rfl fun _ _ hn =>
        construct p f _ _ hn (by simp)
  | prefixed p op x =>
    have hx : (Code.request (.eval x env)).Descends m.steps (sizeOf (Expr.prefixed p op x))
        (Past m.steps) m :=
      request (.inr (by simp +arith [Task.size])) hm
    have href : (Code.request (.refer x env)).Descends m.steps (sizeOf (Expr.prefixed p op x))
        (Past m.steps) m :=
      request (.inr (by simp +arith [Task.size])) hm
    cases op with
    | inc | dec =>
      exact href.andThen le_rfl fun r _ hn =>
        (update _ _ r _ hn).andThen le_rfl fun _ _ hn => .pure _ hn
    | typeof =>
      simp only [Expr.code]
      cases x.symbol? with
      | some s => exact (act env .store hm _).andThen le_rfl fun _ _ hn => .pure _ hn
      | none => exact hx.andThen le_rfl fun _ _ hn => .pure _ hn
    | delete =>
      cases x with
      | var | bare => exact .pure _ hm
      | member | index =>
        refine href.andThen le_rfl fun r n hn => ?_
        cases r with
        | binding s => exact .pure _ hn
        | property o k =>
          exact (act env (.deleteProperty o k) hn _).andThen le_rfl fun _ _ hn => .pure _ hn
      | _ => exact hx.andThen le_rfl fun _ _ hn => .pure _ hn
    | neg | plus | not | void => exact hx.andThen le_rfl fun _ _ hn => .pure _ hn
  | postfixed p op x =>
    refine (request (.inr (by simp +arith [Task.size])) hm).andThen le_rfl fun r n hn => ?_
    cases op <;> exact (update _ _ r _ hn).andThen le_rfl fun _ _ hn => .pure _ hn
  | binary p op l r =>
    have hl : (Code.request (.eval l env)).Descends m.steps (sizeOf (Expr.binary p op l r))
        (Past m.steps) m :=
      request (.inr (by simp +arith [Task.size])) hm
    have hr (n : Machine) (hn : m.steps ≤ n.steps) :
        (Code.request (.eval r env)).Descends m.steps (sizeOf (Expr.binary p op l r)) (Past m.steps)
          n :=
      request (.inr (by simp +arith [Task.size])) hn
    have href : (Code.request (.refer l env)).Descends m.steps (sizeOf (Expr.binary p op l r))
        (Past m.steps) m :=
      request (.inr (by simp +arith [Task.size])) hm
    cases op with
    | assign =>
      exact href.andThen le_rfl fun _ n hn => (hr n hn).andThen le_rfl fun _ _ hn =>
        (act env (.write ..) hn _).andThen le_rfl fun _ _ hn => .pure _ hn
    | assignWith op =>
      exact href.andThen le_rfl fun _ n hn => (act env (.read ..) hn _).andThen le_rfl fun _ n hn =>
        (hr n hn).andThen le_rfl fun _ _ hn => (act env (.arithmetic ..) hn _).andThen le_rfl
          fun _ _ hn =>
        (act env (.write ..) hn _).andThen le_rfl fun _ _ hn => .pure _ hn
    | comma => exact hl.andThen le_rfl fun _ n hn => hr n hn
    | or =>
      refine hl.andThen le_rfl fun v n hn => ?_
      split
      · exact .pure _ hn
      · exact hr n hn
    | and =>
      refine hl.andThen le_rfl fun v n hn => ?_
      split
      · exact hr n hn
      · exact .pure _ hn
    | eager op =>
      exact hl.andThen le_rfl fun _ n hn => (hr n hn).andThen le_rfl fun _ _ hn =>
        act env (.operate ..) hn _
  | cond _ t yes no =>
    refine (request (.inr (by simp +arith [Task.size])) hm).andThen le_rfl fun v n hn => ?_
    split <;> exact request (.inr (by simp +arith [Task.size])) hn
  | literal _ l => exact .pure _ hm
  | array _ es =>
    exact (request (.inr (by simp +arith [Task.size])) hm).andThen le_rfl fun _ _ hn =>
      act env (.onStore fun h => h.follows_newArray ..) hn _
  | object _ ps =>
    exact (request (.inr (by simp +arith [Task.size])) hm).andThen le_rfl fun _ _ hn =>
      act env (.onStore fun h => h.follows_newObject ..) hn _
  | func _ f =>
    refine (act env (.closure f) hm _).andThen le_rfl fun v n hn => ?_
    cases f.name with
    | some s =>
      exact (act env (.modifyStore fun h => h.follows_define ..) hn _).andThen le_rfl
        fun _ _ hn => .pure _ hn
    | none => exact .pure _ hn

theorem reference (e : Expr) (env : FrameId) (m : Machine) :
    (e.referenceCode c env).Descends m.steps (sizeOf e) (Past m.steps) m := by
  have hm := Nat.le_refl m.steps
  cases e with
  | var _ s => exact .pure _ hm
  | member _ q n =>
    exact (request (.inr (by simp +arith [Task.size])) hm).andThen le_rfl fun _ _ hn =>
      (act env (.memberKey n) hn _).andThen le_rfl fun _ _ hn => .pure _ hn
  | index _ a i =>
    exact (request (.inr (by simp +arith [Task.size])) hm).andThen le_rfl fun _ _ hn =>
      (request (.inr (by simp +arith [Task.size])) hn).andThen le_rfl fun _ _ hn =>
      (act env (.text _) hn _).andThen le_rfl fun _ _ hn => .pure _ hn
  | bare p name => exact act env (.raiseUnbound ..) hm _
  | _ => exact act env (.raise ..) hm _

/-! ### Statements -/

theorem optional {e : Option Expr} (he : sizeOf e ≤ size) (hm : s ≤ m.steps) :
    (Code.optional e env).Descends start size (Past s) m := by
  cases e with
  | none => exact .pure _ hm
  | some e =>
    refine request (.inr ?_) hm
    simp only [Option.some.sizeOf_spec] at he
    exact Nat.lt_of_lt_of_le (by simp +arith [Task.size]) he

theorem holds {t : Option Expr} (ht : sizeOf t ≤ size) (hm : s ≤ m.steps) :
    (Code.holds t env).Descends start size (Past s) m := by
  cases t with
  | none => exact .pure _ hm
  | some e =>
    refine (request (.inr ?_) hm).andThen le_rfl fun _ _ hn => .pure _ hn
    simp only [Option.some.sizeOf_spec] at ht
    exact Nat.lt_of_lt_of_le (by simp +arith [Task.size]) ht

theorem starting {init : Option ForInit} (hi : sizeOf init ≤ size) (hm : s ≤ m.steps) :
    (Code.start init env).Descends start size (Past s) m := by
  match init with
  | none => exact .pure _ hm
  | some (.vars ds) =>
    simp only [Option.some.sizeOf_spec, ForInit.vars.sizeOf_spec] at hi
    exact request (.inr (by simp only [Task.size]; omega)) hm
  | some (.expr e) =>
    simp only [Option.some.sizeOf_spec, ForInit.expr.sizeOf_spec] at hi
    exact (request (.inr (by simp only [Task.size]; omega)) hm).andThen le_rfl fun _ _ hn =>
      .pure _ hn

theorem handle {cs : List Catch} (hcs : sizeOf cs ≤ size) (r : Except Abrupt Flow)
    (hm : s ≤ m.steps) :
    (Code.handle c cs r env).Descends start size (Past s) m := by
  match cs, r with
  | [], r => exact .pure _ hm
  | ⟨_, _, ⟨_, _⟩, _⟩ :: _, .ok _ => exact .pure _ hm
  | ⟨_, _, ⟨_, _⟩, _⟩ :: _, .error (.fault _) => exact .pure _ hm
  | ⟨param, _, ⟨ss, _⟩, _⟩ :: _, .error (.thrown v _) =>
    simp only [List.cons.sizeOf_spec, Catch.mk.sizeOf_spec, Block.mk.sizeOf_spec] at hcs
    have hbody : (do
        let inner ← Code.act c [] (onStore (·.newFrame env))
        Code.act c [] (modifyStore (·.define inner param v))
        Code.request (.execAll ss inner)).Descends start size (Past s) m :=
      (act env (.onStore fun h => h.follows_newFrame env) hm _).andThen le_rfl fun inner _ hn =>
        (act env (.modifyStore fun h => h.follows_define ..) hn _).andThen le_rfl fun _ _ hn =>
          request (.inr (by simp only [Task.size]; omega)) hn
    exact hbody.attempt.mono fun _ _ ⟨_, _, h⟩ => h

theorem finish {cleanup : Option Block} (hc : sizeOf cleanup ≤ size) (r : Except Abrupt Flow)
    (hm : s ≤ m.steps) :
    (Code.finish cleanup r env).Descends start size (Past s) m := by
  match cleanup, r with
  | none, r => exact hm
  | some _, .error (.fault f) => exact hm
  | some ⟨ss, _⟩, .error (.thrown ..) | some ⟨ss, _⟩, .ok _ =>
    simp only [Option.some.sizeOf_spec, Block.mk.sizeOf_spec] at hc
    refine (request (.inr (by simp only [Task.size]; omega)) hm).andThen le_rfl fun flow n hn => ?_
    cases flow <;> exact hn

theorem stmt (a : Stmt) (label : Option String) (env : FrameId) (m : Machine) :
    (a.code c label env).Descends m.steps (sizeOf a) (Past m.steps) m := by
  have hm := Nat.le_refl m.steps
  cases a with
  | expr _ e =>
    simp only [Stmt.code]
    split
    · exact .pure _ hm
    · exact (request (.inr (by simp +arith [Task.size])) hm).andThen le_rfl fun _ _ hn => .pure _ hn
  | vars _ ds =>
    exact (request (.inr (by simp +arith [Task.size])) hm).andThen le_rfl fun _ _ hn => .pure _ hn
  | ret _ e =>
    exact (together (fun n hn => optional (by simp +arith) hn) hm).andThen le_rfl fun _ _ hn =>
      .pure _ hn
  | raise p e =>
    exact (request (.inr (by simp +arith [Task.size])) hm).andThen le_rfl fun _ _ hn =>
      act env (Orderly.recordThrow.bind fun _ => .throw _) hn _
  | branch _ t yes no =>
    refine (request (.inr (by simp +arith [Task.size])) hm).andThen le_rfl fun v n hn => ?_
    split
    · exact (tick hn).andThen (Nat.le_succ _) fun _ _ hn => request (.inl hn) (by omega)
    · cases no with
      | none => exact .pure _ hn
      | some s => exact (tick hn).andThen (Nat.le_succ _) fun _ _ hn => request (.inl hn) (by omega)
  | whileLoop p t b =>
    refine again ((request (.inr (by simp +arith [Task.size])) hm).bind (fun v n hn => ?_)
      fun _ _ h => .error h)
    split
    · exact ((tick hn).andThen le_rfl fun _ _ hn => (request (.inl hn) hn).andThen le_rfl
        fun _ _ hn => .pure _ hn).spent
    · exact .some hn
  | doWhile p b t =>
    refine again ((tick hm).andThen le_rfl fun _ _ hn =>
      (request (.inl hn) hn).andThen le_rfl fun flow _ hn => ?_).spent
    split
    · exact .pure _ hn
    · refine (request (.inl hn) hn).andThen le_rfl fun v _ hn => ?_
      split <;> exact .pure _ hn
  | forLoop _ init t incr b =>
    exact (starting (by simp +arith) hm).andThen le_rfl fun _ _ hn =>
      request (.inr (by simp +arith [Task.size])) hn
  | forIn _ k _ o b =>
    exact (request (.inr (by simp +arith [Task.size])) hm).andThen le_rfl fun v _ hn =>
      (act env (.keys v) hn _).andThen le_rfl fun _ _ hn =>
        request (.inr (by simp +arith [Task.size])) hn
  | block _ b =>
    obtain ⟨ss, q⟩ := b
    exact request (.inr (by simp +arith [Task.size])) hm
  | tryBlock _ b cs cleanup =>
    obtain ⟨ss, q⟩ := b
    refine (request (.inr (by simp +arith [Task.size])) hm).attempt_andThen fun r n hn => ?_
    exact (handle (by simp +arith) r hn).andThen le_rfl fun r _ hn => finish (by simp +arith) r hn
  | labeled p l b =>
    have hbody (n : Machine) (hn : m.steps ≤ n.steps) : (do
        return (← Code.request (.exec b (some l) env)).behind l).Descends m.steps
          (sizeOf (Stmt.labeled p l b)) (Past m.steps) n :=
      (request (.inr (by simp +arith [Task.size])) hn).andThen le_rfl fun flow _ hn => .pure _ hn
    simp only [Stmt.code]
    cases b.isLoop with
    | true => exact hbody m hm
    | false => exact (tick hm).andThen (Nat.le_succ _) fun _ n hn => hbody n (by omega)
  | breakTo _ l => exact .pure _ hm
  | continueTo _ l => exact .pure _ hm
  | switch _ d cs =>
    refine (request (.inr (by simp +arith [Task.size])) hm).andThen le_rfl fun v _ hn => ?_
    refine (request (.inr (by simp +arith [Task.size])) hn).andThen le_rfl fun i _ hn => ?_
    split
    · exact request (.inr (by simp +arith [Task.size])) hn
    · exact .pure _ hn
  | empty _ => exact .pure _ hm

/-! ### Calls -/

theorem nested (hx : ∀ n, s ≤ n.steps → x.Descends start size (Past s) n) (hm : s ≤ m.steps) :
    (Code.nested c x).Descends start size (Past s) m :=
  (hx { m with callDepth := m.callDepth + 1 } hm).attempt_andThen fun _ _ hn => hn

theorem enter (f : Closure) (args : List Value) (pos : Position) (hs : start < s)
    (hm : s ≤ m.steps) :
    (Code.enter c f args pos).Descends start size (Past s) m := by
  refine (act Store.globals .get hm _).andThen le_rfl fun m' n hn => ?_
  split
  · exact hn
  · have hprepare : (Code.act c [] (prepare f args)).Descends start size (Past s) n :=
      hn.trans (steps_le_prepare f args n)
    refine hprepare.andThen le_rfl fun env n hn => ?_
    refine (nested (fun n hn => request (.inl (hs.trans_le hn)) hn) hn).andThen le_rfl
      fun flow n hn => ?_
    cases flow <;> exact hn

theorem invoke (callee : Value) (args : List Value) (pos : Position) (hm : start ≤ m.steps) :
    (Code.invoke c callee args pos).Descends start size (Past start) m := by
  refine (tick hm).andThen (Nat.le_succ _) fun _ n hn => ?_
  have hn' : start ≤ n.steps := by omega
  cases callee with
  | native k => exact act Store.globals (.makeError ..) hn' _
  | function r =>
    refine (act Store.globals .store hn _).andThen (Nat.le_succ _) fun h n hn => ?_
    split
    · exact (enter _ args pos (Nat.lt_succ_self _) hn).mono fun _ _ h => by omega
    · exact act Store.globals (.raise ..) (by omega) _
  | _ =>
    exact (act Store.globals (.text _) hn' _).andThen le_rfl fun _ _ hn =>
      act Store.globals (.raise ..) hn _

end Code.Descends

open Code.Descends in
/-- A task asks for others only about less syntax, or after a step. -/
theorem Task.descends {α : Type} (c : Setting) (t : Task α) (m : Machine) :
    (t.code c).Descends m.steps t.size (Past m.steps) m := by
  have hm := Nat.le_refl m.steps
  cases t with
  | eval e env => exact expr e env m
  | refer e env => exact reference e env m
  | evalAll es env =>
    cases es with
    | nil => exact .pure _ hm
    | cons e es =>
      exact (request (.inr (by simp +arith [Task.size])) hm).andThen le_rfl fun _ _ hn =>
        (request (.inr (by simp +arith [Task.size])) hn).andThen le_rfl fun _ _ hn => .pure _ hn
  | evalProperties ps env =>
    cases ps with
    | nil => exact .pure _ hm
    | cons q ps =>
      obtain ⟨k, e⟩ := q
      exact (request (.inr (by simp +arith [Task.size])) hm).andThen le_rfl fun _ _ hn =>
        (request (.inr (by simp +arith [Task.size])) hn).andThen le_rfl fun _ _ hn => .pure _ hn
  | declare ds env =>
    match ds with
    | [] => exact .pure _ hm
    | ⟨s, none, _⟩ :: ds =>
      exact (act env (.modifyStore fun h => h.follows_declare ..) hm _).andThen le_rfl fun _ _ hn =>
        request (.inr (by simp +arith [Task.size])) hn
    | ⟨s, some e, _⟩ :: ds =>
      exact (request (.inr (by simp +arith [Task.size])) hm).andThen le_rfl fun _ _ hn =>
        (act env (.bindIn ..) hn _).andThen le_rfl fun _ _ hn =>
          request (.inr (by simp +arith [Task.size])) hn
  | select cs v env =>
    match cs with
    | [] => exact .pure _ hm
    | ⟨none, _⟩ :: cs =>
      exact (request (.inr (by simp +arith [Task.size])) hm).andThen le_rfl fun _ _ hn => .pure _ hn
    | ⟨some t, _⟩ :: cs =>
      refine (request (.inr (by simp +arith [Task.size])) hm).andThen le_rfl fun w _ hn => ?_
      split
      · exact .pure _ hn
      · exact (request (.inr (by simp +arith [Task.size])) hn).andThen le_rfl fun _ _ hn =>
          .pure _ hn
  | exec s label env => exact stmt s label env m
  | execAll ss env =>
    cases ss with
    | nil => exact .pure _ hm
    | cons s ss =>
      refine (tick hm).andThen (Nat.le_succ _) fun _ _ hn =>
        (request (.inl hn) hn).andThen (Nat.le_succ _) fun flow _ hn => ?_
      cases flow with
      | next => exact request (.inl hn) (by omega)
      | _ => exact .pure _ (by omega)
  | turns t incr b label env =>
    refine again
      ((holds (by simp +arith [Task.size]) hm).bind (fun v n hn => ?_) fun _ _ h => .error h)
    cases v with
    | false => exact .some hn
    | true =>
      refine ((tick hn).andThen le_rfl fun _ _ hn => (request (.inl hn) hn).andThen le_rfl
        fun flow _ hn => ?_).spent
      split
      · exact .pure _ hn
      · exact (optional (by simp +arith [Task.size]) hn).andThen le_rfl fun _ _ hn => .pure _ hn
  | visit k b label env ks =>
    cases ks with
    | nil => exact .pure _ hm
    | cons key ks =>
      refine again ((act env (.bindIn ..) hm _).bind (fun _ _ hn => ?_) fun _ _ h => .error h)
      exact ((tick hn).andThen le_rfl fun _ _ hn => (request (.inl hn) hn).andThen le_rfl
        fun _ _ hn => .pure _ hn).spent
  | execCases cs start env =>
    match cs, start with
    | [], _ => exact .pure _ hm
    | _ :: cs, start + 1 => exact request (.inr (by simp +arith [Task.size])) hm
    | ⟨_, ss⟩ :: cs, 0 =>
      refine (request (.inr (by simp +arith [Task.size])) hm).andThen le_rfl fun flow _ hn => ?_
      split
      · exact request (.inr (by simp +arith [Task.size])) hn
      · exact .pure _ hn
      · exact .pure _ hn
  | call callee args pos => exact together (fun _ hn => invoke callee args pos hn) hm

end FrameLedger
