import FrameLedger.Proofs.Environment
import FrameLedger.Proofs.Outcome
import FrameLedger.Tree.Effects

/-!
# Expressions without side effects

`Expr.eval_unnoticed`: an expression that the static test finds without side effects gives a value,
whatever calls do and from whatever machine, if the names it reads are bound and the functions it
makes have no name. All it does to the machine is to make arrays, objects and functions that nothing
else refers to yet: `Machine.Widens`.

A named function has to be left out: it binds its name where it stands. No value needs to be left
out for its text, since a value that contains itself has one, too.
-/

namespace FrameLedger

open Eval

mutual

/-- The names, literals and functions an expression is made of, functions as a whole. What `typeof`
asks about a variable it can tell of one that is not bound. -/
def Expr.leaves : Expr → List Expr
  | e@(.var ..) | e@(.bare ..) | e@(.literal ..) | e@(.func ..) => [e]
  | .member _ q _ => q.leaves
  | .index _ a i => a.leaves ++ i.leaves
  | .call _ f as | .new _ f as => f.leaves ++ exprsLeaves as
  | .prefixed _ op x => if op = .typeof ∧ x.symbol?.isSome then [] else x.leaves
  | .postfixed _ _ x => x.leaves
  | .binary _ _ l r => l.leaves ++ r.leaves
  | .cond _ c t f => c.leaves ++ (t.leaves ++ f.leaves)
  | .array _ es => exprsLeaves es
  | .object _ ps => propertiesLeaves ps

def exprsLeaves : List Expr → List Expr
  | [] => []
  | e :: es => e.leaves ++ exprsLeaves es

def propertiesLeaves : List Property → List Expr
  | [] => []
  | ⟨_, e⟩ :: ps => e.leaves ++ propertiesLeaves ps

end

/-- A name is a bound symbol, a function has no name. -/
def Expr.Settled (h : Store) (env : FrameId) : Expr → Prop
  | .var _ s => (h.lookup env s).isSome
  | .bare .. => False
  | .func _ f => f.name = none
  | _ => True

/-! ## Machines in which there is more -/

namespace Store

/-- More arrays, objects and functions, and all else as it was. -/
structure Widens (h h' : Store) : Prop where
  frames : h'.frames = h.frames
  arrays : h.arrays.toList <+: h'.arrays.toList
  objects : h.objects.toList <+: h'.objects.toList
  closures : h.closures.toList <+: h'.closures.toList

variable {h h' h'' : Store}

theorem Widens.refl (h : Store) : h.Widens h :=
  ⟨rfl, List.prefix_rfl, List.prefix_rfl, List.prefix_rfl⟩

theorem Widens.trans (a : h.Widens h') (b : h'.Widens h'') : h.Widens h'' where
  frames := b.frames.trans a.frames
  arrays := a.arrays.trans b.arrays
  objects := a.objects.trans b.objects
  closures := a.closures.trans b.closures

theorem widens_newArray (h : Store) (vs : Array Value) : h.Widens (h.newArray vs).2 :=
  { Widens.refl h with arrays := by simp [newArray] }

theorem widens_newObject (h : Store) (o : Object) : h.Widens (h.newObject o).2 :=
  { Widens.refl h with objects := by simp [newObject] }

theorem widens_newClosure (h : Store) (cl : Closure) : h.Widens (h.newClosure cl).2 :=
  { Widens.refl h with closures := by simp [newClosure] }

theorem getElem?_of_prefix {α : Type} {xs ys : Array α} (h : xs.toList <+: ys.toList) {i : Nat}
    (hi : i < xs.size) :
    ys[i]? = xs[i]? := by
  obtain ⟨zs, hzs⟩ := h
  rw [← Array.getElem?_toList, ← Array.getElem?_toList, ← hzs, List.getElem?_append_left
    (by simpa using hi)]

/-- An array that was there has the elements it had. -/
theorem Widens.array_eq (hw : h.Widens h') {r : ArrayRef} (hr : r.index < h.arrays.size) :
    h'.array r = h.array r := by
  rw [array, getElem?_of_prefix hw.arrays hr, array]

/-- An object that was there has the properties it had. -/
theorem Widens.object_eq (hw : h.Widens h') {r : ObjectRef} (hr : r.index < h.objects.size) :
    h'.object r = h.object r := by
  rw [object, getElem?_of_prefix hw.objects hr, object]

theorem ownerWithin_congr (hf : h'.frames = h.frames) (s : SymbolId) :
    ∀ (fuel : Nat) (f : FrameId), h'.ownerWithin s fuel f = h.ownerWithin s fuel f
  | 0, _ => rfl
  | fuel + 1, f => by
    have ih : h'.ownerWithin s fuel = h.ownerWithin s fuel := funext (ownerWithin_congr hf s fuel)
    unfold ownerWithin
    rw [bindings, parent?, hf, ih]
    rfl

/-- Frames are all that a lookup depends on. -/
theorem lookup_congr (hf : h'.frames = h.frames) (f : FrameId) (s : SymbolId) :
    h'.lookup f s = h.lookup f s := by
  simp only [lookup, owner?, bindings, hf, ownerWithin_congr hf]

end Store

namespace Machine

/-- Nothing was spent, recorded, bound or changed. There may be more arrays, objects and functions,
and the trace has nothing but their making. -/
structure Widens (m n : Machine) : Prop where
  store : m.store.Widens n.store
  steps : n.steps = m.steps
  callDepth : n.callDepth = m.callDepth
  snapshots : n.snapshots = m.snapshots
  trace : ∃ hs : List Store, n.trace.val = m.trace.val ++ hs.map .store

variable {m n k : Machine}

theorem Widens.refl (m : Machine) : m.Widens m := ⟨.refl _, rfl, rfl, rfl, [], by simp⟩

theorem Widens.trans (a : m.Widens n) (b : n.Widens k) : m.Widens k where
  store := a.store.trans b.store
  steps := b.steps.trans a.steps
  callDepth := b.callDepth.trans a.callDepth
  snapshots := b.snapshots.trans a.snapshots
  trace := by
    obtain ⟨hs, ha⟩ := a.trace
    obtain ⟨hs', hb⟩ := b.trace
    exact ⟨hs ++ hs', by rw [hb, ha, List.map_append, List.append_assoc]⟩

theorem Widens.setStore {h : Store} (hs : m.store.Widens h) : m.Widens (m.setStore h) :=
  ⟨hs, rfl, rfl, rfl, [h], by simp⟩

end Machine

theorem Expr.Settled.mono {x : Expr} {m n : Machine} {env : FrameId} (hx : x.Settled m.store env)
    (hm : m.Widens n) : x.Settled n.store env := by
  cases x with
  | var p s => rwa [Expr.Settled, Store.lookup_congr hm.store.frames]
  | bare => exact hx
  | func => exact hx
  | _ => trivial

/-! ## Computations that give a value and leave the machine as it was -/

namespace Eval

variable {α β : Type}

/-- The computation gives a value, and all it does is to make arrays, objects and functions. -/
def Widens (x : Eval α) (m : Machine) : Prop := ∃ a n, x.go m = (.ok a, n) ∧ m.Widens n

variable {x : Eval α} {m : Machine}

theorem Widens.pure (a : α) (m : Machine) : (pure a : Eval α).Widens m := ⟨a, m, rfl, .refl m⟩

theorem Widens.bind {f : α → Eval β} (hx : x.Widens m) (hf : ∀ a n, m.Widens n → (f a).Widens n) :
    (x >>= f).Widens m := by
  obtain ⟨a, n, hgo, hn⟩ := hx
  obtain ⟨b, k, hgo', hk⟩ := hf a n hn
  exact ⟨b, k, by rw [go_bind, hgo]; exact hgo', hn.trans hk⟩

theorem Widens.discard (hx : x.Widens m) : (discard x).Widens m := by
  obtain ⟨a, n, hgo, hn⟩ := hx
  exact ⟨(), n, by rw [go_discard, hgo], hn⟩

theorem Widens.store (m : Machine) : Eval.store.Widens m := ⟨m.store, m, rfl, .refl m⟩

theorem Widens.text (v : Value) (m : Machine) : (Eval.text v).Widens m :=
  ⟨m.store.text v, m, rfl, .refl m⟩

theorem Widens.onStore {f : Store → α × Store} (hf : m.store.Widens (f m.store).2) :
    (onStore f).Widens m :=
  ⟨_, _, go_onStore f m, .setStore hf⟩

theorem Widens.read {c : Setting} {p : Position} {env : FrameId} {s : SymbolId}
    (hs : (m.store.lookup env s).isSome) : (read c p env (.binding s)).Widens m := by
  obtain ⟨v, hv⟩ := Option.isSome_iff_exists.1 hs
  refine ⟨v, m, ?_, .refl m⟩
  rw [Eval.read, go_bind, go_store]
  simp only [hv, go_pure]

theorem Widens.arithmetic (op : ArithOp) (l r : Value) (m : Machine) :
    (arithmetic op l r).Widens m := by
  cases op with
  | add =>
    rw [Eval.arithmetic]
    split
    · exact .bind (.text l m) fun s n _ => .bind (.text r n) fun s' k _ => .pure _ k
    · exact .pure _ m
  | _ => exact .pure _ m

/-- Of the eager operators only those that look into an object may throw. -/
theorem Widens.operate (c : Setting) (p : Position) {op : EagerOp} (hi : op ≠ .instanceOf)
    (hm : op ≠ .member) (l r : Value) (m : Machine) :
    (operate c p op l r).Widens m := by
  cases op with
  | instanceOf => exact absurd rfl hi
  | member => exact absurd rfl hm
  | arith op => exact .arithmetic op l r m
  | _ => exact .pure _ m

end Eval

section

variable (c : Setting) (call : Caller)

mutual

theorem Expr.eval_widens : ∀ (e : Expr) (env : FrameId) (m : Machine), e.hasSideEffects = false →
    (∀ x ∈ e.leaves, x.Settled m.store env) → (e.eval c call env).Widens m
  | .var p s, env, m, _, hl => by
    rw [Expr.eval]
    exact .read (hl _ List.mem_cons_self)
  | .bare p name, env, m, _, hl => (hl _ List.mem_cons_self).elim
  | .literal p l, env, m, _, _ => by
    rw [Expr.eval]
    exact .pure _ m
  | .func p f, env, m, _, hl => by
    have hname : f.name = none := hl _ List.mem_cons_self
    rw [Expr.eval, hname]
    exact .bind (.onStore (Store.widens_newClosure _ _)) fun v n _ => .pure v n
  | .prefixed p op x, env, m, he, hl => by
    obtain ⟨hop, hx⟩ := Bool.or_eq_false_iff.1 he
    by_cases ht : op = .typeof ∧ x.symbol?.isSome
    · obtain ⟨rfl, hs⟩ := ht
      obtain ⟨s, hs⟩ := Option.isSome_iff_exists.1 hs
      rw [Expr.eval]
      simp only [hs]
      exact .bind (.store m) fun h n _ => .pure _ n
    · have hval : (x.eval c call env).Widens m :=
        x.eval_widens env m hx (by rwa [Expr.leaves, if_neg ht] at hl)
      cases op with simp only [Expr.eval]
      | inc => cases hop
      | dec => cases hop
      | delete => cases hop
      | typeof =>
        have hs : x.symbol? = none := by simpa using ht
        simp only [hs]
        exact hval.bind fun v n _ => .pure _ n
      | neg => exact hval.bind fun v n _ => .pure _ n
      | plus => exact hval.bind fun v n _ => .pure _ n
      | not => exact hval.bind fun v n _ => .pure _ n
      | void => exact hval.discard.bind fun _ n _ => .pure _ n
  | .binary p op l r, env, m, he, hl => by
    simp only [Expr.hasSideEffects, Bool.or_eq_false_iff, beq_eq_false_iff_ne] at he
    obtain ⟨⟨⟨⟨hassign, hi⟩, hm⟩, hle⟩, hre⟩ := he
    obtain ⟨hl, hr⟩ := List.forall_mem_append.1 hl
    have hleft : (l.eval c call env).Widens m := l.eval_widens env m hle hl
    have hright (n : Machine) (hn : m.Widens n) : (r.eval c call env).Widens n :=
      r.eval_widens env n hre fun x hx => (hr x hx).mono hn
    cases op with simp only [Expr.eval]
    | assign => cases hassign
    | assignWith => cases hassign
    | comma => exact hleft.discard.bind fun _ n hn => hright n hn
    | or =>
      refine hleft.bind fun v n hn => ?_
      split
      · exact .pure v n
      · exact hright n hn
    | and =>
      refine hleft.bind fun v n hn => ?_
      split
      · exact hright n hn
      · exact .pure v n
    | eager op =>
      refine hleft.bind fun v n hn => (hright n hn).bind fun w k _ => ?_
      exact .operate c p (fun h => hi (h ▸ rfl)) (fun h => hm (h ▸ rfl)) v w k
  | .cond p t yes no, env, m, he, hl => by
    simp only [Expr.hasSideEffects, Bool.or_eq_false_iff] at he
    obtain ⟨⟨ht, hyes⟩, hno⟩ := he
    obtain ⟨hlt, hlrest⟩ := List.forall_mem_append.1 hl
    obtain ⟨hlyes, hlno⟩ := List.forall_mem_append.1 hlrest
    rw [Expr.eval]
    refine (t.eval_widens env m ht hlt).bind fun v n hn => ?_
    split
    · exact yes.eval_widens env n hyes fun x hx => (hlyes x hx).mono hn
    · exact no.eval_widens env n hno fun x hx => (hlno x hx).mono hn
  | .array p es, env, m, he, hl => by
    rw [Expr.eval]
    exact (evalAll_widens es env m he hl).bind fun vs n _ => .onStore (Store.widens_newArray _ _)
  | .object p ps, env, m, he, hl => by
    rw [Expr.eval]
    exact (evalProperties_widens ps env m he hl).bind fun vs n _ =>
      .onStore (Store.widens_newObject _ _)
  | .member .., _, _, he, _ | .index .., _, _, he, _ | .call .., _, _, he, _ | .new .., _, _, he, _
  | .postfixed .., _, _, he, _ => by cases he

theorem evalAll_widens : ∀ (es : List Expr) (env : FrameId) (m : Machine),
    anySideEffects es = false →
    (∀ x ∈ exprsLeaves es, x.Settled m.store env) → (evalAll c call es env).Widens m
  | [], env, m, _, _ => by
    rw [evalAll]
    exact .pure _ m
  | e :: es, env, m, he, hl => by
    obtain ⟨he, hes⟩ := Bool.or_eq_false_iff.1 he
    obtain ⟨hle, hles⟩ := List.forall_mem_append.1 hl
    rw [evalAll]
    refine (e.eval_widens env m he hle).bind fun v n hn => ?_
    exact (evalAll_widens es env n hes fun x hx => (hles x hx).mono hn).bind fun vs k _ => .pure _ k

theorem evalProperties_widens : ∀ (ps : List Property) (env : FrameId) (m : Machine),
    anyPropertySideEffects ps = false → (∀ x ∈ propertiesLeaves ps, x.Settled m.store env) →
      (evalProperties c call ps env).Widens m
  | [], env, m, _, _ => by
    rw [evalProperties]
    exact .pure _ m
  | ⟨k, e⟩ :: ps, env, m, he, hl => by
    obtain ⟨he, hps⟩ := Bool.or_eq_false_iff.1 he
    obtain ⟨hle, hlps⟩ := List.forall_mem_append.1 hl
    rw [evalProperties]
    refine (e.eval_widens env m he hle).bind fun v n hn => ?_
    exact (evalProperties_widens ps env n hps fun x hx => (hlps x hx).mono hn).bind fun vs k _ =>
      .pure _ k

end

/-- An expression without side effects gives a value if the names it reads are bound symbols and the
functions it makes have no name. No step is spent, nothing is recorded or bound, and what was there
is as it was. -/
theorem Expr.eval_unnoticed (e : Expr) (env : FrameId) (m : Machine) (he : e.hasSideEffects = false)
    (hbound : ∀ p s, .var p s ∈ e.leaves → (m.store.lookup env s).isSome)
    (hbare : ∀ p x, .bare p x ∉ e.leaves) (hnamed : ∀ p f, .func p f ∈ e.leaves → f.name = none) :
    ∃ v n, (e.eval c call env).go m = (.ok v, n) ∧ m.Widens n ∧
      (∀ r, r.index < m.store.arrays.size → n.store.array r = m.store.array r) ∧
      ∀ r, r.index < m.store.objects.size → n.store.object r = m.store.object r := by
  have hsettled : ∀ x ∈ e.leaves, x.Settled m.store env := by
    intro x hx
    cases x with
    | var p s => exact hbound p s hx
    | bare p name => exact hbare p name hx
    | func p f => exact hnamed p f hx
    | _ => trivial
  obtain ⟨v, n, hgo, hn⟩ := e.eval_widens c call env m he hsettled
  exact ⟨v, n, hgo, hn, fun _ => hn.store.array_eq, fun _ => hn.store.object_eq⟩

end

/-- `typeof u + [x, {k: -x}, function () {}]` -/
def collected : Expr :=
  let p : Position := ⟨"a.js", 1⟩
  let x := Expr.var p ⟨0⟩
  .binary p (.eager (.arith .add)) (.prefixed p .typeof (.var p ⟨1⟩))
    (.array p [x, .object p [⟨"k", .prefixed p .neg x⟩], .func p ⟨none, [], ⟨[], p⟩, ⟨2⟩, p⟩])

/-- A machine in which `x` is bound and `u` is not. -/
def collecting : Machine where
  store := Store.empty.define Store.globals ⟨0⟩ (.number 2)
  steps := 0
  callDepth := 0
  snapshots := #[]
  trace := .of []

theorem collected_leaves : collected.leaves =
    [.var ⟨"a.js", 1⟩ ⟨0⟩, .var ⟨"a.js", 1⟩ ⟨0⟩,
      .func ⟨"a.js", 1⟩ ⟨none, [], ⟨[], ⟨"a.js", 1⟩⟩, ⟨2⟩, ⟨"a.js", 1⟩⟩] := rfl

/-- Not even a step is needed, and no call is made. -/
theorem Expr.eval_unnoticed_collected : collected.hasSideEffects = false ∧ ∃ v n,
    (collected.eval ⟨.initial, none, ⟨0, 0⟩⟩ (fun _ _ _ => fault (.callDepth 0)) Store.globals).go
        collecting = (.ok v, n) ∧ collecting.Widens n ∧
      (∀ r, r.index < collecting.store.arrays.size → n.store.array r = collecting.store.array r) ∧
      ∀ r, r.index < collecting.store.objects.size →
        n.store.object r = collecting.store.object r := by
  refine ⟨rfl, Expr.eval_unnoticed _ _ collected _ collecting rfl ?_ ?_ ?_⟩
  · intro p s hs
    rw [collected_leaves] at hs
    obtain ⟨-, rfl⟩ : p = ⟨"a.js", 1⟩ ∧ s = ⟨0⟩ := by simpa using hs
    decide
  · simp [collected_leaves]
  · intro p f hf
    rw [collected_leaves] at hf
    obtain ⟨-, rfl⟩ : p = ⟨"a.js", 1⟩ ∧ f = ⟨none, [], ⟨[], ⟨"a.js", 1⟩⟩, ⟨2⟩, ⟨"a.js", 1⟩⟩ := by
      simpa using hf
    rfl

end FrameLedger
