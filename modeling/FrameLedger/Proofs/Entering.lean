import FrameLedger.Proofs.Hoisting
import FrameLedger.Proofs.Statements

/-!
# Entering a function

Before its body runs, a call makes a frame, binds the parameters in it and hoists what the body
declares. `prepare_spec` says what that leaves: a store in which only the new frame is new to the
program, and in that frame nothing but what the function names. `Lawful.enter` says that a call
respects a regime if the body that then runs does, and `Entered` is about a machine that runs it.
-/

namespace FrameLedger

open Eval

namespace Store

variable {L : Layout} {G : ArrayRef → Prop} {h h' : Store} {B : FrameId}

/-- What is bound in a frame that was not there changes nothing. -/
theorem Ordinary.define_new (a : h.Ordinary L G h') (hB : ¬ h.Has B) (s : SymbolId) (v : Value) :
    h.Ordinary L G (h'.define B s v) where
  has f hf := by simpa using a.has f hf
  parent? f hf := by simpa using a.parent? f hf
  bound f t ht := isSome_local?_define _ _ _ _ (a.bound f t ht)
  others f t hf ht := by
    rw [local?_define, if_neg]
    · exact a.others f t hf ht
    · rintro ⟨rfl, -⟩
      exact hB hf
  closure? := a.closure?
  arrays_le := a.arrays_le
  guarded := a.guarded

end Store

/-- A machine that is making the frame `B` of a call. What it has bound there is the program's, or
still `undefined`. -/
structure Making (L : Layout) (G : ArrayRef → Prop) (m : Machine) (p B : FrameId) (n : Machine) :
    Prop where
  ordinary : m.Ordinary L G n
  new : ¬ m.store.Has B
  has : n.store.Has B
  parent? : n.store.parent? B = some p
  only : ∀ s v, n.store.local? B s = some v → L.Writes s ∨ v = .undefined

namespace Making

variable {L : Layout} {G : ArrayRef → Prop} {m n : Machine} {p B : FrameId}

theorem start (hm : m.store.Fits L G) (hp : m.store.Has p) :
    Making L G m p (m.store.newFrame p).1 (m.setStore (m.store.newFrame p).2) where
  ordinary := .setStore (m.store.ordinary_newFrame L G p) (hm.newFrame hp)
  new := m.store.not_has_newFrame p
  has := (m.store.has_newFrame p).2 (.inr rfl)
  parent? := by simp [Store.parent?_newFrame]
  only s v hv := by
    have := m.store.local?_newFrame_self p s
    simp only [Machine.setStore_store] at hv
    rw [this] at hv
    nomatch hv

/-- The store becomes another one that is still like the first but for the new frame. -/
theorem setStore (hn : Making L G m p B n) {h : Store} (ho : m.store.Ordinary L G h)
    (hf : h.Fits L G) (hhas : h.Has B) (hp : h.parent? B = some p)
    (honly : ∀ s v, h.local? B s = some v → L.Writes s ∨ v = .undefined) :
    Making L G m p B (n.setStore h) where
  ordinary := {
    store := ho
    fits := hf
    steps_le := hn.ordinary.steps_le
    trace := by
      obtain ⟨es, hes, hall⟩ := hn.ordinary.trace
      refine ⟨es ++ [.store h], by simp [hes], List.forall_mem_append.2 ⟨hall, ?_⟩⟩
      simpa [Event.OrdinaryFrom] using ho }
  new := hn.new
  has := hhas
  parent? := hp
  only := honly

theorem only_define (hn : Making L G m p B n) {h : Store}
    (hh : ∀ s, h.local? B s = n.store.local? B s) {s : SymbolId} {v : Value}
    (hs : L.Writes s ∨ v = .undefined) (t : SymbolId) (w : Value)
    (hw : (h.define B s v).local? B t = some w) : L.Writes t ∨ w = .undefined := by
  rw [Store.local?_define] at hw
  split at hw
  · next he =>
    obtain ⟨-, rfl, -⟩ := he
    obtain rfl := Option.some.inj hw
    exact hs
  · exact hn.only t w (hh t ▸ hw)

theorem define (hn : Making L G m p B n) {s : SymbolId} {v : Value} (hs : ¬ L.vars.Uses s)
    (hv : n.store.Clear G v) (hw : L.Writes s ∨ v = .undefined) :
    Making L G m p B (n.setStore (n.store.define B s v)) :=
  hn.setStore (hn.ordinary.store.define_new hn.new s v) (hn.ordinary.fits.define B hs hv)
    (by simpa using hn.has) (by simpa using hn.parent?) (hn.only_define (fun _ => rfl) hw)

theorem params (hL : L.Sound) (args : List Value) : ∀ (ps : List (SymbolId × Nat)) {n : Machine},
    Making L G m p B n → (∀ q ∈ ps, L.Writes q.1) → (∀ v ∈ args, m.store.Clear G v) → ∃ n',
      (ps.forM fun q => modifyStore (·.define B q.1 (args[q.2]?.getD .undefined))).go n =
        (.ok (), n')
        ∧ Making L G m p B n'
  | [], n, hn, _, _ => ⟨n, rfl, hn⟩
  | q :: ps, n, hn, hps, hargs => by
    have hv : n.store.Clear G (args[q.2]?.getD .undefined) := by
      rcases ha : args[q.2]? with _ | v
      · trivial
      · exact (hargs v (List.mem_of_getElem? ha)).mono hn.ordinary.store.arrays_le
    have hq := hps q List.mem_cons_self
    obtain ⟨n', hgo, hn'⟩ := params hL args ps (hn.define (hL.not_uses hq.1) hv (.inl hq))
      (fun q h => hps q (List.mem_cons_of_mem _ h)) hargs
    exact ⟨n', by rw [go_forM_cons, go_modifyStore]; exact hgo, hn'⟩

theorem declare (hn : Making L G m p B n) {s : SymbolId} (hs : ¬ L.vars.Uses s) :
    Making L G m p B (n.setStore (n.store.declare B s)) := by
  rcases n.store.declare_eq B s with he | ⟨-, he⟩ <;> rw [he]
  · exact hn.setStore hn.ordinary.store hn.ordinary.fits hn.has hn.parent? hn.only
  · exact hn.define hs trivial (.inr rfl)

theorem declared : ∀ (names : List SymbolId) {n : Machine}, Making L G m p B n →
    (∀ s ∈ names, ¬ L.vars.Uses s) → ∃ n',
      (names.forM fun s => modifyStore (·.declare B s)).go n = (.ok (), n') ∧ Making L G m p B n' ∧
      (∀ s, (n.store.local? B s).isSome → (n'.store.local? B s).isSome) ∧
      ∀ s ∈ names, (n'.store.local? B s).isSome
  | [], n, hn, _ => ⟨n, rfl, hn, fun _ => id, by simp⟩
  | s :: names, n, hn, hnames => by
    obtain ⟨n', hgo, hn', hkept, hall⟩ := declared names (hn.declare (hnames s List.mem_cons_self))
      fun s h => hnames s (List.mem_cons_of_mem _ h)
    have hfirst := n.store.isSome_local?_declare B s hn.has
    refine ⟨n', by rw [go_forM_cons, go_modifyStore]; exact hgo, hn', fun t ht => hkept t ?_,
      List.forall_mem_cons.2 ⟨hkept s hfirst, hall⟩⟩
    rcases n.store.declare_eq B s with he | ⟨-, he⟩ <;> rw [Machine.setStore_store, he]
    · exact ht
    · exact Store.isSome_local?_define _ _ _ _ ht

theorem functions (hL : L.Sound) {ds ds' : List (SymbolId × Func)}
    (hds : List.Forall₂ (DeclaredAs L) ds ds') :
    ∀ {n : Machine}, Making L G m p B n → ∃ n',
      (ds'.forM fun (s, f) => do
        let v ← closure f B
        modifyStore (·.define B s v)).go n = (.ok (), n') ∧ Making L G m p B n' ∧
      ∀ s, (n.store.local? B s).isSome → (n'.store.local? B s).isSome := by
  induction hds with
  | nil => exact fun {n} hn => ⟨n, rfl, hn, fun _ => id⟩
  | @cons d d' ds ds' hd hds ih =>
    intro n hn
    obtain ⟨s, f'⟩ := d'
    obtain ⟨_, hpair, hname, hs⟩ := hd
    have hc := n.store.ordinary_newClosure L G ⟨f', B⟩
    have ho := hn.ordinary.store.trans hc
    have hmade : Making L G m p B ((n.setStore (n.store.newClosure ⟨f', B⟩).2).setStore
        ((n.store.newClosure ⟨f', B⟩).2.define B s (n.store.newClosure ⟨f', B⟩).1)) := by
      have hdone := ho.define_new hn.new s (n.store.newClosure ⟨f', B⟩).1
      exact {
        ordinary := {
          store := hdone
          fits := hn.ordinary.fits.declareFunc hpair hn.has hname (hL.not_uses hs.1)
          steps_le := hn.ordinary.steps_le
          trace := by
            obtain ⟨es, hes, hall⟩ := hn.ordinary.trace
            refine ⟨es ++ [.store _, .store _], by simp [hes]; exact ⟨rfl, rfl⟩,
              List.forall_mem_append.2 ⟨hall, ?_⟩⟩
            simpa [Event.OrdinaryFrom] using ⟨ho, hdone⟩ }
        new := hn.new
        has := (Store.has_define _ _ _ _).2 hn.has
        parent? := (Store.parent?_define _ _ _ _ _).trans hn.parent?
        only := hn.only_define (fun _ => rfl) (.inl hs) }
    obtain ⟨n', hgo, hn', hkept⟩ := ih hmade
    refine ⟨n', ?_, hn', fun t ht => hkept t (Store.isSome_local?_define _ _ _ _ ht)⟩
    rw [go_forM_cons]
    simp only [Eval.closure, go_bind, go_onStore, go_modifyStore]
    exact hgo

end Making

section

variable {K : Site} {ss ss' : List Stmt} {r : Place} (v : StackVars) (f : Func) (index : SymbolId)
  (declared : List SymbolId)

/-- The variables of an assembled body: those of the function, and those that were declared in
front. -/
theorem mem_stmtsDeclared_assembled (hss : stmtsFramedAs K ss r ss') :
    (∀ s ∈ declared, s ∈ stmtsDeclared (assembled v f index declared ss')) ∧
      ∀ s ∈ stmtsDeclared (assembled v f index declared ss'), K.Writes s ∨ s ∈ declared := by
  obtain ⟨q, ds, ds', tail, rest, -, hds, hrest, heq⟩ := assembled_eq v f index declared hss
  obtain ⟨hnames, hlt⟩ := declsFramed_names hds
  have hrest : ∀ s ∈ stmtsDeclared rest, K.Writes s := by
    rw [stmtsDeclared_framed _ _ _ hrest]
    exact stmtsDeclared_writes _ _ ⟨_, hrest⟩
  have hend : stmtsDeclared (if Block.endsWithExit ⟨rest, f.body.pos⟩ then []
      else [.ofExpr (popCode v index f.pos)]) = [] := by split <;> rfl
  have hmap : declared.map ((fun d : VarDecl => d.name) ∘ fun s => ⟨s, none, f.pos⟩) =
      declared := by
    simp [Function.comp_def]
  have hall : stmtsDeclared (assembled v f index declared ss') =
      ds.map (·.name) ++ declared ++ stmtsDeclared rest := by
    rw [heq, stmtsDeclared, stmtsDeclared, stmtsDeclared_append, hend]
    simp only [Stmt.declared, pushCode, Stmt.ofExpr, List.map_append, List.map_map, hnames, hmap,
      List.nil_append, List.append_nil]
  rw [hall]
  refine ⟨fun s hs => by simp [hs], fun s hs => ?_⟩
  rcases List.mem_append.1 hs with hs | hs
  · exact (List.mem_append.1 hs).imp_left (hlt s)
  · exact .inl (hrest s hs)

/-- The functions of an assembled body are those the function declared. -/
theorem declarations_assembled (hname : ∀ f f', K.pairs f f' → f'.name = f.name)
    (hss : stmtsFramedAs K ss r ss') : ∃ ds, List.Forall₂ (DeclaredAs K.toLayout) ds
      ((assembled v f index declared ss').filterMap Stmt.declaration?) := by
  obtain ⟨q, ds, ds', tail, rest, -, -, hrest, heq⟩ := assembled_eq v f index declared hss
  have hend : (if Block.endsWithExit ⟨rest, f.body.pos⟩ then []
      else [Stmt.ofExpr (popCode v index f.pos)]).filterMap Stmt.declaration? = [] := by
        split <;> rfl
  refine ⟨_, (?_ : _ = rest.filterMap Stmt.declaration?) ▸ declarations_framed hname _ _ _ hrest⟩
  rw [heq, List.filterMap_cons_none rfl, List.filterMap_cons_none rfl, List.filterMap_append, hend,
    List.append_nil]

end

/-- What a call leaves before the body runs: a new frame, in which what the body declares is
bound. -/
theorem prepare_spec {L : Layout} {G : ArrayRef → Prop} {m : Machine} {f : Func} {cl : Closure}
    {args : List Value} (hL : L.Sound) (hf : f.FramedAs L cl.func) (hm : m.store.Fits L G)
    (henv : m.store.Has cl.env) (hargs : ∀ v ∈ args, m.store.Clear G v) :
    ∃ B n, (Eval.prepare cl args).go m = (.ok B, n) ∧ Making L G m cl.env B n ∧
      ∀ s ∈ stmtsDeclared cl.func.body.stmts, (n.store.local? B s).isSome := by
  have hname (f f' : Func) (hp : L.pairs f f') : f'.name = f.name := (hL.framed f f' hp).name
  obtain ⟨ds, hds⟩ : ∃ ds, List.Forall₂ (DeclaredAs L) ds
      (cl.func.body.stmts.filterMap Stmt.declaration?) := by
    rcases hf.body with ⟨-, hss⟩ | ⟨own, declared, ss, -, hss, hbody⟩
    · exact ⟨_, declarations_framed hname _ _ _ hss⟩
    · rw [hbody]
      exact declarations_assembled _ _ _ _ hname hss
  have hdeclared : ∀ s ∈ stmtsDeclared cl.func.body.stmts, ¬ L.vars.Uses s := by
    rcases hf.body with ⟨-, hss⟩ | ⟨own, declared, ss, hapart, hss, hbody⟩
    · rw [stmtsDeclared_framed _ _ _ hss]
      exact fun s hs => hL.not_uses (stmtsDeclared_writes _ _ ⟨_, hss⟩ s hs).1
    · rw [hbody]
      exact fun s hs => ((mem_stmtsDeclared_assembled L.vars f own.index declared hss).2 s hs).elim
        (fun hs => hL.not_uses hs.1) fun hs => (hapart.fresh s hs).2
  obtain ⟨n₁, hgo₁, hn₁⟩ := (Making.start hm henv).params hL args cl.func.params.zipIdx
    (fun q hq => hf.params_write q.1 (hf.params ▸ List.fst_mem_of_mem_zipIdx hq)) hargs
  obtain ⟨n₂, hgo₂, hn₂, -, hbound⟩ := hn₁.declared _ hdeclared
  obtain ⟨n₃, hgo₃, hn₃, hkept⟩ := hn₂.functions hL hds
  refine ⟨_, n₃, ?_, hn₃, fun s hs => hkept s (hbound s hs)⟩
  simp only [Eval.prepare, hoist, go_bind, go_onStore, hgo₁, hgo₂, hgo₃, go_pure]

/-! ## Hoisting in a frame that is there -/

namespace Regime.Lawful

variable {J : Regime} {env : FrameId} (hJ : J.Lawful)

include hJ

omit hJ in
theorem declareNames : ∀ (names : List SymbolId) {m : Machine}, J.steady m →
    (∀ s ∈ names, ∀ m, J.steady m → J.Keeps (Eval.modifyStore (·.declare env s)) m
      fun _ _ => True) →
    J.Keeps (names.forM fun s => Eval.modifyStore (·.declare env s)) m fun _ _ => True
  | [], _, hm, _ => .pure hm trivial
  | s :: names, m, hm, hs => (hs s List.mem_cons_self m hm).bind fun _ _ _ hn _ =>
    declareNames names hn fun t ht => hs t (List.mem_cons_of_mem _ ht)

theorem declareFuncs : ∀ {ds ds' : List (SymbolId × Func)} {m : Machine},
    List.Forall₂ (DeclaredAs J.site.toLayout) ds ds' → J.steady m → m.store.Has env →
    J.Keeps (ds'.forM fun (s, f) => do
      let v ← closure f env
      Eval.modifyStore (·.define env s v)) m fun _ _ => True
  | [], _, _, .nil, hm, _ => .pure hm trivial
  | d :: ds, (s, f') :: ds', m, .cons ⟨_, hpair, hname, hs⟩ hds, hm, henv => by
    have hfirst := (hJ.declareFunc hm hpair hname hs henv).bind (R := fun _ _ => True)
      fun v n _ hn _ => .pure (a := ()) hn trivial
    simp only [bind_assoc, pure_bind, bind_pure_unit] at hfirst
    exact hfirst.bind fun _ n hg hn _ => declareFuncs hds hn (hg.has _ henv)

end Regime.Lawful

/-! ## Running the body -/

namespace Store

variable {L : Layout} {G : ArrayRef → Prop} {own : Option Own} {B : FrameId} {h h' h'' : Store}

/-- What the code of a new frame does, seen from before the frame was made. -/
theorem Grows.outside (ho : h.Ordinary L G h') (hB : ¬ h.Has B) (hg : h'.Grows ⟨L, own⟩ B h'')
    (B' : FrameId) :
    h.Grows ⟨L, none⟩ B' h'' where
  has f hf := hg.has f (ho.has f hf)
  parent? f hf := (hg.parent? f (ho.has f hf)).trans (ho.parent? f hf)
  bound f s hs := hg.bound f s (ho.bound f s hs)
  others f s hf hs hm := by
    rw [hg.others f s (ho.has f hf) hs, ho.others f s hf hs]
    rintro (hv | ⟨_, _, _, rfl⟩)
    · exact hm (.inl hv)
    · exact hB hf
  closure? r cl hc := hg.closure? r cl (ho.closure? r cl hc)
  arrays_le := Nat.le_trans ho.arrays_le hg.arrays_le
  flag _ _ ho := nomatch ho

end Store

/-- A machine that runs a function whose frame was made after `m`. -/
structure Entered (K : Site) (G : ArrayRef → Prop) (env B : FrameId) (m n : Machine) : Prop where
  new : ¬ m.store.Has B
  parent? : n.store.parent? B = some env
  grows : ∃ h, m.store.Ordinary K.toLayout G h ∧ h.Grows K B n.store
  inside : n.store.Inside K B B

namespace Regime

variable {α : Type} {J J' : Regime} {c : Setting} {call : Caller} {m n k : Machine}
  {env B : FrameId} {x : Eval α} {P : α → Machine → Prop}

/-- How the body of a function may end. -/
def Leaving (J : Regime) : Flow → Machine → Prop
  | .next, n => J.steady n
  | .returns v, n => J.steady n ∧ J.Clear v n
  | _, n => J.failed n

theorem Lawful.enter (hJ : J.Lawful) {f : Func} {cl : Closure}
    (hf : f.FramedAs J.site.toLayout cl.func) (henv : m.store.Has cl.env) (hm : J.steady m)
    {args : List Value} (hargs : ∀ v ∈ args, J.Clear v m) (p : Position)
    (hbody : ∀ B n, Making J.site.toLayout J.guarded m cl.env B n →
      (∀ s ∈ stmtsDeclared cl.func.body.stmts, (n.store.local? B s).isSome) → J.steady n →
      J.EndsFrom m (execStmts c call cl.func.body.stmts B) n J.Leaving) :
    J.Keeps (enter c call cl args p) m J.Clear := by
  unfold FrameLedger.enter
  refine Ends.get_bind ?_
  split
  · exact .bind (P := fun _ _ => False) (.fault (hJ.failed hm)) fun _ _ _ h => h.elim
  · obtain ⟨B, n, hgo, hn, hbound⟩ := prepare_spec hJ.sound.toSound hf (hJ.fits hm) henv hargs
    have hprepare : J.EndsFrom m (prepare cl args) m fun a k => B = a ∧ n = k :=
      .of_ok hgo (hJ.sound.grows hn.ordinary.store _) ⟨rfl, rfl⟩
    refine hprepare.bind fun _ _ ⟨ha, hk⟩ => ?_
    subst ha hk
    -- How deep calls are nested is nothing a lawful regime depends on.
    have hdepth (k : Machine) (d : Nat) (hk : k.store.Fits J.site.toLayout J.guarded) :
        k.Ordinary J.site.toLayout J.guarded { k with callDepth := d } :=
      .of_store_eq hk rfl (Nat.le_refl _) rfl
    have hin := hn.ordinary.trans (hdepth n (n.callDepth + 1) hn.ordinary.fits)
    have hrun := hbody B _ { hn with ordinary := hin } hbound (hJ.steady_ordinary m _ hm hin)
    refine .modify_bind (hrun.observe.grows.bind fun o k ⟨hg, ho⟩ => .modify_bind ?_)
    have hsteady (hk : J.steady k) : J.steady { k with callDepth := k.callDepth - 1 } :=
      hJ.steady_ordinary _ _ hk (hdepth k _ (hJ.fits hk))
    have hout : J.Result J.Leaving o { k with callDepth := k.callDepth - 1 } := by
      match o, ho with
      | .error (.thrown v p), ho =>
        exact ⟨hJ.unwinding_ordinary _ _ ho.1 (hdepth k _ (hJ.unwinding_fits k ho.1)), ho.2⟩
      | .error (.fault e), ho => exact hJ.failed_callDepth k _ ho
      | .ok .next, ho => exact hsteady ho
      | .ok (.returns v), ho => exact ⟨hsteady ho.1, ho.2⟩
      | .ok (.breaks l), ho => exact hJ.failed_callDepth k _ ho
      | .ok (.continues l), ho => exact hJ.failed_callDepth k _ ho
    refine (EndsFrom.settle hout hg).grows.bind fun flow l ⟨hg', hl⟩ => ?_
    match flow, hl with
    | .next, hl => exact .of_ok (go_pure _ _) hg' ⟨hl, trivial⟩
    | .returns v, hl => exact .of_ok (go_pure _ _) hg' hl
    | .breaks _, hl => exact (Ends.fault hl).since hg'
    | .continues _, hl => exact (Ends.fault hl).since hg'

/-- Declaring what is declared already changes nothing. -/
theorem Lawful.redeclare (hJ : J.Lawful) {p : Position} :
    ∀ (names : List SymbolId) {m : Machine}, J.steady m →
    (∀ s ∈ names, (m.store.local? env s).isSome) →
    J.Keeps (declareVars c call (names.map fun s => ⟨s, none, p⟩) env) m fun _ _ => True
  | [], _, hm, _ => .pure hm trivial
  | s :: names, m, hm, hs => by
    have hsame : m.store.declare env s = m.store := if_pos (hs s List.mem_cons_self)
    have hfirst : J.Keeps (Eval.modifyStore (·.declare env s)) m fun _ n => n.store = m.store := by
      refine .of_ok (go_modifyStore _ m) (.of_store_eq hsame) ?_ hsame
      rw [hsame]
      exact hJ.steady_ordinary m _ hm (.setStore (.refl _ _ _) (hJ.fits hm))
    refine hfirst.bind fun _ n _ hn hstore => hJ.redeclare names hn fun t ht => ?_
    rw [hstore]
    exact hs t (List.mem_cons_of_mem _ ht)

/-- The `var` statement in front of the push. -/
theorem Serves.leadingVars (hJ : J.Serves c call) (hm : J.steady m)
    (hi : m.store.Inside J.site J.frame env) {ds ds' : List VarDecl}
    (hds : declsFramed J.site ds ds') {names : List SymbolId}
    (hnames : ∀ s ∈ names, (m.store.local? env s).isSome) (p q : Position) :
    J.Keeps ((Stmt.vars q (ds' ++ names.map fun s => ⟨s, none, p⟩)).exec c call none env) m
      fun flow _ => flow = .next := by
  have hdeclare : J.Keeps
      (FrameLedger.declareVars c call (ds' ++ names.map fun s => ⟨s, none, p⟩) env) m
      fun _ _ => True := by
    rw [declareVars_append]
    refine (hJ.declareVars hds hm hi).bind fun _ n hg hn _ => ?_
    exact hJ.toLawful.redeclare names hn fun s hs => hg.bound _ _ (hnames s hs)
  exact hdeclare.bind fun _ n _ hn _ => .pure hn rfl

/-- One regime is that of a function which is called under the other. -/
structure Under (J J' : Regime) : Prop where
  site : J'.site = ⟨J.site.toLayout, none⟩
  guarded : J'.guarded = J.guarded
  unwinding : ∀ n, J.unwinding n → J'.unwinding n
  failed : ∀ n, J.failed n → J'.failed n

end Regime

namespace Entered

variable {α : Type} {K : Site} {G : ArrayRef → Prop} {J J' : Regime} {m n k : Machine}
  {env B : FrameId} {x : Eval α} {P : α → Machine → Prop}

theorem outside (hn : Entered K G env B m n) (B' : FrameId) :
    m.store.Grows ⟨K.toLayout, none⟩ B' n.store := by
  obtain ⟨h, ho, hg⟩ := hn.grows
  exact .outside ho hn.new hg B'

theorem mono (hn : Entered K G env B m n) (hK : K.Sound) (hg : n.store.Grows K B k.store) :
    Entered K G env B m k := by
  obtain ⟨h, ho, hg'⟩ := hn.grows
  exact ⟨hn.new, (hg.parent? B hn.inside.has).trans hn.parent?, ⟨h, ho, hg'.trans hg⟩,
    hn.inside.mono hg fun _ _ ho hu => hK.own_fresh ho hu⟩

/-- What the code of the function respects the call respects. -/
theorem ends (hn : Entered J.site J.guarded env J.frame m n) (hK : J.site.Sound) (hout : J.Under J')
    (hx : J.Ends x n P) :
    J'.EndsFrom m x n fun a k => Entered J.site J.guarded env J.frame m k ∧ P a k := by
  have hk := hn.mono hK hx.1
  refine ⟨?_, ?_⟩
  · have hg := hk.outside J'.frame
    rwa [← hout.site] at hg
  · have h := hx.2
    rcases ho : (x.go n).1 with (⟨v, p⟩ | e) | a <;> rw [ho] at h
    · refine ⟨hout.unwinding _ h.1, ?_⟩
      rw [Regime.Clear, hout.guarded]
      exact h.2
    · exact hout.failed _ h
    · exact ⟨hk, h⟩

end Entered

end FrameLedger
