import FrameLedger.Proofs.Emulated
import FrameLedger.Proofs.Erasing

/-!
# Framed code, erased

What stands for code of the program is told from frame code by its symbols (`Site.Native`). So
whatever a statement became is taken back (`Stmt.undone`): exactly in code that keeps no frame, else
up to braces. The induction is on the program's code, functions included, since a function is erased
once those inside it are (`Func.undone`).
-/

namespace FrameLedger

/-! ## Code of the program itself -/

section Native

variable {K : Site} {F : Func → Func}

/-- An expression that stands for one of the program, its functions replaced. -/
def Site.Native (K : Site) (F : Func → Func) (x : Expr) : Prop :=
  ∃ e e' : Expr, K.Noted (e.Framed K) e' ∧ x = e'.mapFuncs (m := Id) F

theorem Site.Noted.native {e e' : Expr} (h : K.Noted (e.Framed K) e') :
    K.Native F (e'.mapFuncs (m := Id) F) :=
  ⟨e, e', h, rfl⟩

namespace Site.Native

theorem of_framed {e e' : Expr} (h : e.Framed K e') : K.Native F (e'.mapFuncs (m := Id) F) :=
  ⟨e, e', .inl h, rfl⟩

theorem var_lt {p : Position} {s : SymbolId} (h : K.Native F (.var p s)) : s.index < K.base := by
  obtain ⟨e, e', he | ⟨_, _, _, _, _, _, _, rfl⟩, heq⟩ := h
  · cases e' with
    | var q t =>
      obtain ⟨rfl, rfl⟩ := Expr.var.inj heq
      exact he.symbol_lt he.symbol?_eq.symm
    | _ => cases heq
  · cases heq

theorem index {p : Position} {a i : Expr} (h : K.Native F (.index p a i)) :
    K.Native F a ∧ K.Native F i := by
  obtain ⟨e, e', he | ⟨_, _, _, _, _, _, _, rfl⟩, heq⟩ := h
  · cases e' with
    | index q a' i' =>
      obtain ⟨rfl, rfl, rfl⟩ := Expr.index.inj heq
      cases e with
      | index p a i =>
        obtain ⟨a', i', ha, hi, heq⟩ := he
        obtain ⟨-, rfl, rfl⟩ := Expr.index.inj heq
        exact ⟨ha.native, hi.native⟩
      | _ => simp [Expr.Framed] at he
    | _ => cases heq
  · cases heq

/-- Either side of an operator, unless it is the comma behind a note. -/
theorem binary {p : Position} {op : BinaryOp} {l r : Expr} (h : K.Native F (.binary p op l r)) :
    K.Native F l ∧ K.Native F r ∨ op = .comma ∧
      ∃ q a i x, l = .binary q .assign (.index q a i) x := by
  obtain ⟨e, e', he | ⟨_, _, _, _, _, _, _, rfl⟩, heq⟩ := h
  · cases e' with
    | binary q op' l' r' =>
      obtain ⟨rfl, rfl, rfl, rfl⟩ := Expr.binary.inj heq
      cases e with
      | binary p op l r =>
        obtain ⟨-, l', r', hl, hr, heq⟩ := he
        obtain ⟨-, rfl, rfl, rfl⟩ := Expr.binary.inj heq
        refine .inl ⟨?_, hr.native⟩
        split at hl
        · exact of_framed hl
        · exact hl.native
      | _ => simp [Expr.Framed] at he
    | _ => cases heq
  · obtain ⟨-, rfl, rfl, -⟩ := Expr.binary.inj heq
    exact .inr ⟨rfl, _, _, _, _, rfl⟩

theorem assign {p : Position} {l r : Expr} (h : K.Native F (.binary p .assign l r)) :
    K.Native F l ∧ K.Native F r := h.binary.resolve_right fun h => by cases h.1

variable {x : Expr} {v : StackVars} {new : SymbolId → Bool} (hx : K.Native F x)
  (hnew : ∀ s : SymbolId, s.index < K.base → new s = false)

include hx hnew

theorem isNote : x.isNote v new = false := by
  unfold Expr.isNote
  split
  · rw [hnew _ hx.assign.1.index.2.var_lt, Bool.and_false]
  · rfl

theorem isPush : x.isPush v new = false := by
  unfold Expr.isPush
  split
  · rw [hnew _ hx.assign.1.index.2.assign.1.var_lt, Bool.and_false, Bool.false_and]
  · rfl

theorem isReset : x.isReset v new = false := by
  unfold Expr.isReset
  split
  · rw [hnew _ hx.assign.2.var_lt, Bool.and_false]
  · rfl

theorem isPop : x.isPop v new = false := by
  unfold Expr.isPop
  split
  · have hi := (hx.assign.2.binary.resolve_right fun h => by cases h.1).1
    rw [hnew _ hi.var_lt, Bool.and_false, Bool.false_and]
  · rfl

theorem isGuardedPop : x.isGuardedPop v new = false := by
  unfold Expr.isGuardedPop
  split
  · have hf := (hx.binary.resolve_right fun h => by cases h.1).1
    rw [hnew _ hf.var_lt, Bool.false_and]
  · rfl

theorem isExiting : x.isExiting new = false := by
  unfold Expr.isExiting
  split
  · rw [hnew _ hx.assign.1.var_lt, Bool.false_and]
  · rfl

theorem isUpkeep (p : Position) : (Stmt.expr p x).isUpkeep v new = false := by
  rw [Stmt.isUpkeep, hx.isPush hnew, hx.isPop hnew, hx.isReset hnew, hx.isGuardedPop hnew]
  rfl

theorem aside? (p : Position) : (Stmt.expr p x).aside? new = none := by
  unfold Stmt.aside?
  split
  · next heq =>
    obtain ⟨-, rfl⟩ := Stmt.expr.inj heq
    rw [hnew _ hx.assign.1.var_lt]
    rfl
  · rfl

/-- A result of the program is itself, up to the notes in it. -/
theorem returned (aside : Option Expr) : x.returned v new aside = some (x.unnoted v new) := by
  unfold Expr.returned
  split
  · rw [hnew _ hx.var_lt]
    rfl
  · next p l r =>
    have hl : l.isExiting new = false := by
      rcases hx.binary with ⟨hl, -⟩ | ⟨-, q, a, i, x, rfl⟩
      · exact hl.isExiting hnew
      · rfl
    rw [hl]
    rfl
  · rfl

end Site.Native

end Native

/-! ## Frame code -/

section FrameCode

variable {v : StackVars} {new : SymbolId → Bool} {aside : Option Expr} {s : Stmt} {ss : List Stmt}

theorem stmtsUnframed_upkeep (h : s.isUpkeep v new = true) :
    stmtsUnframed v new aside (s :: ss) = stmtsUnframed v new aside ss := by
  rw [stmtsUnframed, if_pos h]

theorem stmtsUnframed_aside {e : Expr} (h : s.isUpkeep v new = false) (he : s.aside? new = some e) :
    stmtsUnframed v new aside (s :: ss) = stmtsUnframed v new (some (e.unnoted v new)) ss := by
  rw [stmtsUnframed, h, he]
  rfl

theorem stmtsUnframed_kept (h : s.isUpkeep v new = false) (he : s.aside? new = none) :
    stmtsUnframed v new aside (s :: ss) =
      s.unframed v new aside :: stmtsUnframed v new none ss := by
  rw [stmtsUnframed, h, he]
  rfl

variable {index : SymbolId} (hindex : new index = true) (p : Position)

include hindex

theorem isPop_popCode : (popCode v index p).isPop v new = true := by
  simp [popCode, Expr.assign, Expr.number, Expr.isPop, hindex]

theorem isUpkeep_pop : (Stmt.ofExpr (popCode v index p)).isUpkeep v new = true := by
  simp [Stmt.ofExpr, Stmt.isUpkeep, isPop_popCode hindex p]

theorem isUpkeep_reset : (resetCode v index p).isUpkeep v new = true := by
  simp [resetCode, Stmt.ofExpr, Expr.assign, Stmt.isUpkeep, Expr.isReset, hindex]

theorem isUpkeep_push (name : Option SymbolId) :
    (pushCode v index name p).isUpkeep v new = true := by
  simp [pushCode, Stmt.ofExpr, Expr.assign, Stmt.isUpkeep, Expr.isPush, hindex]

theorem isUpkeep_guarded {flag : SymbolId} (hflag : new flag = true) (q : Position) :
    (Stmt.ofExpr (.binary p .and (.var p flag) (popCode v index q))).isUpkeep v new = true := by
  simp [Stmt.ofExpr, Stmt.isUpkeep, Expr.isGuardedPop, hflag, isPop_popCode hindex q]

end FrameCode

/-! ## What was made is undone -/

/-- The symbols of a frame are told from those of the program and of the stack. -/
structure Layout.Tells (L : Layout) (own : Option Own) (new : SymbolId → Bool) : Prop where
  old : ∀ s : SymbolId, s.index < L.base → new s = false
  depth : new L.vars.depth = false
  fresh : ∀ o, own = some o → ∀ s : SymbolId, L.base ≤ s.index → new s = true
  uses : ∀ o s, own = some o → o.Uses s → new s = true

theorem Layout.Tells.of_apart {L : Layout} {new : SymbolId → Bool} {own : Own}
    {declared : List SymbolId} (hnew : ∀ s, new s = true ↔ L.base ≤ s.index)
    (hdepth : new L.vars.depth = false) (hown : own.Apart L.vars L.base declared) :
    L.Tells (some own) new where
  old s hs := by
    have := mt (hnew s).1 (Nat.not_le_of_lt hs)
    simpa using this
  depth := hdepth
  fresh _ _ s := (hnew s).2
  uses o s ho hs := by
    obtain rfl := Option.some.inj ho
    exact (hnew s).2 (hown.fresh s (hown.mem s hs)).1

/-- What became of a function, and that it stands where it stood. -/
structure Func.Rewritten (p : Program) (L : Layout) (f f' : Func) : Prop where
  name : f'.name = f.name
  params : f'.params = f.params
  scope : f'.scope = f.scope
  pos : f'.pos = f.pos
  body_pos : f'.body.pos = f.body.pos
  body :
    (p.passesOver f = true ∧ stmtsFramedAs ⟨L, none⟩ f.body.stmts {} f'.body.stmts)
    ∨ p.passesOver f = false ∧ ∃ own declared ss, own.Apart L.vars L.base declared
      ∧ stmtsFramedAs ⟨L, some own⟩ f.body.stmts {} ss
      ∧ f'.body.stmts = assembled L.vars f own.index declared ss

/-- The functions of a layout are what the pass makes of them. -/
def Layout.Rewrites (L : Layout) (p : Program) : Prop := ∀ f f', L.pairs f f' → f.Rewritten p L f'

/-- The symbols that count as added are those that are new. -/
def Layout.Marked (L : Layout) (p : Program) : Prop :=
  ∀ s, p.isAdded L.vars s = true ↔ L.base ≤ s.index

abbrev declsWith (F : Func → Func) (ds : List VarDecl) : List VarDecl :=
  declsMapFuncs (m := Id) F ds

abbrev stmtsWith (F : Func → Func) (ss : List Stmt) : List Stmt := stmtsMapFuncs (m := Id) F ss

theorem stmtsWith_append (F : Func → Func) (b a : List Stmt) :
    stmtsWith F (a ++ b) = stmtsWith F a ++ stmtsWith F b := by
  induction a with
  | nil => rfl
  | cons s a ih => exact congrArg (List.cons (s.mapFuncs (m := Id) F)) ih

theorem Program.passesOver_with (p : Program) (F : Func → Func) (n : Option SymbolId)
    (ps : List SymbolId) (ss : List Stmt) (q : Position) (sc : ScopeId) (pos : Position) :
    p.passesOver ⟨n, ps, ⟨stmtsWith F ss, q⟩, sc, pos⟩ =
      p.passesOver ⟨n, ps, ⟨ss, q⟩, sc, pos⟩ := by
  cases ss <;> rfl

/-- A function with a frame has a body. -/
theorem Program.passesOver_assembled {p : Program} {n : Option SymbolId} {ps : List SymbolId}
    {b : Block} {sc : ScopeId} {pos : Position} (h : p.passesOver ⟨n, ps, b, sc, pos⟩ = false)
    (v : StackVars) (f : Func) (index : SymbolId) (declared : List SymbolId) (ss : List Stmt)
    (q : Position) :
    p.passesOver ⟨n, ps, ⟨assembled v f index declared ss, q⟩, sc, pos⟩ = false := by
  have himm : p.isImmortal ⟨n, ps, b, sc, pos⟩ = false := (Bool.or_eq_false_iff.1 h).2
  unfold assembled
  dsimp only
  obtain ⟨_, _, _, heq, -⟩ := mergeVars_eq f.pos (declared.map fun s => ⟨s, none, f.pos⟩)
    (if Block.endsWithExit ⟨afterVars (pushCode v index f.name f.pos) ss, f.body.pos⟩ then
      afterVars (pushCode v index f.name f.pos) ss
    else afterVars (pushCode v index f.name f.pos) ss ++ [.ofExpr (popCode v index f.pos)])
  rw [heq]
  exact himm

theorem stmtsWith_push (F : Func → Func) (v : StackVars) (index : SymbolId) (name : Option SymbolId)
    (q : Position) (ss : List Stmt) :
    stmtsMapFuncs (m := Id) F (pushCode v index name q :: ss) =
      pushCode v index name q :: stmtsWith F ss := by
  cases name <;> rfl

section Undone

variable {p : Program} {L : Layout} {own : Option Own} {new : SymbolId → Bool}

/-- What a statement became is taken back. -/
def Stmt.Undone (p : Program) (L : Layout) (own : Option Own) (new : SymbolId → Bool) (s : Stmt)
    (ss : List Stmt) : Prop :=
  ∃ x : Stmt, x.Same own (s.mapFuncs (m := Id) p.tidiedFunc) ∧ ∀ rest,
    stmtsUnframed L.vars new none (stmtsWith (p.restored L.vars) ss ++ rest) =
      x :: stmtsUnframed L.vars new none rest

def stmtsUndone (p : Program) (L : Layout) (own : Option Own) (new : SymbolId → Bool)
    (ss ss' : List Stmt) : Prop :=
  ∃ xs, stmtsSame own xs (stmtsMapFuncs (m := Id) p.tidiedFunc ss) ∧ ∀ rest,
    stmtsUnframed L.vars new none (stmtsWith (p.restored L.vars) ss' ++ rest) =
      xs ++ stmtsUnframed L.vars new none rest

theorem Site.Noted.undone (ht : L.Tells own new) {e e' x : Expr}
    (h : Site.Noted ⟨L, own⟩ (e.Framed ⟨L, own⟩) e')
    (ih : ∀ {e'}, e.Framed ⟨L, own⟩ e' →
      Expr.unnoted L.vars new (e'.mapFuncs (m := Id) (p.restored L.vars)) = x) :
    Expr.unnoted L.vars new (e'.mapFuncs (m := Id) (p.restored L.vars)) = x := by
  rcases h with h | ⟨o, r, e'', ho, hloc, h, -, rfl⟩
  · exact ih h
  · rw [← ih h]
    have hindex : new o.index = true := ht.uses o o.index ho (.inl rfl)
    replace hloc : L.vars.location = some r.location := hloc
    have hnote (q : Position) (x : Expr) :
        (Expr.assign q (.index q (.var q r.location) (.var q o.index)) x).isNote L.vars new =
          true := by
      simp [Expr.assign, Expr.isNote, hloc, hindex]
    show Expr.unnoted L.vars new
        (.binary e''.pos .comma
          (.assign e''.pos (.index e''.pos (.var e''.pos r.location) (.var e''.pos o.index))
            (Expr.mapFuncs (m := Id) _ (r.note e''.pos)))
          (e''.mapFuncs (m := Id) _)) = _
    rw [Expr.unnoted, hnote]
    rfl

/-- Something is put aside in a variable of the frame, whatever it is. -/
theorem Layout.Tells.stmtsUnframed_assign (ht : L.Tells own new) {s : SymbolId} (hs : new s = true)
    (p : Position) (e : Expr) (aside : Option Expr) (rest : List Stmt) :
    stmtsUnframed L.vars new aside (.ofExpr (.assign p (.var p s) e) :: rest) =
      stmtsUnframed L.vars new (some (e.unnoted L.vars new)) rest := by
  have hne : s ≠ L.vars.depth := by
    rintro rfl
    rw [ht.depth] at hs
    cases hs
  refine stmtsUnframed_aside ?_ ?_
  · have hpop : (Expr.assign p (.var p s) e).isPop L.vars new = false := by
      unfold Expr.assign Expr.isPop
      split
      · next heq =>
        obtain ⟨-, -, ⟨-, rfl⟩, -⟩ := Expr.binary.inj heq
        simp [hne]
      · rfl
    have hreset : (Expr.assign p (.var p s) e).isReset L.vars new = false := by
      unfold Expr.assign Expr.isReset
      split
      · next heq =>
        obtain ⟨-, -, ⟨-, rfl⟩, -⟩ := Expr.binary.inj heq
        simp [hne]
      · rfl
    rw [Stmt.ofExpr, Stmt.isUpkeep, hpop, hreset]
    rfl
  · simp [Stmt.ofExpr, Expr.assign, Stmt.aside?, hs]

/-- A statement that became one and is no frame code. -/
theorem Stmt.Undone.single {s s' : Stmt}
    (hkeep : (Stmt.mapFuncs (m := Id) (p.restored L.vars) s').isUpkeep L.vars new = false)
    (haside : (Stmt.mapFuncs (m := Id) (p.restored L.vars) s').aside? new = none)
    (hsame : Stmt.Same own
      (Stmt.unframed L.vars new none (s'.mapFuncs (m := Id) (p.restored L.vars)))
      (s.mapFuncs (m := Id) p.tidiedFunc)) : s.Undone p L own new [s'] :=
  ⟨_, hsame, fun _ => stmtsUnframed_kept hkeep haside⟩

/-- A `return` is read back. -/
theorem Stmt.Undone.returned (ht : L.Tells own new) {r : Place} {q : Position} {e e' : Option Expr}
    {ss : List Stmt} (he : exprFramed? ⟨L, own⟩ e e')
    (hundone : Option.map (Expr.unnoted L.vars new)
      (exprMapFuncs? (m := Id) (p.restored L.vars) e') =
      exprMapFuncs? (m := Id) p.tidiedFunc e)
    (h : Site.Returned ⟨L, own⟩ r q e' ss) : (Stmt.ret q e).Undone p L own new ss := by
  have hret (aside : Option Expr) : Option.bind (exprMapFuncs? (m := Id) (p.restored L.vars) e')
      (Expr.returned L.vars new aside) = exprMapFuncs? (m := Id) p.tidiedFunc e := by
    rw [← hundone]
    cases e with
    | none =>
      obtain rfl := he
      rfl
    | some e =>
      obtain ⟨e₁, he, rfl⟩ := he
      exact (he.native (F := p.restored L.vars)).returned ht.old aside
  refine ⟨.ret q (exprMapFuncs? (m := Id) p.tidiedFunc e), .rfl, fun rest => ?_⟩
  have hkept (aside : Option Expr) (y : Option Expr) : stmtsUnframed L.vars new aside
      (.ret q y :: rest) =
      .ret q (y.bind (Expr.returned L.vars new aside)) :: stmtsUnframed L.vars new none rest :=
    stmtsUnframed_kept rfl rfl
  unfold Site.Returned at h
  rcases own with _ | o
  · obtain rfl := h
    exact (hkept none _).trans (by rw [hret])
  · have huses (s : SymbolId) (hs : o.Uses s) : new s = true := ht.uses o s rfl hs
    have hindex : new o.index = true := huses _ (.inl rfl)
    rcases hexit : r.exit with _ | _ | flag <;> simp only [hexit] at h
    · rcases h with ⟨e₁, temp, rfl, htemp, rfl⟩ | ⟨-, rfl⟩
      · have hnew : new temp = true := huses temp (.inr (.inl htemp))
        refine (ht.stmtsUnframed_assign hnew q _ none _).trans ?_
        refine (stmtsUnframed_upkeep (isUpkeep_pop hindex q)).trans ?_
        refine (hkept _ _).trans ?_
        rw [← hundone]
        show Stmt.ret q (Expr.returned L.vars new _ (.var q temp)) :: _ = _
        rw [Expr.returned, hnew]
        rfl
      · exact (stmtsUnframed_upkeep (isUpkeep_pop hindex q)).trans
          ((hkept none _).trans (by rw [hret]))
    · obtain ⟨hmem, ⟨e₁, rfl, rfl⟩ | ⟨rfl, rfl⟩⟩ := h
      · have hflag : new flag = true := huses flag (.inr (.inr hmem))
        refine (hkept none _).trans ?_
        rw [← hundone]
        show Stmt.ret q (Expr.returned L.vars new none
            (.binary q .comma (.binary q .assign (.var q flag) (.literal q (.bool true)))
              (e₁.mapFuncs (m := Id) _))) :: _ = _
        rw [Expr.returned, Expr.isExiting, hflag]
        rfl
      · have hflag : new flag = true := huses flag (.inr (.inr hmem))
        refine (ht.stmtsUnframed_assign hflag q _ none _).trans ((hkept _ _).trans ?_)
        rw [← hundone]
        rfl

theorem Stmt.Undone.reset (ht : L.Tells own new) {r : Place} {s : Stmt} {framed : List Stmt → Prop}
    {ss : List Stmt} (h : Site.Reset ⟨L, own⟩ r s framed ss)
    (ih : ∀ {ss}, framed ss → s.Undone p L own new ss) :
    s.Undone p L own new ss := by
  rcases own with _ | o
  · exact ih h
  · simp only [Site.Reset] at h
    split at h
    · obtain ⟨ss₁, h, rfl⟩ := h
      obtain ⟨x, hx, hrest⟩ := ih h
      refine ⟨x, hx, fun rest => ?_⟩
      rw [stmtsWith_append, List.append_assoc, hrest]
      exact congrArg (List.cons x)
        (stmtsUnframed_upkeep (isUpkeep_reset (ht.uses o _ rfl (.inl rfl)) _))
    · exact ih h

/-- Only an expression and a `return` become more than one statement. -/
theorem Site.Reset.single {K : Site} {r : Place} {s : Stmt} {ss : List Stmt}
    (h : K.Reset r s (s.Framed K r) ss) :
    (∃ s', ss = [s']) ∨ (∃ q e, s = .expr q e) ∨ ∃ q e, s = .ret q e := by
  have hsingle {ss : List Stmt} (h : s.Framed K r ss) : (∃ s', ss = [s']) ∨
      ∃ q e, s = .ret q e := by
    cases s with
    | ret q e => exact .inr ⟨q, e, rfl⟩
    | block q b =>
      obtain ⟨bs, bq⟩ := b
      obtain ⟨_, -, rfl⟩ := h
      exact .inl ⟨_, rfl⟩
    | tryBlock q b cs f =>
      obtain ⟨bs, bq⟩ := b
      rcases f with _ | ⟨fs, fq⟩
      · obtain ⟨-, _, _, -, -, rfl⟩ := h
        exact .inl ⟨_, rfl⟩
      · obtain ⟨-, _, _, _, _, -, rfl, -⟩ := h
        exact .inl ⟨_, rfl⟩
    | _ =>
      simp only [Stmt.Framed] at h
      grind
  rcases hown : K.own with _ | o <;> simp only [Site.Reset, hown] at h
  · exact (hsingle h).imp_right .inr
  · split at h
    · next hwraps =>
      cases s with
      | expr q e => exact .inr (.inl ⟨q, e, rfl⟩)
      | _ => simp [Stmt.assignsWrapped] at hwraps
    · exact (hsingle h).imp_right .inr

theorem eq_of_stmtsUnframed_single {v : StackVars} {x y : Stmt}
    (h : stmtsUnframed v new none [y] = [x]) :
    y.unframed v new none = x := by
  rw [stmtsUnframed] at h
  split at h
  · cases h
  · split at h
    · cases h
    · exact (List.cons.inj h).1

/-- What stands where only one statement fits is taken back, up to braces. -/
theorem Stmt.SameBody.undone (ht : L.Tells own new) {r : Place} {s s' : Stmt}
    (h : Site.Body ⟨L, own⟩ r s (s.Framed ⟨L, own⟩ r) s')
    (ih : ∀ {ss}, s.Framed ⟨L, own⟩ r ss → s.Undone p L own new ss) :
    Stmt.SameBody own (Stmt.unframed L.vars new none (s'.mapFuncs (m := Id) (p.restored L.vars)))
      (s.mapFuncs (m := Id) p.tidiedFunc) := by
  obtain ⟨ss, h, rfl⟩ := h
  obtain ⟨x, hx, hrest⟩ := Stmt.Undone.reset ht h ih
  have hall : stmtsUnframed L.vars new none (stmtsWith (p.restored L.vars) ss) = [x] := by
    simpa [stmtsUnframed] using hrest []
  rcases ss with _ | ⟨a, _ | ⟨b, ss⟩⟩
  · cases hall
  · rw [oneStmt]
    exact (eq_of_stmtsUnframed_single hall ▸ hx).body
  · rcases own with _ | o
    · obtain ⟨s', heq, -⟩ := Stmt.Framed.plain h
      cases heq
    · show Stmt.unbraced (.block s.pos ⟨stmtsTidied (stmtsUnframed L.vars new none
        (stmtsWith (p.restored L.vars) (a :: b :: ss))), s.pos⟩) = _
      rw [hall]
      have hbare : (Stmt.mapFuncs (m := Id) p.tidiedFunc s).tidied.unbraced =
          (Stmt.mapFuncs (m := Id) p.tidiedFunc s).tidied := by
        rcases h.single with ⟨s', heq⟩ | ⟨q, e, rfl⟩ | ⟨q, e, rfl⟩
        · cases heq
        · rfl
        · rfl
      exact Eq.trans hx hbare.symm

theorem stmtsUndone.same {ss ss' : List Stmt} (h : stmtsUndone p L own new ss ss') :
    stmtsSame own (stmtsUnframed L.vars new none (stmtsWith (p.restored L.vars) ss'))
      (stmtsMapFuncs (m := Id) p.tidiedFunc ss) := by
  obtain ⟨xs, hxs, hrest⟩ := h
  have hall := hrest []
  rw [List.append_nil, stmtsUnframed, List.append_nil] at hall
  rwa [hall]

/-- The guarded pop at the end of a `finally` block is taken out. -/
theorem Site.Guarded.undone {o : Own} (ht : L.Tells (some o) new) {flag : Option SymbolId}
    {fs fs' : List Stmt} {fq : Position} {f' : Block} (hfs : stmtsUndone p L (some o) new fs fs')
    (h : Site.Guarded ⟨L, some o⟩ flag ⟨fs', fq⟩ f') : ∃ gs, f' = ⟨gs, fq⟩ ∧
      stmtsSame (some o) (stmtsUnframed L.vars new none (stmtsWith (p.restored L.vars) gs))
        (stmtsMapFuncs (m := Id) p.tidiedFunc fs) := by
  rcases flag with _ | flag
  · obtain rfl := h
    exact ⟨fs', rfl, hfs.same⟩
  · obtain ⟨hmem, h⟩ := h
    split at h
    · obtain rfl := h
      exact ⟨fs', rfl, hfs.same⟩
    · obtain rfl := h
      refine ⟨_, rfl, ?_⟩
      obtain ⟨xs, hxs, hrest⟩ := hfs
      have hguard := isUpkeep_guarded (v := L.vars) (ht.uses o _ rfl (.inl rfl)) fq
        (ht.uses o flag rfl (.inr (.inr hmem))) fq
      rw [stmtsWith_append, hrest]
      refine Eq.trans (congrArg stmtsTidied ?_) hxs
      exact (congrArg (xs ++ ·) (stmtsUnframed_upkeep hguard)).trans (List.append_nil xs)

/-- Only a `var` statement becomes one. -/
theorem Site.Reset.not_vars {K : Site} {r : Place} {s : Stmt} {ss : List Stmt}
    (h : K.Reset r s (s.Framed K r) ss) (hs : s.isVars = false) :
    ∃ x xs, ss = x :: xs ∧ x.isVars = false := by
  have hframed {ss : List Stmt} (h : s.Framed K r ss) : ∃ x xs, ss = x :: xs ∧
      x.isVars = false := by
    cases s with
    | vars => cases hs
    | ret q e =>
      obtain ⟨e', -, h⟩ := h
      rcases hown : K.own with _ | o <;> simp only [Site.Returned, hown] at h
      · exact ⟨_, _, h, rfl⟩
      · rcases hexit : r.exit with _ | _ | flag <;> simp only [hexit] at h
        · rcases h with ⟨_, _, -, -, h⟩ | ⟨-, h⟩ <;> exact ⟨_, _, h, rfl⟩
        · rcases h with ⟨-, ⟨_, -, h⟩ | ⟨-, h⟩⟩ <;> exact ⟨_, _, h, rfl⟩
    | block q b =>
      obtain ⟨bs, bq⟩ := b
      obtain ⟨_, -, rfl⟩ := h
      exact ⟨_, _, rfl, rfl⟩
    | tryBlock q b cs f =>
      obtain ⟨bs, bq⟩ := b
      rcases f with _ | ⟨fs, fq⟩
      · obtain ⟨-, _, _, -, -, rfl⟩ := h
        exact ⟨_, _, rfl, rfl⟩
      · obtain ⟨-, _, _, _, _, -, rfl, -⟩ := h
        exact ⟨_, _, rfl, rfl⟩
    | _ =>
      simp only [Stmt.Framed] at h
      grind [Stmt.isVars]
  rcases hown : K.own with _ | o <;> simp only [Site.Reset, hown] at h
  · exact hframed h
  · split at h
    · obtain ⟨ss₁, h, rfl⟩ := h
      obtain ⟨x, xs, rfl, hx⟩ := hframed h
      exact ⟨x, _, rfl, hx⟩
    · exact hframed h

theorem dropEmptyVars_cons {s : Stmt} (h : s.isVars = false) (ss : List Stmt) :
    dropEmptyVars (s :: ss) = s :: ss := by
  cases s with
  | vars => cases h
  | _ => rfl

theorem Stmt.isVars_tidied_mapFuncs (F : Func → Func) (s : Stmt) :
    (Stmt.mapFuncs (m := Id) F s).tidied.isVars = s.isVars := by
  cases s with
  | block q b =>
    obtain ⟨bs, bq⟩ := b
    rfl
  | tryBlock q b cs f =>
    obtain ⟨bs, bq⟩ := b
    rcases f with _ | ⟨fs, fq⟩ <;> rfl
  | _ => rfl

theorem declsUnnoted_append (v : StackVars) (F : Func → Func) (es ds : List VarDecl) :
    declsUnnoted v new (declsWith F (ds ++ es)) =
      declsUnnoted v new (declsWith F ds) ++ declsUnnoted v new (declsWith F es) := by
  induction ds with
  | nil => rfl
  | cons d ds ih =>
    obtain ⟨s, e, p⟩ := d
    exact congrArg (List.cons _) ih

/-- What declares the variables of a frame has no initial values. -/
theorem declsUnnoted_declared (v : StackVars) (F : Func → Func) (q : Position) :
    ∀ declared : List SymbolId,
    declsUnnoted v new (declsWith F (declared.map (VarDecl.mk · none q))) = declared.map
    (VarDecl.mk · none q)
  | [] => rfl
  | s :: declared =>
    congrArg (List.cons (VarDecl.mk s none q)) (declsUnnoted_declared v F q declared)

/-- Declarators of the program keep their names. -/
theorem names_lt_of_framed {K : Site} (F : Func → Func) :
    ∀ (ds : List VarDecl) {ds' : List VarDecl}, declsFramed K ds ds' →
    ∀ d ∈ declsWith F ds, d.name.index < K.base
  | [], _, _ => fun _ hd => by cases hd
  | ⟨_, _, _⟩ :: ds, _, ⟨hs, _, _, _, hds, _⟩ =>
    List.forall_mem_cons.2 ⟨hs.1, names_lt_of_framed F ds hds⟩

/-- The declarators of a frame are taken out, and those of the program are not. -/
theorem filter_declared {es : List VarDecl} {declared : List SymbolId} {q : Position}
    (hes : ∀ d ∈ es, new d.name = false) (hdeclared : ∀ s ∈ declared, new s = true) :
    (es ++ declared.map (VarDecl.mk · none q)).filter (fun d => !new d.name) = es := by
  rw [List.filter_append, List.filter_eq_self.2 fun d hd => by simp [hes d hd],
    List.filter_eq_nil_iff.2 fun d hd => ?_, List.append_nil]
  obtain ⟨s, hs, rfl⟩ := List.mem_map.1 hd
  simp [hdeclared s hs]

/-- The body of a function is what it was, up to braces and an empty `var` statement in front. -/
theorem assembled_undone {o : Own} (ht : L.Tells (some o) new) {declared : List SymbolId}
    (hdeclared : ∀ s ∈ declared, new s = true) {s : Stmt} {ss ss' : List Stmt} {r : Place}
    (hframed : stmtsFramedAs ⟨L, some o⟩ (s :: ss) r ss')
    (hundone : stmtsUndone p L (some o) new (s :: ss) ss') (f : Func) :
    dropEmptyVars (stmtsTidied (undeclare new (stmtsUnframed L.vars new none
      (stmtsWith (p.restored L.vars) (assembled L.vars f o.index declared ss'))))) =
        dropEmptyVars (stmtsTidied (stmtsWith p.tidiedFunc (s :: ss))) := by
  have hindex : new o.index = true := ht.uses o _ rfl (.inl rfl)
  obtain ⟨tail, htail, hassembled⟩ : ∃ tail, stmtsUnframed L.vars new none
    (stmtsWith (p.restored L.vars) tail) = [] ∧
      assembled L.vars f o.index declared ss' =
        mergeVars f.pos (declared.map (VarDecl.mk · none f.pos))
        (afterVars (pushCode L.vars o.index f.name f.pos) ss' ++ tail) := by
    unfold assembled
    dsimp only
    split
    · exact ⟨[], rfl, by rw [List.append_nil]⟩
    · exact ⟨_, stmtsUnframed_upkeep (isUpkeep_pop hindex f.pos), rfl⟩
  rw [hassembled]
  obtain ⟨xs, hxs, hall⟩ := hundone
  replace hall := hall (stmtsWith (p.restored L.vars) tail)
  rw [htail, List.append_nil] at hall
  refine Eq.trans ?_ (congrArg dropEmptyVars hxs)
  obtain ⟨first, rest, hfirst, -, rfl⟩ := hframed
  -- The push goes behind a leading `var` statement, which gets the declarators, or stands first.
  cases hs : s.isVars with
  | true =>
    cases s with
    | vars q ds =>
      simp only [Site.Reset, Stmt.assignsWrapped, Bool.and_false] at hfirst
      obtain ⟨ds', hds, rfl⟩ := hfirst
      have hold : ∀ d ∈ declsWith p.tidiedFunc ds, new d.name = false := fun d hd =>
        ht.old _ (names_lt_of_framed p.tidiedFunc ds hds d hd)
      replace hall : .vars q (declsUnnoted L.vars new (declsWith (p.restored L.vars) ds')) ::
          stmtsUnframed L.vars new none (stmtsWith (p.restored L.vars) (rest ++ tail)) = xs := by
        rw [← hall, stmtsWith_append _ tail rest]
        refine Eq.symm ?_
        exact stmtsUnframed_kept rfl rfl
      subst hall
      have hdecls : declsUnnoted L.vars new (declsWith (p.restored L.vars) ds') =
          declsWith p.tidiedFunc ds :=
        (Stmt.vars.inj (List.cons.inj hxs).1).2
      have hleft : stmtsUnframed L.vars new none (stmtsWith (p.restored L.vars) (.vars q (ds' ++
          declared.map (VarDecl.mk · none f.pos)) :: pushCode L.vars o.index f.name
            f.pos :: (rest ++ tail))) =
            .vars q (declsWith p.tidiedFunc ds ++ declared.map (VarDecl.mk · none f.pos)) ::
              stmtsUnframed L.vars new none (stmtsWith (p.restored L.vars) (rest ++ tail)) := by
        refine (stmtsUnframed_kept rfl rfl).trans ?_
        rw [stmtsWith_push]
        show Stmt.vars q (declsUnnoted L.vars new (declsWith _ (ds' ++ _))) :: _ = _
        rw [declsUnnoted_append, declsUnnoted_declared, hdecls,
          stmtsUnframed_upkeep (isUpkeep_push hindex f.pos f.name)]
      refine (congrArg (fun ys => dropEmptyVars (stmtsTidied (undeclare new ys))) hleft).trans ?_
      rw [undeclare, filter_declared hold hdeclared, hdecls]
    | _ => cases hs
  | false =>
    obtain ⟨x, xs', rfl, hx⟩ := hfirst.not_vars hs
    have hleft : stmtsUnframed L.vars new none (stmtsWith (p.restored L.vars) (.vars f.pos
        (declared.map (VarDecl.mk · none f.pos)) :: pushCode L.vars o.index f.name f.pos ::
          (x :: xs' ++ rest ++ tail))) =
          .vars f.pos ([] ++ declared.map (VarDecl.mk · none f.pos)) :: xs := by
      refine (stmtsUnframed_kept rfl rfl).trans ?_
      rw [stmtsWith_push]
      show Stmt.vars f.pos (declsUnnoted L.vars new (declsWith _ _)) :: _ = _
      rw [declsUnnoted_declared, stmtsUnframed_upkeep (isUpkeep_push hindex f.pos f.name),
        stmtsWith_append, hall]
      rfl
    have hmerged : mergeVars f.pos (declared.map (VarDecl.mk · none f.pos))
        (afterVars (pushCode L.vars o.index f.name f.pos) (x :: xs' ++ rest) ++ tail) = .vars f.pos
          (declared.map (VarDecl.mk · none f.pos)) :: pushCode L.vars o.index f.name f.pos ::
            (x :: xs' ++ rest ++ tail) := by
      rw [List.cons_append, afterVars, hx]
      rfl
    rw [hmerged, hleft, undeclare, filter_declared (fun _ hd => by cases hd) hdeclared]
    show stmtsTidied xs = dropEmptyVars (stmtsTidied xs)
    rw [hxs]
    exact (dropEmptyVars_cons ((s.isVars_tidied_mapFuncs _).trans hs) _).symm

mutual

theorem Expr.undone (hL : L.Rewrites p) (hnew : L.Marked p) :
    ∀ (e : Expr) {own : Option Own} {new : SymbolId → Bool} {e' : Expr}, L.Tells own new →
    e.Framed ⟨L, own⟩ e' → Expr.unnoted L.vars new (e'.mapFuncs (m := Id) (p.restored L.vars)) =
      e.mapFuncs (m := Id) p.tidiedFunc
  | .var p s, _, _, _, _, ⟨_, rfl⟩ => rfl
  | .bare p n, _, _, _, _, rfl => rfl
  | .member p q n, _, _, _, ht, ⟨_, q', hq, rfl⟩ =>
    congrArg (Expr.member p · n) (hq.undone ht (q.undone hL hnew ht))
  | .index p a i, _, _, _, ht, ⟨a', i', ha, hi, rfl⟩ =>
    congrArg₂ (Expr.index p) (ha.undone ht (a.undone hL hnew ht))
      (hi.undone ht (i.undone hL hnew ht))
  | .call p f as, _, _, _, ht, ⟨f', as', hf, has, rfl⟩ =>
    congrArg₂ (Expr.call p) (f.undone hL hnew ht hf) (exprs_undone hL hnew as ht has)
  | .new p f as, _, _, _, ht, ⟨f', as', hf, has, rfl⟩ =>
    congrArg₂ (Expr.new p) (hf.undone ht (f.undone hL hnew ht)) (exprs_undone hL hnew as ht has)
  | .prefixed p op x, _, _, _, ht, ⟨_, x', hx, rfl⟩ => by
    refine congrArg (Expr.prefixed p op) ?_
    split at hx
    · exact hx.undone ht (x.undone hL hnew ht)
    · exact x.undone hL hnew ht hx
  | .postfixed p op x, _, _, _, ht, ⟨_, x', hx, rfl⟩ =>
    congrArg (Expr.postfixed p op) (x.undone hL hnew ht hx)
  | .binary q op l r, own, new, _, ht, ⟨_, l', r', hl, hr, rfl⟩ => by
    have hnative : Site.Native ⟨L, own⟩ (p.restored L.vars)
        (l'.mapFuncs (m := Id) (p.restored L.vars)) := by
      split at hl
      · exact .of_framed hl
      · exact hl.native
    have hl' : Expr.unnoted L.vars new (l'.mapFuncs (m := Id) (p.restored L.vars)) =
        l.mapFuncs (m := Id) p.tidiedFunc := by
      split at hl
      · exact l.undone hL hnew ht hl
      · exact hl.undone ht (l.undone hL hnew ht)
    show Expr.unnoted L.vars new
        (.binary q op (l'.mapFuncs (m := Id) _) (r'.mapFuncs (m := Id) _)) = _
    rw [Expr.unnoted, hnative.isNote ht.old, Bool.and_false, hl',
      hr.undone ht (r.undone hL hnew ht)]
    rfl
  | .cond p c t f, _, _, _, ht, ⟨c', t', f', hc, hT, hf, rfl⟩ => by
    show Expr.cond p (Expr.unnoted _ _ (c'.mapFuncs (m := Id) _))
        (Expr.unnoted _ _ (t'.mapFuncs (m := Id) _))
      (Expr.unnoted _ _ (f'.mapFuncs (m := Id) _)) = _
    rw [hc.undone ht (c.undone hL hnew ht), hT.undone ht (t.undone hL hnew ht),
      hf.undone ht (f.undone hL hnew ht)]
    rfl
  | .literal p l, _, _, _, _, rfl => rfl
  | .array p es, _, _, _, ht, ⟨es', hes, rfl⟩ =>
    congrArg (Expr.array p) (exprs_undone hL hnew es ht hes)
  | .object p ps, _, _, _, ht, ⟨ps', hps, rfl⟩ =>
    congrArg (Expr.object p) (properties_undone hL hnew ps ht hps)
  | .func q f, _, _, _, _, ⟨_, f', hf, rfl⟩ => congrArg (Expr.func q) (f.undone hL hnew hf)
termination_by structural e => e

theorem exprs_undone (hL : L.Rewrites p) (hnew : L.Marked p) :
    ∀ (es : List Expr) {own : Option Own} {new : SymbolId → Bool} {es' : List Expr},
    L.Tells own new → exprsFramed ⟨L, own⟩ es es' →
      exprsUnnoted L.vars new (exprsMapFuncs (m := Id) (p.restored L.vars) es') =
        exprsMapFuncs (m := Id) p.tidiedFunc es
  | [], _, _, _, _, rfl => rfl
  | e :: es, _, _, _, ht, ⟨e', rest, he, hes, rfl⟩ =>
    congrArg₂ List.cons (he.undone ht (e.undone hL hnew ht)) (exprs_undone hL hnew es ht hes)
termination_by structural es => es

theorem properties_undone (hL : L.Rewrites p) (hnew : L.Marked p) :
    ∀ (ps : List Property) {own : Option Own} {new : SymbolId → Bool} {ps' : List Property},
    L.Tells own new → propertiesFramed ⟨L, own⟩ ps ps' →
      propertiesUnnoted L.vars new (propertiesMapFuncs (m := Id) (p.restored L.vars) ps') =
        propertiesMapFuncs (m := Id) p.tidiedFunc ps
  | [], _, _, _, _, rfl => rfl
  | ⟨k, e⟩ :: ps, _, _, _, ht, ⟨e', rest, he, hps, rfl⟩ =>
    congrArg₂ (fun x y => Property.mk k x :: y) (he.undone ht (e.undone hL hnew ht))
      (properties_undone hL hnew ps ht hps)
termination_by structural ps => ps

theorem expr?_undone (hL : L.Rewrites p) (hnew : L.Marked p) :
    ∀ (e : Option Expr) {own : Option Own} {new : SymbolId → Bool} {e' : Option Expr},
    L.Tells own new → exprFramed? ⟨L, own⟩ e e' →
      Option.map (Expr.unnoted L.vars new) (exprMapFuncs? (m := Id) (p.restored L.vars) e') =
        exprMapFuncs? (m := Id) p.tidiedFunc e
  | none, _, _, _, _, rfl => rfl
  | some e, _, _, _, ht, ⟨e', he, rfl⟩ => congrArg some (he.undone ht (e.undone hL hnew ht))
termination_by structural e => e

theorem decls_undone (hL : L.Rewrites p) (hnew : L.Marked p) :
    ∀ (ds : List VarDecl) {own : Option Own} {new : SymbolId → Bool} {ds' : List VarDecl},
    L.Tells own new → declsFramed ⟨L, own⟩ ds ds' →
      declsUnnoted L.vars new (declsMapFuncs (m := Id) (p.restored L.vars) ds') =
        declsMapFuncs (m := Id) p.tidiedFunc ds
  | [], _, _, _, _, rfl => rfl
  | ⟨s, e, q⟩ :: ds, _, _, _, ht, ⟨_, e', rest, he, hds, rfl⟩ =>
    congrArg₂ (fun x y => VarDecl.mk s x q :: y) (expr?_undone hL hnew e ht he)
      (decls_undone hL hnew ds ht hds)
termination_by structural ds => ds

theorem forInit_undone (hL : L.Rewrites p) (hnew : L.Marked p) :
    ∀ (i : Option ForInit) {own : Option Own} {new : SymbolId → Bool} {i' : Option ForInit},
    L.Tells own new → forInitFramed ⟨L, own⟩ i i' →
      forInitUnnoted L.vars new (forInitMapFuncs (m := Id) (p.restored L.vars) i') =
        forInitMapFuncs (m := Id) p.tidiedFunc i
  | none, _, _, _, _, rfl => rfl
  | some (.vars ds), _, _, _, ht, ⟨ds', hds, rfl⟩ =>
    congrArg (fun x => some (ForInit.vars x)) (decls_undone hL hnew ds ht hds)
  | some (.expr e), _, _, _, ht, ⟨e', he, rfl⟩ =>
    congrArg (fun x => some (ForInit.expr x)) (he.undone ht (e.undone hL hnew ht))
termination_by structural i => i

theorem Stmt.undone (hL : L.Rewrites p) (hnew : L.Marked p) :
    ∀ (s : Stmt) {own : Option Own} {new : SymbolId → Bool} {r : Place} {ss' : List Stmt},
    L.Tells own new → s.Framed ⟨L, own⟩ r ss' → s.Undone p L own new ss'
  | .expr q e, own, new, r, _, ht, ⟨e', he, rfl⟩ => by
    have hnative := he.native (F := p.restored L.vars)
    refine .single (hnative.isUpkeep ht.old q) (hnative.aside? ht.old q) ?_
    show Stmt.Same own (.expr q (Expr.unnoted _ _ (e'.mapFuncs (m := Id) _))) _
    rw [he.undone ht (e.undone hL hnew ht)]
    exact .rfl
  | .vars q ds, own, new, r, _, ht, ⟨ds', hds, rfl⟩ => by
    refine .single rfl rfl ?_
    show Stmt.Same own (.vars q (declsUnnoted _ _ (declsMapFuncs (m := Id) _ ds'))) _
    rw [decls_undone hL hnew ds ht hds]
    exact .rfl
  | .ret q e, own, new, r, _, ht, ⟨e', he, h⟩ => .returned ht he (expr?_undone hL hnew e ht he) h
  | .raise q e, own, new, r, _, ht, ⟨e', he, rfl⟩ => by
    refine .single rfl rfl ?_
    show Stmt.Same own (.raise q (Expr.unnoted _ _ (e'.mapFuncs (m := Id) _))) _
    rw [he.undone ht (e.undone hL hnew ht)]
    exact .rfl
  | .branch q t yes no, own, new, r, _, ht, ⟨t', yes', no', hT, hyes, hno, rfl⟩ => by
    refine .single rfl rfl ?_
    show Stmt.Same own (.branch q (Expr.unnoted _ _ (t'.mapFuncs (m := Id) _))
      (Stmt.unframed _ _ none (yes'.mapFuncs (m := Id) _))
        (stmtUnframed? _ _ (stmtMapFuncs? (m := Id) _ no'))) _
    rw [hT.undone ht (t.undone hL hnew ht)]
    exact .branch (.undone ht hyes (yes.undone hL hnew ht)) (stmt?_undone hL hnew no ht hno)
  | .whileLoop q t b, own, new, r, _, ht, ⟨t', b', hT, hb, rfl⟩ => by
    refine .single rfl rfl ?_
    show Stmt.Same own (.whileLoop q (Expr.unnoted _ _ (t'.mapFuncs (m := Id) _))
      (Stmt.unframed _ _ none (b'.mapFuncs (m := Id) _))) _
    rw [hT.undone ht (t.undone hL hnew ht)]
    exact .whileLoop (.undone ht hb (b.undone hL hnew ht))
  | .doWhile q b t, own, new, r, _, ht, ⟨b', t', hb, hT, rfl⟩ => by
    refine .single rfl rfl ?_
    show Stmt.Same own (.doWhile q (Stmt.unframed _ _ none (b'.mapFuncs (m := Id) _))
      (Expr.unnoted _ _ (t'.mapFuncs (m := Id) _))) _
    rw [hT.undone ht (t.undone hL hnew ht)]
    exact .doWhile (.undone ht hb (b.undone hL hnew ht))
  | .forLoop q i t n b, own, new, r, _, ht, ⟨i', t', n', b', hi, hT, hn, hb, rfl⟩ => by
    refine .single rfl rfl ?_
    show Stmt.Same own (.forLoop q (forInitUnnoted _ _ (forInitMapFuncs (m := Id) _ i'))
      (Option.map (Expr.unnoted _ _) (exprMapFuncs? (m := Id) _ t'))
      (Option.map (Expr.unnoted _ _) (exprMapFuncs? (m := Id) _ n'))
      (Stmt.unframed _ _ none (b'.mapFuncs (m := Id) _))) _
    rw [forInit_undone hL hnew i ht hi, expr?_undone hL hnew t ht hT, expr?_undone hL hnew n ht hn]
    exact .forLoop (.undone ht hb (b.undone hL hnew ht))
  | .forIn q k declared o b, own, new, r, _, ht, ⟨_, o', b', ho, hb, rfl⟩ => by
    refine .single rfl rfl ?_
    show Stmt.Same own (.forIn q k declared (Expr.unnoted _ _ (o'.mapFuncs (m := Id) _))
      (Stmt.unframed _ _ none (b'.mapFuncs (m := Id) _))) _
    rw [ho.undone ht (o.undone hL hnew ht)]
    exact .forIn (.undone ht hb (b.undone hL hnew ht))
  | .block q ⟨ss, bq⟩, own, new, r, _, ht, ⟨ss', hss, rfl⟩ =>
    .single rfl rfl (.block (stmts_undone hL hnew ss ht hss).same)
  | .tryBlock q ⟨ss, bq⟩ cs none, own, new, r, _, ht, ⟨_, ss', cs', hss, hcs, rfl⟩ =>
    .single rfl rfl
      (.tryCatch (stmts_undone hL hnew ss ht hss).same (catches_undone hL hnew cs ht hcs))
  | .tryBlock q ⟨ss, bq⟩ cs (some ⟨fs, fq⟩), own, new, r, _, ht,
      ⟨_, ss', cs', fs', f', hfs, rfl, h⟩ => by
    refine .single rfl rfl ?_
    rcases own with _ | o
    · obtain ⟨hss, hcs, rfl⟩ := h
      exact .tryFinally (stmts_undone hL hnew ss ht hss).same (catches_undone hL hnew cs ht hcs)
        (stmts_undone hL hnew fs ht hfs).same
    · rcases hexit : r.exit with _ | flag <;> simp only [hexit] at h
      · obtain ⟨flag, hss, hf, hcs⟩ := h
        obtain ⟨gs, rfl, hgs⟩ := hf.undone ht (stmts_undone hL hnew fs ht hfs)
        refine .tryFinally (stmts_undone hL hnew ss ht hss).same ?_ hgs
        cases cs with
        | nil =>
          obtain ⟨e, sc, he, -, -, rfl⟩ := hcs
          show catchesTidied (catchesUnframed L.vars new [⟨e, sc, ⟨_, _⟩, q⟩]) = []
          rw [catchesUnframed, ht.fresh o rfl e he]
          rfl
        | cons c cs => exact catches_undone hL hnew (c :: cs) ht hcs
      · obtain ⟨hss, hcs, rfl⟩ := h
        exact .tryFinally (stmts_undone hL hnew ss ht hss).same (catches_undone hL hnew cs ht hcs)
          (stmts_undone hL hnew fs ht hfs).same
  | .labeled q l b, own, new, r, _, ht, ⟨b', hb, rfl⟩ =>
    .single rfl rfl (.labeled (.undone ht hb (b.undone hL hnew ht)))
  | .breakTo q l, own, new, r, _, ht, rfl => .single rfl rfl .rfl
  | .continueTo q l, own, new, r, _, ht, rfl => .single rfl rfl .rfl
  | .switch q d cs, own, new, r, _, ht, ⟨d', cs', hd, hcs, rfl⟩ => by
    refine .single rfl rfl ?_
    show Stmt.Same own (.switch q (Expr.unnoted _ _ (d'.mapFuncs (m := Id) _))
      (casesUnframed _ _ (casesMapFuncs (m := Id) _ cs'))) _
    rw [hd.undone ht (d.undone hL hnew ht)]
    exact .switch (cases_undone hL hnew cs ht hcs)
  | .empty q, own, new, r, _, ht, rfl => .single rfl rfl .rfl
termination_by structural s => s

theorem stmts_undone (hL : L.Rewrites p) (hnew : L.Marked p) :
    ∀ (ss : List Stmt) {own : Option Own} {new : SymbolId → Bool} {r : Place} {ss' : List Stmt},
    L.Tells own new → stmtsFramedAs ⟨L, own⟩ ss r ss' → stmtsUndone p L own new ss ss'
  | [], own, new, r, _, ht, rfl => ⟨[], .nil, fun _ => rfl⟩
  | s :: ss, own, new, r, _, ht, ⟨first, rest, hfirst, hrest, rfl⟩ => by
    obtain ⟨x, hx, hfirst⟩ := Stmt.Undone.reset ht hfirst (s.undone hL hnew ht)
    obtain ⟨xs, hxs, hrest⟩ := stmts_undone hL hnew ss ht hrest
    refine ⟨x :: xs, .cons hx hxs, fun more => ?_⟩
    rw [stmtsWith_append, List.append_assoc, hfirst, hrest]
    rfl
termination_by structural ss => ss

theorem stmt?_undone (hL : L.Rewrites p) (hnew : L.Marked p) :
    ∀ (s : Option Stmt) {own : Option Own} {new : SymbolId → Bool} {r : Place} {s' : Option Stmt},
    L.Tells own new → stmtFramedAs? ⟨L, own⟩ s r s' →
      stmtSame? own (stmtUnframed? L.vars new (stmtMapFuncs? (m := Id) (p.restored L.vars) s'))
        (stmtMapFuncs? (m := Id) p.tidiedFunc s)
  | none, own, new, r, _, ht, rfl => by
    cases own <;> rfl
  | some s, own, new, r, _, ht, ⟨s', hs, rfl⟩ => .some (.undone ht hs (s.undone hL hnew ht))
termination_by structural s => s

theorem catches_undone (hL : L.Rewrites p) (hnew : L.Marked p) :
    ∀ (cs : List Catch) {own : Option Own} {new : SymbolId → Bool} {r : Place} {cs' : List Catch},
    L.Tells own new → catchesFramedAs ⟨L, own⟩ cs r cs' →
      catchesSame own
        (catchesUnframed L.vars new (catchesMapFuncs (m := Id) (p.restored L.vars) cs'))
        (catchesMapFuncs (m := Id) p.tidiedFunc cs)
  | [], own, new, r, _, ht, rfl => by
    cases own <;> rfl
  | ⟨s, sc, ⟨ss, q⟩, pos⟩ :: cs, own, new, r, _, ht, ⟨hs, ss', rest, hss, hcs, rfl⟩ => by
    show catchesSame own
        (catchesUnframed L.vars new
          (⟨s, sc, ⟨stmtsMapFuncs (m := Id) _ ss', q⟩, pos⟩ :: catchesMapFuncs (m := Id) _ rest)) _
    rw [catchesUnframed, ht.old s hs.1]
    exact .cons (stmts_undone hL hnew ss ht hss).same (catches_undone hL hnew cs ht hcs)
termination_by structural cs => cs

theorem cases_undone (hL : L.Rewrites p) (hnew : L.Marked p) :
    ∀ (cs : List SwitchCase) {own : Option Own} {new : SymbolId → Bool} {r : Place}
    {cs' : List SwitchCase}, L.Tells own new → casesFramedAs ⟨L, own⟩ cs r cs' →
      casesSame own (casesUnframed L.vars new (casesMapFuncs (m := Id) (p.restored L.vars) cs'))
        (casesMapFuncs (m := Id) p.tidiedFunc cs)
  | [], own, new, r, _, ht, rfl => by
    cases own <;> rfl
  | ⟨t, ss⟩ :: cs, own, new, r, _, ht, ⟨t', ss', rest, hT, hss, hcs, rfl⟩ => by
    show casesSame own (⟨Option.map (Expr.unnoted _ _) (exprMapFuncs? (m := Id) _ t'),
      stmtsUnframed L.vars new none (stmtsMapFuncs (m := Id) _ ss')⟩ ::
        casesUnframed L.vars new (casesMapFuncs (m := Id) _ rest)) _
    rw [expr?_undone hL hnew t ht hT]
    exact .cons (stmts_undone hL hnew ss ht hss).same (cases_undone hL hnew cs ht hcs)
termination_by structural cs => cs

theorem Func.undone (hL : L.Rewrites p) (hnew : L.Marked p) :
    ∀ (f : Func) {f' : Func}, L.pairs f f' →
    (f'.mapFuncs (m := Id) (p.restored L.vars)) = f.mapFuncs (m := Id) p.tidiedFunc
  | ⟨n, ps, ⟨ss, q⟩, sc, pos⟩, ⟨_, _, ⟨ss', _⟩, _, _⟩, h => by
    obtain ⟨hname, hparams, hscope, hpos, hbpos, hbody⟩ := hL _ _ h
    simp only at hname hparams hscope hpos hbpos hbody
    subst hname hparams hscope hpos hbpos
    show p.restored L.vars ⟨_, _, ⟨stmtsWith _ ss', _⟩, _, _⟩ =
        p.tidiedFunc ⟨_, _, ⟨stmtsWith _ ss, _⟩, _, _⟩
    rcases hbody with ⟨hover, hplain⟩ | ⟨hover, own, declared, ss₁, hown, hframed, rfl⟩
    · have ht : L.Tells none fun _ => false :=
        ⟨fun _ _ => rfl, rfl, (fun _ h => by cases h), fun _ _ h => by cases h⟩
      have hsame := (stmts_undone hL hnew ss ht hplain).same
      rw [stmtsUnframed_nothing] at hsame
      rw [show stmtsWith _ ss' = stmtsWith p.tidiedFunc ss from hsame, Program.restored,
        Program.tidiedFunc, p.passesOver_with, if_pos hover, if_pos hover]
    · have ht : L.Tells (some own) (p.isAdded L.vars) :=
        .of_apart hnew (by simp [Program.isAdded, StackVars.Uses]) hown
      cases ss with
      | nil => cases hover
      | cons s ss =>
        have hbody := assembled_undone ht (fun t hT => (hnew t).2 (hown.fresh t hT).1) hframed
          (stmts_undone hL hnew (s :: ss) ht hframed)
        rw [Program.restored, Program.tidiedFunc, p.passesOver_with, p.passesOver_with, hover,
          Program.passesOver_assembled hover]
        exact congrArg (fun xs => Func.mk _ _ ⟨xs, _⟩ _ _) (hbody _)
termination_by structural f => f

end

end Undone

end FrameLedger
