import FrameLedger.Proofs.Recovered
import FrameLedger.Proofs.Standings

/-!
# Placing the code for leaving a function

The flags are handed out as a function is worked on, so what is known is known of a stretch of that
work (`Exits.Settles`): which flags it hands out, by the statements it works on, and that these
become what they should, if the flags are those that there are in the end. Stretches are put
together in the order of the text.
-/

namespace FrameLedger

open Draft

/-! ## Lists of standings -/

namespace Roster

variable {f g h : Roster}

theorem append_apply (f g : Roster) (n : Nat) :
    (f ++ g) n = f n ++ g (n + (f n).countP Standing.isOutermost) := rfl

theorem append_nil (f : Roster) : f ++ nil = f := funext fun n => List.append_nil (f n)

theorem nil_append (f : Roster) : nil ++ f = f := rfl

theorem append_assoc (f g h : Roster) : f ++ g ++ h = f ++ (g ++ h) := by
  funext n
  simp only [append_apply, List.append_assoc, List.countP_append, Nat.add_assoc]

theorem one_append {around : List Layer} {before after : Option Stmt} {s : Stmt} (f : Roster)
    (n : Nat) :
    let a : Standing := ⟨n, around, before, s, after⟩
    (one around before s after ++ f) n = a :: f (n + a.isOutermost.toNat) := by
  intro a
  show [a] ++ f (n + [a].countP Standing.isOutermost) = _
  rw [List.countP_singleton]
  cases a.isOutermost <;> rfl

end Roster

section Lists

variable {around : List Layer} {before last : Option Stmt}

theorem stmtsStandings_append (xs ys : List Stmt) : stmtsStandings around before last (xs ++ ys) =
    stmtsStandings around before (ys.head?.or last) xs ++ stmtsStandings around
      (xs.getLast?.or before) last ys := by
  induction xs generalizing before with
  | nil => rfl
  | cons x xs ih =>
    have hhead : ((xs ++ ys).head?.or last) = xs.head?.or (ys.head?.or last) := by cases xs <;> simp
    have hlast : ((x :: xs).getLast?.or before) = xs.getLast?.or (some x) := by
      rw [List.getLast?_cons]
      cases xs.getLast? <;> rfl
    rw [List.cons_append, stmtsStandings, ih, hhead, stmtsStandings, hlast, Roster.append_assoc]

theorem stmtsStandings_singleton (s : Stmt) :
    stmtsStandings around before last [s] = s.standings around before last := by
  rw [stmtsStandings, stmtsStandings, Roster.append_nil]
  rfl

theorem standings_oneStmt (p : Position) (ss : List Stmt) :
    (oneStmt p ss).standings around none none = stmtsStandings around none none ss := by
  rcases ss with _ | ⟨s, _ | ⟨t, ss⟩⟩
  · rfl
  · exact (stmtsStandings_singleton s).symm
  · rfl

end Lists

/-! ## Symbols that were added -/

namespace ScopeTable

variable {t : ScopeTable} {lo : Nat} {short : String}

theorem namedSince_addSymbol (hlo : lo ≤ t.symbols.size) (x : Symbol) :
    (t.addSymbol x).2.namedSince lo short =
    t.namedSince lo short ++ if x.shortIdent = short then [⟨t.symbols.size⟩] else [] := by
  have hdrop : (t.addSymbol x).2.symbols.toList.drop lo = t.symbols.toList.drop lo ++ [x] := by
    simp only [addSymbol, Array.toList_push]
    exact List.drop_append_of_le_length (by simpa using hlo)
  have hlength : lo + (t.symbols.toList.drop lo).length = t.symbols.size := by
    simp only [List.length_drop, Array.length_toList]
    omega
  rw [namedSince, hdrop, List.zipIdx_append, hlength, List.filter_append, List.map_append,
    namedSince]
  by_cases h : x.shortIdent = short <;> simp [h]

theorem le_of_mem_namedSince {s : SymbolId} (h : s ∈ t.namedSince lo short) : lo ≤ s.index := by
  obtain ⟨x, hx, rfl⟩ := List.mem_map.1 h
  exact (List.mem_zipIdx (List.mem_of_mem_filter hx)).1

theorem nodup_namedSince : (t.namedSince lo short).Nodup := by
  refine List.Nodup.sublist (List.filter_sublist.map _) ?_
  have hmap (xs : List Symbol) : (xs.zipIdx lo).map (fun x => (⟨x.2⟩ : SymbolId)) =
      (List.range' lo xs.length).map SymbolId.mk := by
    rw [← List.zipIdx_map_snd, List.map_map]
    rfl
  rw [hmap]
  exact List.Nodup.map (fun _ _ h => congrArg SymbolId.index h) List.nodup_range'

end ScopeTable

/-! ## The program's own expressions -/

/-- A node that refers to none of the symbols from `lo` on. -/
def Node.Below (lo : Nat) (n : Node) : Prop := ∀ s, n.var? = some s → s.index < lo

namespace Exits

variable {E : Exits}

/-- An expression that is not taken for frame code: where that is told by a variable, the variable
is not new. -/
def Native (E : Exits) : Expr → Prop
  | .var _ s => E.new s = false
  | .index _ a i => Native E a ∧ Native E i
  | .binary _ .comma l r => (∀ p, Stmt.flag? E.new (.expr p l) = none) ∧ Native E r
  | .binary _ _ l r => Native E l ∧ Native E r
  | _ => True

namespace Native

theorem flag? {e : Expr} (h : E.Native e) (p : Position) : Stmt.flag? E.new (.expr p e) = none := by
  unfold Stmt.flag?
  split
  · next heq =>
    obtain ⟨-, rfl⟩ := Stmt.expr.inj heq
    rw [show E.new _ = false from h.1]
    rfl
  · rfl

theorem binary {p : Position} {op : BinaryOp} {l r : Expr} (hl : E.Native l) (hr : E.Native r) :
    E.Native (.binary p op l r) := by
  cases op with
  | comma => exact ⟨hl.flag?, hr⟩
  | _ => exact ⟨hl, hr⟩

theorem isReset {e : Expr} (h : E.Native e) : e.isReset E.vars E.new = false := by
  unfold Expr.isReset
  split
  · rw [show E.new _ = false from h.2, Bool.and_false]
  · rfl

theorem isPop {e : Expr} (h : E.Native e) : e.isPop E.vars E.new = false := by
  unfold Expr.isPop
  split
  · rw [show E.new _ = false from h.2.1, Bool.and_false, Bool.false_and]
  · rfl

theorem isUpkeep {e : Expr} (h : E.Native e) (p : Position) :
    (Stmt.expr p e).isUpkeep E.vars E.new = false := by
  have hpush : e.isPush E.vars E.new = false := by
    unfold Expr.isPush
    split
    · rw [show E.new _ = false from h.1.2.1, Bool.and_false, Bool.false_and]
    · rfl
  have hguarded : e.isGuardedPop E.vars E.new = false := by
    unfold Expr.isGuardedPop
    split
    · rw [show E.new _ = false from h.1, Bool.false_and]
    · rfl
  rw [Stmt.isUpkeep, hpush, h.isPop, h.isReset, hguarded]
  rfl

theorem aside? {e : Expr} (h : E.Native e) (p : Position) :
    (Stmt.expr p e).aside? E.new = none := by
  unfold Stmt.aside?
  split
  · next heq =>
    obtain ⟨-, rfl⟩ := Stmt.expr.inj heq
    rw [show E.new _ = false from h.1]
    rfl
  · rfl

theorem isAdded {e : Expr} (h : E.Native e) (p : Position) :
    (Stmt.expr p e).isAdded E.vars E.new = false := by
  rw [Stmt.isAdded, h.isUpkeep, h.aside?]
  · rfl
  · rintro _ _ _ ⟨⟩

theorem isAdded_raise {e : Expr} (h : E.Native e) (p : Position) :
    (Stmt.raise p e).isAdded E.vars E.new = false := by
  unfold Stmt.isAdded
  split
  · next heq =>
    obtain ⟨-, rfl⟩ := Stmt.raise.inj heq
    exact h
  · rfl

theorem exiting : ∀ {e : Expr}, E.Native e → e.exiting E.new = []
  | .binary p op l r, h => by
    unfold Expr.exiting
    split
    · next heq =>
      obtain ⟨rfl, rfl, rfl, rfl⟩ := Expr.binary.inj heq
      rw [h.1, exiting h.2]
      rfl
    · rfl
  | .var .., _ | .bare .., _ | .member .., _ | .index .., _ | .call .., _ | .new .., _
  | .prefixed .., _
  | .postfixed .., _ | .cond .., _ | .literal .., _ | .array .., _ | .object .., _ | .func .., _ =>
    rfl

theorem of_nodes : ∀ e : Expr, (∀ n ∈ e.nodes, n.Below E.base) → E.Native e
  | .var _ s, h => by
    have := h _ (List.mem_singleton.2 rfl) s rfl
    simp [Native, new, this]
  | .index _ a i, h => by
    obtain ⟨ha, hi⟩ := List.forall_mem_append.1 (List.forall_mem_cons.1 h).2
    exact ⟨of_nodes a ha, of_nodes i hi⟩
  | .binary _ _ l r, h => by
    obtain ⟨hl, hr⟩ := List.forall_mem_append.1 (List.forall_mem_cons.1 h).2
    exact .binary (of_nodes l hl) (of_nodes r hr)
  | .bare .., _ | .member .., _ | .call .., _ | .new .., _ | .prefixed .., _
  | .postfixed .., _ | .cond .., _ | .literal .., _ | .array .., _ | .object .., _ | .func .., _ =>
    trivial

/-- A note in front of an expression is no frame code by itself. -/
theorem record {e : Expr} (h : E.Native e) (u : Usage) (d : Draft) :
    E.Native ((record u e).run d).1 := by
  rw [Draft.record, StateT.run_bind, StateT.run_get, pure_bind]
  split
  · exact h
  · split
    · exact h
    · exact ⟨fun _ => rfl, h⟩

/-- Noting locations makes no frame code of an expression. -/
theorem located : ∀ (e : Expr) (u : Usage) (d : Draft), (∀ n ∈ e.nodes, n.Below E.base) →
    E.Native ((e.located u).run d).1
  | .index p a i, u, d, h => by
    obtain ⟨ha, hi⟩ := List.forall_mem_append.1 (List.forall_mem_cons.1 h).2
    rw [Expr.located]
    refine record ?_ u _
    exact ⟨located a .value d ha, located i .value _ hi⟩
  | .binary p op l r, u, d, h => by
    obtain ⟨hl, hr⟩ := List.forall_mem_append.1 (List.forall_mem_cons.1 h).2
    have hboth (lu : Usage) (d : Draft) : E.Native (.binary p op ((l.located lu).run d).1
      ((r.located .value).run ((l.located lu).run d).2).1) :=
        .binary (located l lu d hl) (located r .value _ hr)
    rw [Expr.located]
    cases op.isAssignment with
    | true => exact record (hboth _ _) u _
    | false => exact hboth _ _
  | .var _ s, u, d, h => record (.of_nodes _ h) u d
  | .bare .., u, d, h => record (.of_nodes _ h) u d
  | .member .., u, d, _ | .call .., u, d, _ | .new .., u, d, _ | .prefixed .., u, d, _
  | .postfixed .., u, d, _ => by
    rw [Expr.located]
    refine record ?_ u _
    trivial
  | .cond .., _, _, _ | .literal .., _, _, _ | .array .., _, _, _ | .object .., _, _, _
  | .func .., _, _, _ => by
    rw [Expr.located]
    trivial

theorem locate {e : Expr} (h : ∀ n ∈ e.nodes, n.Below E.base) (d : Draft) :
    E.Native ((locate e).run d).1 := by
  rw [Draft.locate, StateT.run_bind, StateT.run_get, pure_bind]
  split
  · exact .of_nodes e h
  · exact located e .value d h

theorem locate? {e : Option Expr} (h : ∀ n ∈ exprNodes? e, n.Below E.base) (d : Draft) :
    ∀ x, ((Draft.locate? e).run d).1 = some x → E.Native x := by
  cases e with
  | none => nofun
  | some e => exact fun x hx => Option.some.inj hx ▸ locate h d

end Native

end Exits

/-! ## Work that declares nothing -/

namespace Draft

variable {α β : Type} {i : SymbolId} {d : Draft}

/-- Work that leaves the variables of a frame as they are, once it has its index. -/
def Still (i : SymbolId) (x : StateM Draft α) : Prop :=
  ∀ d : Draft, d.locals.frameIndex = some i → (x.run d).2.locals = d.locals

namespace Still

variable {x : StateM Draft α} {f : α → StateM Draft β}

theorem pure (a : α) : Still i (pure a : StateM Draft α) := fun _ _ => rfl

theorem bind (hx : Still i x) (hf : ∀ a, Still i (f a)) : Still i (x >>= f) := fun d hd => by
  have h := hx d hd
  exact (hf (x.run d).1 (x.run d).2 (h ▸ hd)).trans h

theorem get_bind {f : Draft → StateM Draft β} (h : ∀ d, Still i (f d)) : Still i (get >>= f) :=
  fun d hd => h d d hd

theorem frameIndex : Still i frameIndex :=
  fun _ hd => congrArg (·.2.locals) (run_frameIndex_some hd)

theorem count (s : Stats) : Still i (count s) := fun _ _ => rfl

theorem forget : Still i forget := fun _ _ => rfl

theorem forgetIf (b : Bool) : Still i (forgetIf b) := by
  cases b with
  | true => exact forget
  | false => exact pure ()

theorem record (u : Usage) (e : Expr) : Still i (record u e) := by
  refine get_bind fun d => ?_
  split
  · exact pure e
  · split
    · exact pure e
    · refine bind (fun _ _ => rfl) fun _ => frameIndex.bind fun _ => (count _).bind fun _ => pure _

mutual

theorem located : ∀ (e : Expr) (u : Usage), Still i (e.located u)
  | .var .., u | .bare .., u => by
    rw [Expr.located]
    exact record u _
  | .member _ q _, u => by
    rw [Expr.located]
    exact (located q .value).bind fun _ => record u _
  | .index _ a j, u => by
    rw [Expr.located]
    exact (located a .value).bind fun _ => (located j .value).bind fun _ => record u _
  | .call _ f as, u => by
    rw [Expr.located]
    exact (located f .reference).bind fun _ => (exprsLocated as).bind fun _ => record u _
  | .new _ f as, u => by
    rw [Expr.located]
    exact (located f .value).bind fun _ => (exprsLocated as).bind fun _ => record u _
  | .prefixed _ op x, u => by
    rw [Expr.located]
    exact (located x op.usage).bind fun _ => record u _
  | .postfixed _ _ x, u => by
    rw [Expr.located]
    exact (located x .target).bind fun _ => record u _
  | .binary _ op l r, u => by
    rw [Expr.located]
    refine (located l _).bind fun _ => (located r .value).bind fun _ => ?_
    cases op.isAssignment with
    | true => exact record u _
    | false => exact pure _
  | .cond _ c t e, _ => by
    rw [Expr.located]
    exact (located c .value).bind fun _ => (located t .value).bind fun _ =>
      (located e .value).bind fun _ => pure _
  | .array _ es, _ => by
    rw [Expr.located]
    exact (exprsLocated es).bind fun _ => pure _
  | .object _ ps, _ => by
    rw [Expr.located]
    exact (propertiesLocated ps).bind fun _ => pure _
  | .literal .., _ | .func .., _ => by
    rw [Expr.located]
    exact pure _

theorem exprsLocated : ∀ es : List Expr, Still i (exprsLocated es)
  | [] => pure _
  | e :: es => by
    rw [FrameLedger.exprsLocated]
    exact (located e .value).bind fun _ => (exprsLocated es).bind fun _ => pure _

theorem propertiesLocated : ∀ ps : List Property, Still i (propertiesLocated ps)
  | [] => pure _
  | ⟨_, e⟩ :: ps => by
    rw [FrameLedger.propertiesLocated]
    exact (located e .value).bind fun _ => (propertiesLocated ps).bind fun _ => pure _

end

theorem locate (e : Expr) : Still i (locate e) := by
  refine get_bind fun d => ?_
  split
  · exact pure e
  · exact located e .value

theorem locate? (e : Option Expr) : Still i (locate? e) := by
  cases e with
  | none => exact pure none
  | some e => exact (locate e).bind fun _ => pure _

theorem locateDecls (ds : List VarDecl) : Still i (locateDecls ds) := by
  induction ds with
  | nil => exact pure []
  | cons e ds ih =>
    rw [Draft.locateDecls, List.mapM_cons]
    exact bind (bind (locate? e.init) fun _ => pure _) fun _ => bind ih fun _ => pure _

theorem locateInit (init : Option ForInit) : Still i (locateInit init) := by
  rcases init with _ | ds | e
  · exact pure none
  · exact (locateDecls ds).bind fun _ => pure _
  · exact (locate e).bind fun _ => pure _

theorem pop (v : StackVars) (p : Position) : Still i (pop v p) :=
  frameIndex.bind fun _ => (count _).bind fun _ => pure _

theorem resetDepth (v : StackVars) (p : Position) : Still i (resetDepth v p) :=
  frameIndex.bind fun _ => (count _).bind fun _ => pure _

end Still

theorem run_pop (hd : d.locals.frameIndex = some i) (v : StackVars) (p : Position) :
    ((pop v p).run d).1 = popCode v i p := by
  show popCode v (frameIndex.run d).1 p = popCode v i p
  rw [run_frameIndex_some hd]

theorem run_resetDepth (hd : d.locals.frameIndex = some i) (v : StackVars) (p : Position) :
    ((resetDepth v p).run d).1 = resetCode v i p := by
  show resetCode v (frameIndex.run d).1 p = resetCode v i p
  rw [run_frameIndex_some hd]

end Draft

/-! ## Flags that are handed out -/

/-- The `finally` blocks that have a flag, in the order in which they got it. -/
def Locals.handed (l : Locals) : List CleanupId := l.earlyExits.map (·.1)

namespace Exits

variable {E : Exits} {ahead : Option CleanupId} {returns returns' : Bool} {as bs : List Standing}
  {l l' l'' : Locals}

/-- What holds of the variables of a frame once it has its index. -/
structure Ready (E : Exits) (l : Locals) : Prop where
  frameIndex : l.frameIndex = some E.index
  base_le : E.base ≤ l.table.symbols.size
  temp : ∀ s, l.returnTemp = some s → E.base ≤ s.index
  flags : l.earlyExits.map (·.2) = l.table.namedSince E.base "exitingEarly"
  handed : ∀ c ∈ l.handed, c.index < l.cleanups

/-- What work on the statements `as` does to the flags. In a region it can only be the region's flag
that is handed out, if it was not before. -/
structure Hands (E : Exits) (ahead : Option CleanupId) (returns : Bool) (as : List Standing)
    (l l' : Locals) :
    Prop where
  ready : E.Ready l'
  cleanups : l'.cleanups = l.cleanups + as.countP Standing.isOutermost
  handed : l'.handed = l.handed ++ match ahead with
    | none => (as.filter Standing.isFlagged).map (⟨·.number⟩)
    | some c => if returns ∧ c ∉ l.handed then [c] else []
  kept : ∀ c s, l.earlyExit? c = some s → l'.earlyExit? c = some s
  elsewhere : ∀ c, c.index < l.cleanups → ahead ≠ some c → l'.earlyExit? c = l.earlyExit? c

/-- The flags are those that there are in the end, except that the region can still get one. -/
structure Final (E : Exits) (ahead : Option CleanupId) (l : Locals) : Prop where
  kept : ∀ c s, l.earlyExit? c = some s → (c.index, s) ∈ E.flags
  all : ∀ c s, c.index < l.cleanups → ahead ≠ some c → (c.index, s) ∈ E.flags →
    l.earlyExit? c = some s

theorem Hands.refl (h : E.Ready l) : E.Hands ahead false [] l l where
  ready := h
  cleanups := rfl
  handed := by cases ahead <;> simp
  kept _ _ := id
  elsewhere _ _ _ := rfl

theorem Hands.trans (h : E.Hands ahead returns as l l') (h' : E.Hands ahead returns' bs l' l'') :
    E.Hands ahead (returns || returns') (as ++ bs) l l'' where
  ready := h'.ready
  cleanups := by rw [h'.cleanups, h.cleanups, List.countP_append, Nat.add_assoc]
  handed := by
    rw [h'.handed, h.handed, List.append_assoc]
    congr 1
    cases ahead with
    | none => rw [List.filter_append, List.map_append]
    | some c => cases returns <;> cases returns' <;> by_cases hc : c ∈ l.handed <;> simp [hc]
  kept c s hs := h'.kept c s (h.kept c s hs)
  elsewhere c hc hr := by
    rw [h'.elsewhere c (Nat.lt_of_lt_of_le hc (h.cleanups ▸ Nat.le_add_right ..)) hr,
      h.elsewhere c hc hr]

/-- A statement that is not outermost changes nothing by itself. -/
theorem Hands.cons {a : Standing} (ha : a.isOutermost = false) (h : E.Hands ahead returns as l l') :
    E.Hands ahead returns (a :: as) l l' where
  ready := h.ready
  cleanups := by rw [h.cleanups, List.countP_cons_of_neg (by simp [ha])]
  handed := by rw [h.handed, List.filter_cons_of_neg (by simp [Standing.isFlagged, ha])]
  kept := h.kept
  elsewhere := h.elsewhere

theorem Ready.nextCleanup (h : E.Ready l) : E.Ready { l with cleanups := l.cleanups + 1 } :=
  ⟨h.frameIndex, h.base_le, h.temp, h.flags, fun c hc => Nat.lt_succ_of_lt (h.handed c hc)⟩

/-- The flag of an outermost `try` statement is handed out in its region, by the first `return`
there. -/
theorem Hands.outermost {a : Standing} (hl : E.Ready l) (ha : a.isOutermost = true)
    (hreturns : a.stmt.returnsThrough = returns) (hnumber : a.number = l.cleanups)
    (hinner : ∀ b ∈ as, b.isOutermost = false)
    (h : E.Hands (some ⟨l.cleanups⟩) returns as { l with cleanups := l.cleanups + 1 } l')
    (h' : E.Hands none returns' bs l' l'') : E.Hands none returns' (a :: (as ++ bs)) l l'' := by
  have hcount : as.countP Standing.isOutermost = 0 := List.countP_eq_zero.2 fun b hb => by
    simp [hinner b hb]
  have hflagged : as.filter Standing.isFlagged = [] :=
    List.filter_eq_nil_iff.2 fun b hb => by simp [Standing.isFlagged, hinner b hb]
  have hcleanups : l'.cleanups = l.cleanups + 1 := h.cleanups.trans (hcount ▸ rfl)
  refine ⟨h'.ready, ?_, ?_, fun c s hs => h'.kept c s (h.kept c s hs), fun c hc hr => ?_⟩
  · rw [h'.cleanups, hcleanups, List.countP_cons_of_pos ha, List.countP_append, hcount]
    omega
  · have hhanded : l'.handed = l.handed ++ if returns then [⟨l.cleanups⟩] else [] := by
      have hnot : (⟨l.cleanups⟩ : CleanupId) ∉ l.handed :=
        fun hc => Nat.lt_irrefl _ (hl.handed _ hc)
      refine h.handed.trans (congrArg (l.handed ++ ·) ?_)
      exact if_congr (and_iff_left hnot) rfl rfl
    rw [h'.handed, hhanded, List.append_assoc, List.filter_cons, List.filter_append, hflagged,
      List.nil_append, Standing.isFlagged, ha, hreturns, ← hnumber]
    cases returns <;> rfl
  · refine (h'.elsewhere c (hcleanups ▸ Nat.lt_succ_of_lt hc) hr).trans
      (h.elsewhere c (Nat.lt_succ_of_lt hc) fun heq => ?_)
    exact Nat.lt_irrefl _ (congrArg CleanupId.index (Option.some.inj heq) ▸ hc)

theorem Final.earlier (hf : E.Final ahead l') (h : E.Hands ahead returns as l l') :
    E.Final ahead l where
  kept c s hs := hf.kept c s (h.kept c s hs)
  all c s hc hr hs := by
    rw [← h.elsewhere c hc hr]
    exact hf.all c s (Nat.lt_of_lt_of_le hc (h.cleanups ▸ Nat.le_add_right ..)) hr hs

/-! ## Stretches of work -/

section Settles

variable {α β : Type} {n : Nat} {x : StateM Draft α} {f : α → StateM Draft β} {P : α → Prop}
  {Q : β → Prop}

/-- Work on the statements `as`, of which the first outermost one has number `n`: what it does to
the flags, and what it makes if the flags stay like that. -/
def Settles (E : Exits) (n : Nat) (ahead : Option CleanupId) (returns : Bool) (as : List Standing)
    (x : StateM Draft α) (P : α → Prop) :
    Prop :=
  ∀ d : Draft, E.Ready d.locals → d.locals.cleanups = n → (∀ c, ahead = some c → c.index < n) →
    E.Hands ahead returns as d.locals (x.run d).2.locals ∧
      (E.Final ahead (x.run d).2.locals → P (x.run d).1)

namespace Settles

theorem pure {a : α} (h : P a) : E.Settles n ahead false [] (pure a) P :=
  fun _ hd _ _ => ⟨.refl hd, fun _ => h⟩

theorem bind (hx : E.Settles n ahead returns as x P)
    (hf : ∀ a, E.Settles (n + as.countP Standing.isOutermost) ahead returns' bs (f a) fun b => P a →
      Q b) :
    E.Settles n ahead (returns || returns') (as ++ bs) (x >>= f) Q := fun d hd hn hr => by
  obtain ⟨hhands, hP⟩ := hx d hd hn hr
  obtain ⟨hhands', hQ⟩ := hf (x.run d).1 (x.run d).2 hhands.ready (hhands.cleanups.trans (hn ▸ rfl))
    fun c hc => Nat.lt_of_lt_of_le (hr c hc) (Nat.le_add_right ..)
  exact ⟨hhands.trans hhands', fun hfinal => hQ hfinal (hP (hfinal.earlier hhands'))⟩

theorem mono {P' : α → Prop} (hx : E.Settles n ahead returns as x P) (h : ∀ a, P a → P' a) :
    E.Settles n ahead returns as x P' :=
  fun d hd hn hr => ⟨(hx d hd hn hr).1, fun hfinal => h _ ((hx d hd hn hr).2 hfinal)⟩

theorem bind_aside (hx : E.Settles n ahead returns as x P)
    (hf : ∀ a, E.Settles (n + as.countP Standing.isOutermost) ahead false [] (f a) fun b => P a →
      Q b) :
    E.Settles n ahead returns as (x >>= f) Q := by
  simpa using hx.bind hf

theorem map {g : α → β} (hx : E.Settles n ahead returns as x P) (h : ∀ a, P a → Q (g a)) :
    E.Settles n ahead returns as (do return g (← x)) Q :=
  hx.bind_aside fun a => .pure (h a)

/-- Work that leaves the variables of the frame as they are may come first. -/
theorem after (hx : Still E.index x)
    (hP : ∀ d : Draft, d.locals.frameIndex = some E.index → P (x.run d).1)
    (hf : ∀ a, P a → E.Settles n ahead returns as (f a) Q) :
    E.Settles n ahead returns as (x >>= f) Q := fun d hd hn hr => by
  have hlocals := hx d hd.frameIndex
  have h := hf (x.run d).1 (hP d hd.frameIndex) (x.run d).2 (hlocals ▸ hd) (hlocals ▸ hn) hr
  rwa [hlocals] at h

theorem aside (hx : Still E.index x) (hf : ∀ a, E.Settles n ahead returns as (f a) Q) :
    E.Settles n ahead returns as (x >>= f) Q :=
  after hx (P := fun _ => True) (fun _ _ => trivial) fun a _ => hf a

theorem cons {a : Standing} (ha : a.isOutermost = false) (h : E.Settles n ahead returns as x P) :
    E.Settles n ahead returns (a :: as) x P :=
  fun d hd hn hr => ⟨(h d hd hn hr).1.cons ha, (h d hd hn hr).2⟩

/-- Outside of all regions it does not matter whether there is a `return`. -/
theorem of_none (h : E.Settles n none returns' as x P) : E.Settles n none returns as x P :=
  fun d hd hn hr => by
  obtain ⟨hhands, hP⟩ := h d hd hn hr
  exact ⟨⟨hhands.ready, hhands.cleanups, hhands.handed, hhands.kept, hhands.elsewhere⟩, hP⟩

/-- Work on an outermost `try` statement: first on its region, which is ahead from then on, then on
the rest. -/
theorem outermost {γ : Type} {a : Standing} {g : CleanupId → α → StateM Draft γ}
    {x : CleanupId → StateM Draft α} {R : γ → Prop} (ha : a.isOutermost = true)
    (hreturns : a.stmt.returnsThrough = returns) (hnumber : a.number = n)
    (hinner : ∀ b ∈ as, b.isOutermost = false)
    (hx : E.Settles (n + 1) (some ⟨n⟩) returns as (x ⟨n⟩) P)
    (hg : ∀ y, E.Settles (n + 1 + as.countP Standing.isOutermost) none returns' bs (g ⟨n⟩ y)
      fun z => P y → R z) :
    E.Settles n none returns' (a :: (as ++ bs)) (do
      let c ← onLocals Locals.nextCleanup
      let y ← x c
      g c y) R := fun d hd hn _ => by
  subst hn
  obtain ⟨hhands, hP⟩ :=
    hx { d with locals := { d.locals with cleanups := d.locals.cleanups + 1 } } hd.nextCleanup rfl
    fun c hc => Option.some.inj hc ▸ Nat.lt_succ_self _
  obtain ⟨hhands', hR⟩ := hg _ _ hhands.ready hhands.cleanups fun _ hc => nomatch hc
  refine ⟨hhands.outermost hd ha hreturns hnumber hinner hhands', fun hfinal => hR hfinal (hP ?_)⟩
  have hearlier := hfinal.earlier hhands'
  exact ⟨hearlier.kept, fun c s hc _ => hearlier.all c s hc nofun⟩

end Settles

/-! ## Variables of the frame -/

/-- A symbol that is no flag. -/
theorem Ready.declared (h : E.Ready l) {t : ScopeTable} {x : Symbol}
    (ht : t.symbols = l.table.symbols) (hx : x.shortIdent ≠ "exitingEarly") :
    E.base ≤ (t.addSymbol x).2.symbols.size ∧
      l.earlyExits.map (·.2) = (t.addSymbol x).2.namedSince E.base "exitingEarly" := by
  have hbase : E.base ≤ t.symbols.size := ht ▸ h.base_le
  refine ⟨ScopeTable.size_addSymbol t x ▸ Nat.le_succ_of_le hbase, ?_⟩
  rw [ScopeTable.namedSince_addSymbol hbase, if_neg hx, List.append_nil, h.flags,
    ScopeTable.namedSince, ← ht, ScopeTable.namedSince]

theorem settles_returnTemp : E.Settles n ahead false [] (onLocals Locals.returnTempVar) fun s =>
    E.new s = true :=
  fun d hd _ _ => by
  rcases htemp : d.locals.returnTemp with _ | s
  · have hrun : (onLocals Locals.returnTempVar).run d = (⟨d.locals.table.symbols.size⟩, { d with
      locals := { d.locals with
        table := (d.locals.table.declareUnique d.locals.scope "$es_returnTemp" "returnTemp").2
        pending := d.locals.pending ++ [⟨d.locals.table.symbols.size⟩]
        returnTemp := some ⟨d.locals.table.symbols.size⟩ } }) := by
      simp [onLocals, Locals.returnTempVar, Locals.declare, htemp]
      rfl
    rw [hrun]
    have hshort : "returnTemp" ≠ "exitingEarly" := by decide
    obtain ⟨hbase, hflags⟩ :=
      hd.declared (t := d.locals.table) rfl (x := ⟨_, "returnTemp", _, true⟩) hshort
    have hnew : E.base ≤ d.locals.table.symbols.size := hd.base_le
    refine ⟨⟨⟨hd.frameIndex, hbase, fun s hs => Option.some.inj hs ▸ hnew, hflags, hd.handed⟩, rfl,
      ?_, fun _ _ => id, fun _ _ _ => rfl⟩, fun _ => decide_eq_true hnew⟩
    cases ahead <;> simp [Locals.handed]
  · have hrun : (onLocals Locals.returnTempVar).run d = (s, d) := by
      simp [onLocals, Locals.returnTempVar, htemp]
      rfl
    rw [hrun]
    exact ⟨.refl hd, fun _ => decide_eq_true (hd.temp s htemp)⟩

theorem settles_catchParam : E.Settles n ahead false [] (onLocals Locals.catchParam) fun x =>
    E.new x.2 = true :=
  fun d hd _ _ => by
  rw [run_onLocals, Locals.run_catchParam]
  have hshort : "e" ≠ "exitingEarly" := by decide
  obtain ⟨hbase, hflags⟩ := hd.declared (t := (d.locals.table.newScope .catch d.locals.scope).2) rfl
    (x := ⟨"e", "e", _, true⟩) hshort
  refine ⟨⟨⟨hd.frameIndex, hbase, hd.temp, hflags, hd.handed⟩, rfl, ?_, fun _ _ => id,
    fun _ _ _ => rfl⟩, fun _ => decide_eq_true hd.base_le⟩
  cases ahead <;> simp [Locals.handed]

/-- The first `return` in a region gives it a flag. -/
theorem Ready.hands_flag {c : CleanupId} {x : Symbol} (hl : E.Ready l) (hc : c.index < l.cleanups)
    (hnone : l.earlyExit? c = none) (hx : x.shortIdent = "exitingEarly") (pending : List SymbolId) :
    let l' := { l with
      table := (l.table.addSymbol x).2, pending := pending
      earlyExits := l.earlyExits ++ [(c, ⟨l.table.symbols.size⟩)] }
    E.Hands (some c) true [] l l' ∧ l'.earlyExit? c = some ⟨l.table.symbols.size⟩ := by
  intro l'
  have hlookup (c' : CleanupId) : l'.earlyExit? c' =
      (l.earlyExit? c').or (if c = c' then some ⟨l.table.symbols.size⟩ else none) := by
    rw [Locals.earlyExit?_append (l := l') rfl]
    by_cases h : c = c' <;> simp [h, Locals.earlyExit?]
  have hnot : c ∉ l.handed := fun hmem => by
    obtain ⟨e, he, rfl⟩ := List.mem_map.1 hmem
    have hfind : l.earlyExits.find? (·.1 == e.1) = none := Option.map_eq_none_iff.1 hnone
    simpa using List.find?_eq_none.1 hfind e he
  have hhanded : l'.handed = l.handed ++ [c] := List.map_append
  refine ⟨⟨⟨hl.frameIndex, ?_, hl.temp, ?_, fun c' hc' => ?_⟩, rfl, ?_, fun c' s hs => ?_,
    fun c' _ hne => ?_⟩, ?_⟩
  · exact ScopeTable.size_addSymbol l.table x ▸ Nat.le_succ_of_le hl.base_le
  · rw [ScopeTable.namedSince_addSymbol hl.base_le, if_pos hx, ← hl.flags]
    exact List.map_append
  · rw [hhanded] at hc'
    rcases List.mem_append.1 hc' with hc' | hc'
    · exact hl.handed c' hc'
    · exact List.mem_singleton.1 hc' ▸ hc
  · exact hhanded.trans (congrArg (l.handed ++ ·) (if_pos ⟨rfl, hnot⟩).symm)
  · rw [hlookup, hs, Option.some_or]
  · rw [hlookup, if_neg fun heq => hne (congrArg some heq), Option.or_none]
  · rw [hlookup, hnone, if_pos rfl, Option.none_or]

theorem settles_earlyExit {c : CleanupId} :
    E.Settles n (some c) true [] (onLocals (Locals.earlyExitVar c))
    fun s => E.new s = true ∧ (c.index, s) ∈ E.flags := fun d hd hn hr => by
  rcases hflag : d.locals.earlyExit? c with _ | s
  · obtain ⟨k, hrun⟩ := Locals.run_earlyExitVar hflag
    rw [run_onLocals, hrun]
    obtain ⟨hhands, hlookup⟩ :=
      hd.hands_flag (hn ▸ hr c rfl) hflag (x := ⟨_, "exitingEarly", _, true⟩) rfl _
    exact ⟨hhands, fun hfinal => ⟨decide_eq_true hd.base_le, hfinal.kept c _ hlookup⟩⟩
  · rw [run_onLocals, Locals.run_earlyExitVar_some hflag]
    have hmem := Locals.mem_of_earlyExit? hflag
    have hnew : E.base ≤ s.index :=
      ScopeTable.le_of_mem_namedSince (hd.flags ▸ List.mem_map_of_mem hmem)
    refine ⟨⟨hd, rfl, ?_, fun _ _ => id, fun _ _ _ => rfl⟩,
      fun hfinal => ⟨decide_eq_true hnew, hfinal.kept c s hflag⟩⟩
    have hc : c ∈ d.locals.handed := List.mem_map_of_mem hmem
    simp [hc]

end Settles

end Exits

end FrameLedger
