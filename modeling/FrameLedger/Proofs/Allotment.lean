import FrameLedger.Proofs.Occurrences

/-!
# The variables of a frame

While a function is worked on, its frame is allotted variables. `Locals.Tidy`: each is a symbol of
its own, in the scope of the function, found there under an identifier that was free, and everything
else that was added to the table is the parameter of a catch clause in a scope of its own.
-/

namespace FrameLedger

open Draft

namespace Locals

/-- What the variables of a frame would be called for short. -/
def shortIdents : List String := ["stackIndex", "returnTemp", "exitingEarly"]

/-- Identifiers that are tried for the variables of a frame. -/
def Tried (x : String) : Prop :=
  x = "$es_stackIndex" ∨ x = "$es_returnTemp" ∨ ∃ n : Nat, x = "$es_exitingEarly" ++ toString n

/-- Identifiers that are given to the variables of a frame and to the parameters of catch
clauses. -/
def Given (x : String) : Prop := x = "e" ∨ ∃ ident k, Tried ident ∧ x = ScopeTable.candidate ident k

/-- The parameter of a catch clause that was made since the table was `t`. -/
structure Param (t : ScopeTable) (l : Locals) (sc : ScopeId) (e : SymbolId) : Prop where
  scope_le : t.scopes.size ≤ sc.index
  symbol_le : t.symbols.size ≤ e.index
  symbol : l.table.symbol? e = some ⟨"e", "e", sc, true⟩
  found : l.table.findIn sc "e" = some e
  parent : l.table.parent? sc = some l.scope

/-- What holds of the variables of a function with scope `sc` on which work began with the table
`t`. -/
structure Tidy (t : ScopeTable) (sc : ScopeId) (l : Locals) : Prop where
  scope : l.scope = sc
  scope_lt : sc.index < t.scopes.size
  table : t.Extends l.table
  consistent : l.table.Consistent
  nodup : l.pending.Nodup
  le_pending : ∀ s ∈ l.pending, t.symbols.size ≤ s.index
  placed : ∀ s ∈ l.pending, l.table.Placed sc s
  short : ∀ s ∈ l.pending, ∃ r, l.table.symbol? s = some r ∧ r.shortIdent ∈ shortIdents
  frameIndex : ∀ s, l.frameIndex = some s → s ∈ l.pending
  returnTemp : ∀ s, l.returnTemp = some s → s ∈ l.pending
  earlyExits : ∀ e ∈ l.earlyExits, e.2 ∈ l.pending
  added : ∀ s : SymbolId, t.symbols.size ≤ s.index → s.index < l.table.symbols.size →
    s ∈ l.pending ∨ ∃ sc, l.Param t sc s
  parents : ∀ a b, l.table.parent? a = some b → t.parent? a = some b ∨ b = sc ∧
    t.scopes.size ≤ a.index
  found : ∀ a x s, l.table.findIn a x = some s → t.findIn a x = some s ∨ Given x

/-- Variables are only added. -/
structure Onward (l l' : Locals) : Prop where
  scope : l'.scope = l.scope
  table : l.table.Extends l'.table
  pending : ∀ s ∈ l.pending, s ∈ l'.pending

section

variable {t : ScopeTable} {sc : ScopeId} {l l' l'' : Locals} {s : SymbolId}

theorem Onward.refl (l : Locals) : l.Onward l := ⟨rfl, .refl _, fun _ => id⟩

theorem Onward.trans (a : l.Onward l') (b : l'.Onward l'') : l.Onward l'' :=
  ⟨b.scope.trans a.scope, a.table.trans b.table, fun s h => b.pending s (a.pending s h)⟩

theorem Param.lt (h : l.Param t sc s) : sc.index < l.table.scopes.size := by
  have hparent := h.parent
  rw [ScopeTable.parent?, ScopeTable.scope?] at hparent
  obtain ⟨c, hc, -⟩ := Option.bind_eq_some_iff.1 hparent
  exact (Array.getElem?_eq_some_iff.1 hc).1

theorem Param.onward (h : l.Param t sc s) (ho : l.Onward l') : l'.Param t sc s where
  scope_le := h.scope_le
  symbol_le := h.symbol_le
  symbol := ho.table.symbol _ _ h.symbol
  found := ho.table.findIn _ _ _ h.found
  parent := by rw [ho.table.parent _ h.lt, h.parent, ho.scope]

/-- Work on a function begins with no variables. -/
theorem Tidy.start (ht : t.Consistent) (hsc : sc.index < t.scopes.size) :
    Tidy t sc { table := t, scope := sc } where
  scope := rfl
  scope_lt := hsc
  table := .refl t
  consistent := ht
  nodup := .nil
  le_pending _ h := nomatch h
  placed _ h := nomatch h
  short _ h := nomatch h
  frameIndex _ h := nomatch h
  returnTemp _ h := nomatch h
  earlyExits _ h := nomatch h
  added _ h h' := absurd h' (Nat.not_lt_of_le h)
  parents _ _ := .inl
  found _ _ _ := .inl

theorem Tidy.lt_size (hl : l.Tidy t sc) (hs : s ∈ l.pending) : s.index < l.table.symbols.size := by
  obtain ⟨r, hr, -⟩ := hl.placed s hs
  exact ScopeTable.lt_of_symbol? hr

/-- A variable that is declared is new, whatever it is for. -/
theorem Tidy.declared (hl : l.Tidy t sc) {m : Locals} {ident short : String} (hident : Tried ident)
    (hshort : short ∈ shortIdents)
    (htable : m.table = (l.table.declareUnique l.scope ident short).2) (hscope : m.scope = l.scope)
    (hpending : m.pending = l.pending ++ [⟨l.table.symbols.size⟩])
    (hindex : ∀ s, m.frameIndex = some s → l.frameIndex = some s ∨ s = ⟨l.table.symbols.size⟩)
    (htemp : ∀ s, m.returnTemp = some s → l.returnTemp = some s ∨ s = ⟨l.table.symbols.size⟩)
    (hexits : ∀ e ∈ m.earlyExits, e ∈ l.earlyExits ∨ e.2 = ⟨l.table.symbols.size⟩) :
    m.Tidy t sc ∧ l.Onward m := by
  have hext : l.table.Extends m.table := htable ▸ l.table.extends_declareUnique _ _ _
  have hsize : m.table.symbols.size = l.table.symbols.size + 1 := by
    simp [htable, ScopeTable.declareUnique_eq]
  have honward : l.Onward m := ⟨hscope, hext, fun s h => hpending ▸ List.mem_append_left _ h⟩
  have hmem (s : SymbolId) : s ∈ m.pending ↔ s ∈ l.pending ∨ s = ⟨l.table.symbols.size⟩ := by
    rw [hpending, List.mem_append, List.mem_singleton]
  refine ⟨⟨hscope.trans hl.scope, hl.scope_lt, hl.table.trans hext, ?_, ?_, ?_, ?_, ?_, ?_, ?_, ?_,
    ?_, ?_, ?_⟩, honward⟩
  · rw [htable, ScopeTable.declareUnique_eq]
    exact hl.consistent.addSymbol _
  · rw [hpending]
    refine List.nodup_append.2 ⟨hl.nodup, List.nodup_singleton _, fun a ha b hb => ?_⟩
    rintro rfl
    obtain rfl := List.mem_singleton.1 hb
    exact Nat.lt_irrefl _ (hl.lt_size ha)
  · intro s hs
    rcases (hmem s).1 hs with hs | rfl
    · exact hl.le_pending s hs
    · exact hl.table.symbols_le
  · intro s hs
    rcases (hmem s).1 hs with hs | rfl
    · exact (hl.placed s hs).extends hext
    · have hlt : l.scope.index < l.table.scopes.size := by
        rw [hl.scope]
        exact Nat.lt_of_lt_of_le hl.scope_lt hl.table.scopes_le
      rw [htable, ← hl.scope]
      exact ScopeTable.placed_addSymbol (r := l.table.freshSymbol l.scope ident short) hlt
  · intro s hs
    rcases (hmem s).1 hs with hs | rfl
    · obtain ⟨r, hr, hmem⟩ := hl.short s hs
      exact ⟨r, hext.symbol s r hr, hmem⟩
    · rw [htable]
      exact ⟨_, ScopeTable.symbol?_addSymbol_self _ _, hshort⟩
  · exact fun s hs => (hmem s).2 ((hindex s hs).imp_left (hl.frameIndex s))
  · exact fun s hs => (hmem s).2 ((htemp s hs).imp_left (hl.returnTemp s))
  · exact fun e he => (hmem _).2 ((hexits e he).imp_left (hl.earlyExits e))
  · intro s hle hlt
    by_cases hs : s.index < l.table.symbols.size
    · exact (hl.added s hle hs).imp (fun h => (hmem s).2 (.inl h)) fun ⟨sc, h⟩ =>
        ⟨sc, h.onward honward⟩
    · exact .inl ((hmem s).2 (.inr (SymbolId.eq_of_index (by dsimp only; omega))))
  · intro a b h
    rw [htable, ScopeTable.declareUnique_eq, ScopeTable.parent?_addSymbol] at h
    exact hl.parents a b h
  · intro a x s h
    rw [htable, ScopeTable.declareUnique_eq] at h
    rcases ScopeTable.findIn_addSymbol h with h | ⟨-, rfl, -⟩
    · exact hl.found a x s h
    · exact .inr (.inr ⟨ident, _, hident, rfl⟩)

theorem Tidy.frameIndexVar (hl : l.Tidy t sc) : (Locals.frameIndexVar.run l).2.Tidy t sc ∧
    l.Onward (Locals.frameIndexVar.run l).2 ∧
      (Locals.frameIndexVar.run l).1 ∈ (Locals.frameIndexVar.run l).2.pending := by
  rcases hi : l.frameIndex with _ | s
  · have hrun : Locals.frameIndexVar.run l = (⟨l.table.symbols.size⟩, { l with
        table := (l.table.declareUnique l.scope "$es_stackIndex" "stackIndex").2
        pending := l.pending ++ [⟨l.table.symbols.size⟩]
        frameIndex := some ⟨l.table.symbols.size⟩ }) := by
      simp [Locals.frameIndexVar, Locals.declare, hi]
      rfl
    rw [hrun]
    obtain ⟨htidy, honward⟩ := hl.declared (.inl rfl) (by simp [shortIdents]) (m := { l with
      table := (l.table.declareUnique l.scope "$es_stackIndex" "stackIndex").2
      pending := l.pending ++ [⟨l.table.symbols.size⟩]
      frameIndex := some ⟨l.table.symbols.size⟩ }) rfl rfl rfl
        (fun s hs => .inr (Option.some.inj hs).symm)
      (fun _ => .inl) fun _ => .inl
    exact ⟨htidy, honward, List.mem_append_right _ List.mem_cons_self⟩
  · have hrun : Locals.frameIndexVar.run l = (s, l) := by
      simp [Locals.frameIndexVar, hi]
      rfl
    rw [hrun]
    exact ⟨hl, .refl l, hl.frameIndex s hi⟩

theorem Tidy.returnTempVar (hl : l.Tidy t sc) : (Locals.returnTempVar.run l).2.Tidy t sc ∧
    l.Onward (Locals.returnTempVar.run l).2 ∧
      (Locals.returnTempVar.run l).1 ∈ (Locals.returnTempVar.run l).2.pending := by
  rcases hi : l.returnTemp with _ | s
  · have hrun : Locals.returnTempVar.run l = (⟨l.table.symbols.size⟩, { l with
        table := (l.table.declareUnique l.scope "$es_returnTemp" "returnTemp").2
        pending := l.pending ++ [⟨l.table.symbols.size⟩]
        returnTemp := some ⟨l.table.symbols.size⟩ }) := by
      simp [Locals.returnTempVar, Locals.declare, hi]
      rfl
    rw [hrun]
    obtain ⟨htidy, honward⟩ := hl.declared (.inr (.inl rfl)) (by simp [shortIdents]) (m := { l with
      table := (l.table.declareUnique l.scope "$es_returnTemp" "returnTemp").2
      pending := l.pending ++ [⟨l.table.symbols.size⟩]
      returnTemp := some ⟨l.table.symbols.size⟩ }) rfl rfl rfl (fun _ => .inl)
      (fun s hs => .inr (Option.some.inj hs).symm) fun _ => .inl
    exact ⟨htidy, honward, List.mem_append_right _ List.mem_cons_self⟩
  · have hrun : Locals.returnTempVar.run l = (s, l) := by
      simp [Locals.returnTempVar, hi]
      rfl
    rw [hrun]
    exact ⟨hl, .refl l, hl.returnTemp s hi⟩

theorem Tidy.earlyExitVar (hl : l.Tidy t sc) (c : CleanupId) :
    ((Locals.earlyExitVar c).run l).2.Tidy t sc ∧ l.Onward ((Locals.earlyExitVar c).run l).2 ∧
      ((Locals.earlyExitVar c).run l).1 ∈ ((Locals.earlyExitVar c).run l).2.pending := by
  rcases hi : l.earlyExit? c with _ | s
  · obtain ⟨n, hrun⟩ := Locals.run_earlyExitVar hi
    rw [hrun]
    obtain ⟨htidy, honward⟩ :=
      hl.declared (.inr (.inr ⟨n, rfl⟩)) (by simp [shortIdents])
        (m := { l with
          table :=
            (l.table.declareUnique l.scope ("$es_exitingEarly" ++ toString n) "exitingEarly").2
          pending := l.pending ++ [⟨l.table.symbols.size⟩]
          earlyExits := l.earlyExits ++ [(c, ⟨l.table.symbols.size⟩)] })
        rfl rfl rfl (fun _ => .inl) (fun _ => .inl)
        fun e he => (List.mem_append.1 he).imp_right fun he =>
          congrArg Prod.snd (List.mem_singleton.1 he)
    exact ⟨htidy, honward, List.mem_append_right _ List.mem_cons_self⟩
  · rw [Locals.run_earlyExitVar_some hi]
    exact ⟨hl, .refl l, hl.earlyExits _ (Locals.mem_of_earlyExit? hi)⟩

/-- The parameter of a catch clause stands alone in a new scope. -/
theorem Tidy.catchParam (hl : l.Tidy t sc) : (Locals.catchParam.run l).2.Tidy t sc ∧
    l.Onward (Locals.catchParam.run l).2 ∧
      (Locals.catchParam.run l).2.Param t (Locals.catchParam.run l).1.1
        (Locals.catchParam.run l).1.2 := by
  have hfree : (l.table.newScope .catch l.scope).2.findIn (l.table.newScope .catch l.scope).1 "e" =
      none := by
    rw [ScopeTable.findIn_newScope, ScopeTable.findIn, ScopeTable.namesIn, ScopeTable.scope?,
      ScopeTable.newScope, ScopeTable.addScope, Array.getElem?_eq_none (Nat.le_refl _)]
    rfl
  have hrun : Locals.catchParam.run l =
      (((l.table.newScope .catch l.scope).1, ⟨l.table.symbols.size⟩), { l with
        table := ((l.table.newScope .catch l.scope).2.addSymbol
          ⟨"e", "e", (l.table.newScope .catch l.scope).1, true⟩).2 }) := by
    have hdeclare :
        (l.table.newScope .catch l.scope).2.declare (l.table.newScope .catch l.scope).1 "e" =
          (l.table.newScope .catch l.scope).2.addSymbol
            ⟨"e", "e", (l.table.newScope .catch l.scope).1, true⟩ := by
      rw [ScopeTable.declare, hfree]
    have h : Locals.catchParam.run l = (((l.table.newScope .catch l.scope).1,
        ((l.table.newScope .catch l.scope).2.declare (l.table.newScope .catch l.scope).1 "e").1),
        { l with
          table := ((l.table.newScope .catch l.scope).2.declare
            (l.table.newScope .catch l.scope).1 "e").2 }) := rfl
    rw [h, hdeclare]
    rfl
  rw [hrun]
  generalize hr : (⟨"e", "e", (l.table.newScope .catch l.scope).1, true⟩ : Symbol) = r
  have hext :=
    (l.table.extends_newScope .catch l.scope).trans
    (ScopeTable.extends_addSymbol (r := r) (hr ▸ hfree))
  have honward : l.Onward { l with table := ((l.table.newScope .catch l.scope).2.addSymbol r).2 } :=
    ⟨rfl, hext, fun _ => id⟩
  have hscopes : (l.table.newScope .catch l.scope).1.index <
      (l.table.newScope .catch l.scope).2.scopes.size := by
    simp [ScopeTable.newScope, ScopeTable.addScope]
  have hparam : Param t { l with table := ((l.table.newScope .catch l.scope).2.addSymbol r).2 }
      (l.table.newScope .catch l.scope).1 ⟨l.table.symbols.size⟩ := by
    subst hr
    exact {
      scope_le := hl.table.scopes_le
      symbol_le := hl.table.symbols_le
      symbol := ScopeTable.symbol?_addSymbol_self _ _
      found := ScopeTable.findIn_addSymbol_self hscopes
      parent := by
        rw [ScopeTable.parent?_addSymbol, ScopeTable.parent?_newScope]
        exact if_pos rfl }
  refine ⟨⟨hl.scope, hl.scope_lt, hl.table.trans hext, (hl.consistent.newScope _ _).addSymbol _,
    hl.nodup, hl.le_pending, fun s hs => (hl.placed s hs).extends hext, ?_, hl.frameIndex,
    hl.returnTemp, hl.earlyExits, ?_, ?_, ?_⟩, honward, hparam⟩
  · intro s hs
    obtain ⟨r', hr', hmem⟩ := hl.short s hs
    exact ⟨r', hext.symbol s r' hr', hmem⟩
  · intro s hle hlt
    by_cases hs : s.index < l.table.symbols.size
    · refine (hl.added s hle hs).imp_right fun h => ?_
      obtain ⟨sc, h⟩ := h
      exact ⟨sc, h.onward honward⟩
    · have hsize : ((l.table.newScope .catch l.scope).2.addSymbol r).2.symbols.size =
          l.table.symbols.size + 1 := by
        simp [ScopeTable.newScope, ScopeTable.addScope]
      obtain rfl : s = ⟨l.table.symbols.size⟩ :=
        SymbolId.eq_of_index (by simp only [hsize] at hlt ⊢; omega)
      exact .inr ⟨_, hparam⟩
  · intro a b h
    rw [ScopeTable.parent?_addSymbol, ScopeTable.parent?_newScope] at h
    split at h
    · next ha => exact .inr ⟨(Option.some.inj h).symm.trans hl.scope, ha ▸ hl.table.scopes_le⟩
    · exact hl.parents a b h
  · intro a x s h
    rcases ScopeTable.findIn_addSymbol h with h | ⟨-, rfl, -⟩
    · exact hl.found a x s (ScopeTable.findIn_newScope .. ▸ h)
    · exact .inr (.inl (hr ▸ rfl))

end

end Locals

end FrameLedger
