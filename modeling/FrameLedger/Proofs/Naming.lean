import FrameLedger.Proofs.Emulated
import FrameLedger.Proofs.Walk

/-!
# The names the pass adds

Every symbol that the pass adds to a table is a variable of the stack, a variable of one function's
frame (`FrameVar`) or the parameter of a catch clause (`ScopeTable.ClauseParam`). `Accounted` keeps
the account while the tree is walked over.
-/

namespace FrameLedger

/-- The parameter of a catch clause, alone in a scope that was made since the table was `base`. -/
def ScopeTable.ClauseParam (base t : ScopeTable) (s : SymbolId) : Prop :=
  ∃ sc, base.scopes.size ≤ sc.index ∧ t.symbol? s = some ⟨"e", "e", sc, true⟩ ∧
    t.findIn sc "e" = some s

/-- A variable of the frame of `g`, which is a function of the tree: it is found in the scope of
`g`, declared by the first statement of `g`, and used nowhere but in the code of `g` itself. -/
structure FrameVar (t : ScopeTable) (os : List Occurrence) (g : Func) (s : SymbolId) : Prop where
  func : ∃ w, ⟨w, .func g⟩ ∈ os
  placed : t.Placed g.scope s
  short : ∃ r, t.symbol? s = some r ∧ r.shortIdent ∈ Locals.shortIdents
  leads : Leads g.body.stmts s
  own : ∀ o ∈ os, o.part.symbol? = some s → o.stand.func = some g

section

variable {base t t' : ScopeTable} {s : SymbolId}

theorem ScopeTable.ClauseParam.extends (h : base.ClauseParam t s) (ht : t.Extends t') :
    base.ClauseParam t' s := by
  obtain ⟨sc, hle, hsymbol, hfind⟩ := h
  exact ⟨sc, hle, ht.symbol _ _ hsymbol, ht.findIn _ _ _ hfind⟩

/-- More code that does not use the variable changes nothing. -/
theorem FrameVar.mono {os os' : List Occurrence} {g : Func} (h : FrameVar t os g s)
    (ht : t.Extends t') (hsub : ∀ o ∈ os, o ∈ os')
    (hnew : ∀ o ∈ os', o.part.symbol? = some s → o ∈ os) :
    FrameVar t' os' g s where
  func := h.func.imp fun _ => hsub _
  placed := h.placed.extends ht
  short := h.short.imp fun r ⟨hr, hmem⟩ => ⟨ht.symbol s r hr, hmem⟩
  leads := h.leads
  own o ho hs := h.own o (hnew o ho hs) hs

end

/-- The symbols of a part are in the table, and so is the scope of a function. -/
def ScopeTable.Covers (base : ScopeTable) (_ : ScopeId) (part : Part) : Prop :=
  (∀ s, part.symbol? = some s → s.index < base.symbols.size) ∧
    ∀ f, part = .func f → f.scope.index < base.scopes.size

/-- What is known of code while a tree is walked over whose symbols and scopes are those of `base`.
The code was `a` and the table `t`; now they are `b` and `t'`, and `new` lists the variables of
frames that were added. -/
structure Accounted (base t t' : ScopeTable) (a b : Listing) (new : List SymbolId) : Prop where
  table : t.Extends t'
  consistent : t'.Consistent
  symbols : ∀ i, ∀ o ∈ b i, ∀ s, o.part.symbol? = some s →
    s.index < base.symbols.size ∨ t.symbols.size ≤ s.index ∧ s.index < t'.symbols.size
  declared : ∀ i j, (declarators (b i)).Perm (declarators (a j) ++ new)
  nodup : new.Nodup
  le_new : ∀ s ∈ new, t.symbols.size ≤ s.index ∧ s.index < t'.symbols.size
  added : ∀ s : SymbolId, t.symbols.size ≤ s.index → s.index < t'.symbols.size →
    base.ClauseParam t' s ∨ s ∈ new ∧ ∀ i, ∃ g, FrameVar t' (b i) g s

namespace Accounted

variable {base t t' t'' : ScopeTable} {a b a' b' : Listing} {new new' : List SymbolId}

/-- Code that stays as it is. -/
theorem same (ht : t.Consistent) (hsymbols : ∀ i, ∀ o ∈ a i, ∀ s, o.part.symbol? = some s →
    s.index < base.symbols.size) (hdeclared : ∀ i j, declarators (a i) = declarators (a j)) :
    Accounted base t t a a [] where
  table := .refl t
  consistent := ht
  symbols i o ho s hs := .inl (hsymbols i o ho s hs)
  declared i j := by rw [List.append_nil, hdeclared i j]
  nodup := .nil
  le_new _ h := nomatch h
  added _ h h' := absurd h' (Nat.not_lt_of_le h)

theorem append (hbase : base.Extends t) (h : Accounted base t t' a b new)
    (h' : Accounted base t' t'' a' b' new') :
    Accounted base t t'' (fun i => a i ++ a' i) (fun i => b i ++ b' i) (new ++ new') where
  table := h.table.trans h'.table
  consistent := h'.consistent
  symbols i o ho s hs := by
    have hle := h.table.symbols_le
    have hle' := h'.table.symbols_le
    rcases List.mem_append.1 ho with ho | ho
    · exact (h.symbols i o ho s hs).imp_right fun ⟨hlo, hhi⟩ => ⟨hlo, by omega⟩
    · exact (h'.symbols i o ho s hs).imp_right fun ⟨hlo, hhi⟩ => ⟨by omega, hhi⟩
  declared i j := by
    rw [declarators_append, declarators_append]
    refine ((h.declared i j).append (h'.declared i j)).trans ?_
    rw [List.append_assoc, List.append_assoc]
    exact (List.perm_append_comm_assoc _ _ _).append_left _
  nodup := List.nodup_append.2 ⟨h.nodup, h'.nodup, fun s hs s' hs' => by
    rintro rfl
    exact Nat.not_lt_of_le (h'.le_new s hs').1 (h.le_new s hs).2⟩
  le_new s hs := by
    have hle := h.table.symbols_le
    have hle' := h'.table.symbols_le
    rcases List.mem_append.1 hs with hs | hs
    · have := h.le_new s hs
      omega
    · have := h'.le_new s hs
      omega
  added s hlo hhi := by
    have hle := hbase.symbols_le
    have hle' := h.table.symbols_le
    by_cases hs : s.index < t'.symbols.size
    · refine (h.added s hlo hs).imp (·.extends h'.table) fun ⟨hnew, hvar⟩ =>
        ⟨List.mem_append_left _ hnew, fun i => ?_⟩
      obtain ⟨g, hg⟩ := hvar i
      refine ⟨g, hg.mono h'.table (fun o => List.mem_append_left _) fun o ho hos => ?_⟩
      rcases List.mem_append.1 ho with ho | ho
      · exact ho
      · rcases h'.symbols i o ho s hos with h | h <;> omega
    · refine (h'.added s (Nat.le_of_not_lt hs) hhi).imp_right fun ⟨hnew, hvar⟩ =>
        ⟨List.mem_append_right _ hnew, fun i => ?_⟩
      obtain ⟨g, hg⟩ := hvar i
      refine ⟨g, hg.mono (.refl _) (fun o => List.mem_append_right _) fun o ho hos => ?_⟩
      rcases List.mem_append.1 ho with ho | ho
      · rcases h.symbols i o ho s hos with h | h <;> omega
      · exact ho

/-- A catch clause in front names no symbol. -/
theorem inner (h : Accounted base t t' a b new) (sc sc' : ScopeId) :
    Accounted base t t' (fun i => ⟨⟨i, sc⟩, .clause sc'⟩ :: a i)
      (fun i => ⟨⟨i, sc⟩, .clause sc'⟩ :: b i) new where
  table := h.table
  consistent := h.consistent
  symbols i o ho s hs := by
    rcases List.mem_cons.1 ho with rfl | ho
    · nomatch hs
    · exact h.symbols i o ho s hs
  declared := h.declared
  nodup := h.nodup
  le_new := h.le_new
  added s hlo hhi := by
    refine (h.added s hlo hhi).imp_right fun ⟨hnew, hvar⟩ => ⟨hnew, fun i => ?_⟩
    obtain ⟨g, hg⟩ := hvar i
    refine ⟨g, hg.mono (.refl _) (fun o => List.mem_cons_of_mem _) fun o ho hos => ?_⟩
    rcases List.mem_cons.1 ho with rfl | ho
    · nomatch hos
    · exact ho

/-- What work on a function adds to an account of its body. -/
structure Reworked (base t t' : ScopeTable) (f f' : Func) (more : List Occurrence)
    (new : List SymbolId) : Prop where
  name : f'.name = f.name
  params : f'.params = f.params
  scope : f'.scope = f.scope
  table : t.Extends t'
  consistent : t'.Consistent
  body : (f'.body.occurrences ⟨some f', f.scope⟩).Perm
    (f.body.occurrences ⟨some f', f.scope⟩ ++ more)
  symbols : ∀ o ∈ more, ∀ s, o.part.symbol? = some s → o.stand.func = some f' ∧
    (s.index < base.symbols.size ∨ t.symbols.size ≤ s.index ∧ s.index < t'.symbols.size)
  declared : (declarators more).Perm new
  nodup : new.Nodup
  le_new : ∀ s ∈ new, t.symbols.size ≤ s.index ∧ s.index < t'.symbols.size
  added : ∀ s : SymbolId, t.symbols.size ≤ s.index → s.index < t'.symbols.size →
    base.ClauseParam t' s ∨ s ∈ new ∧
    t'.Placed f.scope s ∧ (∃ r, t'.symbol? s = some r ∧ r.shortIdent ∈ Locals.shortIdents) ∧
      Leads f'.body.stmts s

theorem func (hbase : base.Extends t) {f f₂ : Func} (f₁ : Func) {i₀ : Option Func} {sc : ScopeId}
    {more : List Occurrence} (hf : AllParts base.Covers (f.occurrences ⟨i₀, sc⟩))
    (hname : f₁.name = f.name) (hparams : f₁.params = f.params) (hscope : f₁.scope = f.scope)
    (h : Accounted base t t' (fun i => f.body.occurrences ⟨i, f.scope⟩)
      (fun i => f₁.body.occurrences ⟨i, f.scope⟩) new)
    (h' : Reworked base t' t'' f₁ f₂ more new') :
    Accounted base t t'' (fun i => f.occurrences ⟨i, sc⟩) (fun i => f₂.occurrences ⟨i, sc⟩)
      (new ++ new') := by
  have hle := hbase.symbols_le
  have hle' := h.table.symbols_le
  have hle'' := h'.table.symbols_le
  have hbody := h'.body
  rw [hscope] at hbody
  have hmem (o : Occurrence) (i : Option Func) : o ∈ f₂.occurrences ⟨i, sc⟩ ↔
      o = ⟨⟨i, sc⟩, .func f₂⟩ ∨
      (∃ s, f.name = some s ∧ o = ⟨⟨i, sc⟩, .binder s⟩) ∨
        (∃ s ∈ f.params, o = ⟨⟨some f₂, f.scope⟩, .binder s⟩) ∨
        o ∈ f₁.body.occurrences ⟨some f₂, f.scope⟩ ∨ o ∈ more := by
    rw [Func.mem_occurrences, h'.name, hname, h'.params, hparams, h'.scope, hscope, hbody.mem_iff,
      List.mem_append]
  -- The name and the parameters are symbols of the program.
  have hnames (o : Occurrence) (s : SymbolId) (i : Option Func) (ho : o ∈ f₂.occurrences ⟨i, sc⟩)
      (hs : o.part.symbol? = some s) : s.index < base.symbols.size ∨
        o ∈ f₁.body.occurrences ⟨some f₂, f.scope⟩ ∨ o ∈ more := by
    rcases (hmem o i).1 ho with rfl | ⟨s', hs', rfl⟩ | ⟨s', hs', rfl⟩ | ho
    · nomatch hs
    · exact .inl
        ((hf ⟨⟨i₀, sc⟩, .binder s'⟩ (Func.mem_occurrences.2 (.inr (.inl ⟨s', hs', rfl⟩)))).1 s hs)
    · exact .inl ((hf ⟨⟨some f, f.scope⟩, .binder s'⟩
        (Func.mem_occurrences.2 (.inr (.inr (.inl ⟨s', hs', rfl⟩))))).1 s hs)
    · exact .inr ho
  exact {
    table := h.table.trans h'.table
    consistent := h'.consistent
    symbols := fun i o ho s hs => by
      rcases hnames o s i ho hs with hlt | ho | ho
      · exact .inl hlt
      · exact (h.symbols _ o ho s hs).imp_right fun ⟨hlo, hhi⟩ => ⟨hlo, by omega⟩
      · exact (h'.symbols o ho s hs).2.imp_right fun ⟨hlo, hhi⟩ => ⟨by omega, hhi⟩
    declared := fun i j => by
      rw [Func.declarators_occurrences, Func.declarators_occurrences, h'.scope, hscope]
      have hperm := hbody.filterMap (·.part.declarator?)
      rw [List.filterMap_append] at hperm
      refine hperm.trans (((h.declared (some f₂) (some f)).append h'.declared).trans ?_)
      rw [List.append_assoc]
    nodup := List.nodup_append.2 ⟨h.nodup, h'.nodup, fun s hs s' hs' => by
      rintro rfl
      exact Nat.not_lt_of_le (h'.le_new s hs').1 (h.le_new s hs).2⟩
    le_new := fun s hs => by
      rcases List.mem_append.1 hs with hs | hs
      · have := h.le_new s hs
        omega
      · have := h'.le_new s hs
        omega
    added := fun s hlo hhi => by
      by_cases hs : s.index < t'.symbols.size
      · -- A variable of an inner function.
        refine (h.added s hlo hs).imp (·.extends h'.table) fun ⟨hnew, hvar⟩ =>
          ⟨List.mem_append_left _ hnew, fun i => ?_⟩
        obtain ⟨g, hg⟩ := hvar (some f₂)
        refine ⟨g, hg.mono h'.table (fun o ho => (hmem o i).2 (.inr (.inr (.inr (.inl ho)))))
          fun o ho hos => ?_⟩
        rcases hnames o s i ho hos with hlt | ho | ho
        · omega
        · exact ho
        · rcases (h'.symbols o ho s hos).2 with h | h <;> omega
      · -- A variable of this function.
        refine (h'.added s (Nat.le_of_not_lt hs) hhi).imp_right
          fun ⟨hnew, hplaced, hshort, hleads⟩ =>
          ⟨List.mem_append_right _ hnew,
            fun i => ⟨f₂, ⟨⟨i, sc⟩, (hmem _ i).2 (.inl rfl)⟩, ?_, hshort, hleads, ?_⟩⟩
        · rwa [h'.scope]
        · intro o ho hos
          rcases hnames o s i ho hos with hlt | ho | ho
          · omega
          · rcases h.symbols _ o ho s hos with h | h <;> omega
          · exact (h'.symbols o ho s hos).1 }

end Accounted

section

variable {base t : ScopeTable} {v : StackVars} {w : SymbolId}

/-- A function that is skipped. -/
theorem Accounted.Reworked.refl (ht : t.Consistent) (f : Func) : Reworked base t t f f [] [] where
  name := rfl
  params := rfl
  scope := rfl
  table := .refl t
  consistent := ht
  body := by simp
  symbols _ h := nomatch h
  declared := .nil
  nodup := .nil
  le_new _ h := nomatch h
  added _ h h' := absurd h' (Nat.not_lt_of_le h)

/-- A function that gets a frame. -/
theorem Func.Allotted.reworked {f f' : Func} {l : Locals} (h : f.Allotted v w t l f')
    (hbase : base.Extends t) (hv : ∀ s, v.Uses s → s.index < base.symbols.size)
    (hw : w.index < base.symbols.size)
    (hname : ∀ s, f.name = some s → s.index < base.symbols.size) :
    ∃ more, Accounted.Reworked base t l.table f f' more l.pending := by
  obtain ⟨new, hperm, hnew⟩ := h.grown (some f') (fun _ => True) trivial fun _ _ _ _ _ => trivial
  have hpending (s : SymbolId) (hs : s ∈ l.pending) :
      t.symbols.size ≤ s.index ∧ s.index < l.table.symbols.size :=
        ⟨h.tidy.le_pending s hs, h.tidy.lt_size hs⟩
  have huses (s : SymbolId) (hs : v.Uses s ∨ s ∈ l.pending) :
      s.index < base.symbols.size ∨ t.symbols.size ≤ s.index ∧ s.index < l.table.symbols.size :=
    hs.imp (hv s) (hpending s)
  -- What was inserted declares nothing, and stands in the function itself.
  have hinserted (o : Occurrence) (ho : o ∈ new) : o.stand.func = some f' ∧
      o.part.declarator? = none ∧ ∀ s, o.part.symbol? = some s →
        s.index < base.symbols.size ∨ t.symbols.size ≤ s.index ∧
          s.index < l.table.symbols.size := by
    have hparam {sc : ScopeId} {e : SymbolId} (he : l.Param t sc e) :
        t.symbols.size ≤ e.index ∧ e.index < l.table.symbols.size :=
          ⟨he.symbol_le, ScopeTable.lt_of_symbol? he.symbol⟩
    rcases hnew o ho with ho | ⟨s, hs, rfl⟩
    · cases ho with
      | reference _ hs => exact ⟨rfl, rfl, fun _ h => Option.some.inj h ▸ huses _ hs⟩
      | clause => exact ⟨rfl, rfl, fun _ h => nomatch h⟩
      | param he => exact ⟨rfl, rfl, fun _ h => Option.some.inj h ▸ .inr (hparam he)⟩
      | caught he hs =>
        refine ⟨rfl, rfl, fun _ h => Option.some.inj h ▸ ?_⟩
        rcases hs with rfl | rfl | hs
        · exact .inr (hparam he)
        · exact .inl hw
        · exact huses _ hs
    · exact ⟨rfl, rfl, fun _ h => Option.some.inj h ▸ .inl (hname s hs)⟩
  refine ⟨new ++ l.pending.map fun s => ⟨⟨some f', f.scope⟩, .declarator s⟩, h.name, h.params,
    h.scope, h.tidy.table, h.tidy.consistent, hperm, fun o ho s hs =>
    ?_, ?_, h.tidy.nodup, hpending, fun s hlo hhi => ?_⟩
  · rcases List.mem_append.1 ho with ho | ho
    · exact ⟨(hinserted o ho).1, (hinserted o ho).2.2 s hs⟩
    · obtain ⟨s', hs', rfl⟩ := List.mem_map.1 ho
      obtain rfl := Option.some.inj hs
      exact ⟨rfl, .inr (hpending _ hs')⟩
  · have hnone : declarators new = [] := List.filterMap_eq_nil_iff.2 fun o ho =>
      (hinserted o ho).2.1
    rw [declarators_append, hnone, List.nil_append, declarators, List.filterMap_map]
    exact .of_eq List.filterMap_some
  · rcases h.tidy.added s hlo hhi with hs | ⟨sc, hp⟩
    · exact .inr ⟨hs, h.tidy.placed s hs, h.tidy.short s hs, h.leads s hs⟩
    · exact .inl ⟨sc, Nat.le_trans hbase.scopes_le hp.scope_le, hp.symbol, hp.found⟩

/-- Giving functions their frames is accounted for. -/
theorem Program.walk_accounted (p : Program) (recorder : Option Recorder)
    (hrecorder : ∀ r, recorder = some r → v.location = some r.location)
    (hv : ∀ s, v.Uses s → s.index < base.symbols.size) (hw : w.index < base.symbols.size) :
    Walk (p.frameFunc v w recorder) base.Covers fun _ t t' a b =>
      base.Extends t → t.Consistent → ∃ new, Accounted base t t' a b new where
  none sc t _ ht := ⟨[], .same ht (fun _ _ h => nomatch h) fun _ _ => rfl⟩
  one sc part t hQ _ _ ht :=
    ⟨[], .same ht (fun i o ho s hs => by
      obtain rfl := List.mem_singleton.1 ho
      exact hQ.1 s hs) fun _ _ => rfl⟩
  append h h' hbase ht := by
    obtain ⟨new, h⟩ := h hbase ht
    obtain ⟨new', h'⟩ := h' (hbase.trans h.table) h.consistent
    exact ⟨new ++ new', h.append hbase h'⟩
  inner _ h hbase ht := (h hbase ht).imp fun _ h => h.inner _ _
  func n ps b b' sc sc' q t l i hf h hbase ht := by
    obtain ⟨new, h⟩ := h hbase ht
    have hbase' := hbase.trans h.table
    by_cases hskip : Block.isEmpty b' = true ∨ p.isImmortal ⟨n, ps, b', sc, q⟩ = true
    · obtain ⟨hfunc, htable⟩ := p.run_frameFunc_skip v w recorder (f := ⟨n, ps, b', sc, q⟩) hskip l
      rw [hfunc, htable]
      exact ⟨_, Accounted.func hbase ⟨n, ps, b', sc, q⟩ hf rfl rfl rfl h (.refl h.consistent _)⟩
    · obtain ⟨hempty, himm⟩ := not_or.1 hskip
      obtain ⟨hfunc, htable⟩ := p.run_frameFunc v w recorder (f := ⟨n, ps, b', sc, q⟩)
        (Bool.eq_false_of_not_eq_true hempty) (Bool.eq_false_of_not_eq_true himm) l
      have hscope : sc.index < l.table.scopes.size :=
        Nat.lt_of_lt_of_le ((hf _ List.mem_cons_self).2 _ rfl) hbase'.scopes_le
      obtain ⟨ls, hls, hframed⟩ :=
        Func.allotted_framed ⟨n, ps, b', sc, q⟩ w h.consistent hscope hrecorder
      have hname (s : SymbolId) (hs : n = some s) : s.index < base.symbols.size :=
        (hf ⟨⟨i, sc'⟩, .binder s⟩ (Func.mem_occurrences.2 (.inr (.inl ⟨s, hs, rfl⟩)))).1 s rfl
      obtain ⟨more, hmore⟩ := hframed.reworked hbase' hv hw hname
      rw [hfunc, htable, ← hls]
      exact ⟨_, Accounted.func hbase ⟨n, ps, b', sc, q⟩ hf rfl rfl rfl h hmore⟩

end

end FrameLedger
