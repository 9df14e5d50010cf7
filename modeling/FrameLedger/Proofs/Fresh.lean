import FrameLedger.Builder
import FrameLedger.Proofs.Naming
import FrameLedger.Proofs.Redirected

/-!
# Added names are fresh

`Program.Covered.names_added`: whatever a program calls its own things, the names the pass adds are
new, each is declared once and where it belongs, and nothing that was found before is found
differently.
-/

namespace FrameLedger

/-! ## The variables of the stack -/

theorem Part.symbol?_of_declarator? {part : Part} {s : SymbolId} (h : part.declarator? = some s) :
    part.symbol? = some s := by
  cases part with
  | declarator => exact h
  | reference | member | binder | func | clause => nomatch h

namespace StackVars

/-- The symbols of the variables, in the order in which they are declared. -/
def symbols (v : StackVars) : List SymbolId := [v.stack, v.depth] ++ v.location.toList

theorem mem_symbols {v : StackVars} {s : SymbolId} : s ∈ v.symbols ↔ v.Uses s := by
  simp only [symbols, Uses, List.mem_append, List.mem_cons, List.not_mem_nil, or_false,
    Option.mem_toList, or_assoc]

theorem declsOccurrences_decls (v : StackVars) (w : Stand) :
    declsOccurrences v.decls w = v.symbols.map fun s => ⟨w, .declarator s⟩ := by
  rw [decls, symbols]
  rcases v.location with _ | s <;> rfl

theorem names_decls (v : StackVars) : v.decls.map (·.name) = v.symbols := by
  rw [decls, symbols]
  rcases v.location with _ | s <;> rfl

theorem uses_of_replacement? {v : StackVars} {t : ScopeTable} {s s' : SymbolId}
    (h : v.replacement? t s = some s') :
    v.Uses s' := by
  obtain ⟨role, -, hrole⟩ := Option.bind_eq_some_iff.1 h
  cases role with
  | stack => exact .inl (Option.some.inj hrole).symm
  | depth => exact .inr (.inl (Option.some.inj hrole).symm)
  | location => exact .inr (.inr hrole)

end StackVars

namespace ScopeTable

theorem nodup_allocate (withLocation : Bool) (t : ScopeTable) :
    (StackVars.allocate withLocation t).1.symbols.Nodup := by
  rw [allocate_eq]
  cases withLocation <;> simp [StackVars.symbols]

theorem extends_allocate (withLocation : Bool) (t : ScopeTable) :
    t.Extends (StackVars.allocate withLocation t).2 := by
  have htwo := (t.extends_declareUnique program "$es_stack" "$stack").trans
    (extends_declareUnique _ program "$es_stackDepth" "$stackDepth")
  cases withLocation with
  | false => exact htwo
  | true => exact htwo.trans (extends_declareUnique _ program "$es_location" "$location")

theorem Consistent.allocate {t : ScopeTable} (ht : t.Consistent) (withLocation : Bool) :
    (StackVars.allocate withLocation t).2.Consistent := by
  cases withLocation with
  | false => exact (ht.addSymbol _).addSymbol _
  | true => exact ((ht.addSymbol _).addSymbol _).addSymbol _

/-- What is so of a variable as it is declared, and stays so, is so of all variables of the
stack. -/
theorem forall_allocate {P : ScopeTable → SymbolId → Prop}
    (hmono : ∀ t t' s, P t s → t.Extends t' → P t' s)
    (hnew : ∀ (r : StackRole) (t : ScopeTable), program.index < t.scopes.size →
      P (t.declareUnique program r.ident r.reserved).2
        (t.declareUnique program r.ident r.reserved).1)
    {t : ScopeTable} (h : program.index < t.scopes.size) (withLocation : Bool) {s : SymbolId}
    (hs : (StackVars.allocate withLocation t).1.Uses s) :
    P (StackVars.allocate withLocation t).2 s := by
  have hext := t.extends_declareUnique program "$es_stack" "$stack"
  have hstack := hnew .stack t h
  have h₁ := Nat.lt_of_lt_of_le h hext.scopes_le
  have hext₁ :=
    extends_declareUnique (t.declareUnique program "$es_stack" "$stack").2 program "$es_stackDepth"
    "$stackDepth"
  have hdepth := hnew .depth _ h₁
  have h₂ := Nat.lt_of_lt_of_le h₁ hext₁.scopes_le
  cases withLocation with
  | false =>
    rcases hs with rfl | rfl | hs
    · exact hmono _ _ _ hstack hext₁
    · exact hdepth
    · nomatch hs
  | true =>
    have hext₂ := extends_declareUnique
      ((t.declareUnique program "$es_stack" "$stack").2.declareUnique program "$es_stackDepth"
        "$stackDepth").2 program
      "$es_location" "$location"
    rcases hs with rfl | rfl | hs
    · exact hmono _ _ _ hstack (hext₁.trans hext₂)
    · exact hmono _ _ _ hdepth hext₂
    · obtain rfl := Option.some.inj hs
      exact hnew .location _ h₂

/-- The variables of the stack are found in the program scope. -/
theorem placed_allocate {t : ScopeTable} (h : program.index < t.scopes.size) (withLocation : Bool)
    {s : SymbolId} (hs : (StackVars.allocate withLocation t).1.Uses s) :
    (StackVars.allocate withLocation t).2.Placed program s :=
  forall_allocate (P := fun t s => t.Placed program s) (fun _ _ _ => Placed.extends)
    (fun r t h => placed_addSymbol (r := t.freshSymbol program r.ident r.reserved) h) h withLocation
      hs

end ScopeTable

/-! ## A leading `var` statement -/

section

variable {ss : List Stmt} {s : SymbolId}

theorem names_declsMapVars (ρ : SymbolId → SymbolId) (ds : List VarDecl) :
    (declsMapVars ρ ds).map (·.name) = ds.map (·.name) := by
  induction ds with
  | nil => rfl
  | cons d ds ih =>
    obtain ⟨s, e, p⟩ := d
    rw [declsMapVars, List.map_cons, List.map_cons, ih]

theorem names_declsMapFuncs (f : Func → StateM Ledger Func) : ∀ (ds : List VarDecl) (l : Ledger),
    ((declsMapFuncs f ds).run l).1.map (·.name) = ds.map (·.name)
  | [], l => by
    rw [declsMapFuncs]
    rfl
  | ⟨s, e, p⟩ :: ds, l => by
    rw [declsMapFuncs, List.map_cons, ← names_declsMapFuncs f ds ((exprMapFuncs? f e).run l).2]
    rfl

theorem Leads.mapVars (h : Leads ss s) (ρ : SymbolId → SymbolId) : Leads (stmtsMapVars ρ ss) s := by
  obtain ⟨p, ds, rest, rfl, hs⟩ := h
  exact ⟨p, declsMapVars ρ ds, stmtsMapVars ρ rest, rfl, by rwa [names_declsMapVars]⟩

theorem Leads.mapFuncs (h : Leads ss s) (f : Func → StateM Ledger Func) (l : Ledger) :
    Leads ((stmtsMapFuncs f ss).run l).1 s := by
  obtain ⟨p, ds, rest, rfl, hs⟩ := h
  rw [stmtsMapFuncs, Stmt.mapFuncs]
  exact ⟨p, ((declsMapFuncs f ds).run l).1, _, rfl, by rwa [names_declsMapFuncs]⟩

end

/-! ## Programs -/

theorem ScopeTable.Covers.extends {t t' : ScopeTable} {sc : ScopeId} {part : Part}
    (h : t.Covers sc part) (ht : t.Extends t') :
    t'.Covers sc part :=
  ⟨fun s hs => Nat.lt_of_lt_of_le (h.1 s hs) ht.symbols_le, fun f hf => Nat.lt_of_lt_of_le
    (h.2 f hf) ht.scopes_le⟩

theorem ScopeTable.Covers.mapVars {t : ScopeTable} {sc : ScopeId} {part : Part}
    (h : t.Covers sc part) {ρ : SymbolId → SymbolId}
    (hρ : ∀ s, s.index < t.symbols.size → (ρ s).index < t.symbols.size) :
    t.Covers sc (part.mapVars ρ) := by
  cases part with
  | reference s => exact ⟨fun _ hs => Option.some.inj hs ▸ hρ s (h.1 s rfl), nofun⟩
  | func f =>
    obtain ⟨n, ps, b, sc', p⟩ := f
    refine ⟨nofun, fun _ hf => ?_⟩
    rw [← Part.func.inj hf]
    exact h.2 ⟨n, ps, b, sc', p⟩ rfl
  | member | declarator | binder | clause => exact h

theorem perm_declareIn (v : StackVars) (b : Block) (w : Stand) :
    ((v.declareIn b).occurrences w).Perm
      (b.occurrences w ++ v.symbols.map fun s => ⟨w, .declarator s⟩) := by
  obtain ⟨ss, p⟩ := b
  rw [← v.declsOccurrences_decls]
  exact perm_mergeVars _ _ ss w

namespace Program

/-- The symbols and scopes of a program are in its table. -/
structure Covered (p : Program) : Prop where
  code : AllParts p.table.Covers p.occurrences
  scope : ScopeTable.program.index < p.table.scopes.size
  wrap : ∀ s, p.wrap? = some s → s.index < p.table.symbols.size

def isCovered (p : Program) : Bool :=
  p.occurrences.all
    (fun o => o.part.symbol?.all (·.index < p.table.symbols.size) && match o.part with
    | .func f => decide (f.scope.index < p.table.scopes.size)
    | _ => true) &&
    decide (ScopeTable.program.index < p.table.scopes.size) &&
    p.wrap?.all (·.index < p.table.symbols.size)

theorem covered_of_isCovered {p : Program} (h : p.isCovered = true) : p.Covered := by
  simp only [isCovered, Bool.and_eq_true, List.all_eq_true, Option.all_eq_true,
    decide_eq_true_eq] at h
  obtain ⟨⟨hcode, hscope⟩, hwrap⟩ := h
  refine ⟨fun o ho => ⟨(hcode o ho).1, fun f hf => ?_⟩, hscope, hwrap⟩
  have hfunc := (hcode o ho).2
  rw [hf] at hfunc
  exact of_decide_eq_true hfunc

section

variable {p : Program}

/-- The table with the variables of the stack. -/
def stackTable (p : Program) (r : Recording) : ScopeTable :=
  (StackVars.allocate (r.hasLines || p.references .location) p.table).2

/-- A reserved name is redirected to the variable of its role. -/
def redirect (p : Program) (r : Recording) (s : SymbolId) : SymbolId :=
  ((p.stackVars r).replacement? (p.stackTable r) s).getD s

/-- The code before functions get their frames. -/
def redirected (p : Program) (r : Recording) : Block :=
  ((p.stackVars r).declareIn p.code).mapVars (p.redirect r)

/-- What the pass comes to. -/
theorem emulate_run {w : SymbolId} (hw : p.wrap? = some w) (r : Recording) :
    (p.emulate r).1.vars = some (p.stackVars r) ∧ ∃ stats,
      let y := ((p.redirected r).mapFuncs (p.frameFunc (p.stackVars r) w (p.recorder r))).run
        ⟨p.stackTable r, stats, []⟩
      (p.emulate r).2.code = y.1 ∧ (p.emulate r).2.table = y.2.table := by
  simp only [emulate, hw, substitute_eq]
  exact ⟨rfl, _, rfl, rfl⟩

theorem emulate_no_wrap (hw : p.wrap? = none) (r : Recording) : (p.emulate r).1.vars = none ∧
    (p.emulate r).2 = p := by
  rw [emulate, hw]
  exact ⟨rfl, rfl⟩

theorem uses_of_lt_stackTable {r : Recording} {s : SymbolId} (hlo : p.table.symbols.size ≤ s.index)
    (hhi : s.index < (p.stackTable r).symbols.size) : (p.stackVars r).Uses s := by
  rw [stackTable, ScopeTable.size_allocate] at hhi
  rw [stackVars, ScopeTable.allocate_eq]
  obtain ⟨i⟩ := s
  simp only [StackVars.Uses, SymbolId.mk.injEq] at hlo hhi ⊢
  split at hhi <;> grind

theorem redirect_cases (p : Program) (r : Recording) (s : SymbolId) :
    (p.stackVars r).Uses (p.redirect r s) ∨ p.redirect r s = s := by
  rw [redirect]
  rcases h : (p.stackVars r).replacement? (p.stackTable r) s with _ | s'
  · exact .inr rfl
  · exact .inl (StackVars.uses_of_replacement? h)

theorem occurrences_redirected (p : Program) (r : Recording) :
    (p.redirected r).occurrences ⟨none, ScopeTable.program⟩ =
      (((p.stackVars r).declareIn p.code).occurrences ⟨none, ScopeTable.program⟩).map
        (Occurrence.mapVars (p.redirect r)) :=
  Block.occurrences_mapVars _ _ ⟨none, ScopeTable.program⟩

theorem declarators_redirected (p : Program) (r : Recording) :
    (declarators ((p.redirected r).occurrences ⟨none, ScopeTable.program⟩)).Perm
      (declarators p.occurrences ++ (p.stackVars r).symbols) := by
  have hperm :=
    (perm_declareIn (p.stackVars r) p.code ⟨none, ScopeTable.program⟩).filterMap
    (·.part.declarator?)
  rw [List.filterMap_append, List.filterMap_map] at hperm
  have hsymbols : (p.stackVars r).symbols.filterMap ((·.part.declarator?) ∘ fun s : SymbolId =>
      (⟨⟨none, ScopeTable.program⟩, .declarator s⟩ : Occurrence)) = (p.stackVars r).symbols :=
        List.filterMap_some
  rw [occurrences_redirected, declarators_mapVars]
  rwa [hsymbols] at hperm

theorem Covered.redirected (hp : p.Covered) (r : Recording) :
    AllParts (p.stackTable r).Covers ((p.redirected r).occurrences ⟨none, ScopeTable.program⟩) := by
  have hv (s : SymbolId) (hs : (p.stackVars r).Uses s) : s.index < (p.stackTable r).symbols.size :=
    (uses_stackVars hs).2
  rw [occurrences_redirected]
  intro o' ho'
  obtain ⟨o, ho, rfl⟩ := List.mem_map.1 ho'
  have hcovers : (p.stackTable r).Covers o.stand.scope o.part := by
    rcases List.mem_append.1 ((perm_declareIn _ _ _).mem_iff.1 ho) with ho | ho
    · exact (hp.code o ho).extends (ScopeTable.extends_allocate _ _)
    · obtain ⟨s, hs, rfl⟩ := List.mem_map.1 ho
      exact ⟨fun s' hs' => Option.some.inj hs' ▸ hv s (StackVars.mem_symbols.1 hs), nofun⟩
  refine hcovers.mapVars fun s hs => ?_
  rcases p.redirect_cases r s with h | h
  · exact hv _ h
  · rwa [h]

/-- The account of the whole pass. -/
theorem Covered.accounted (hp : p.Covered) (ht : p.table.Consistent) {w : SymbolId}
    (hw : p.wrap? = some w) (r : Recording) :
    ∃ new, Accounted (p.stackTable r) (p.stackTable r) (p.emulate r).2.table
      (fun i => (p.redirected r).occurrences ⟨i, ScopeTable.program⟩)
      (fun i => (p.emulate r).2.code.occurrences ⟨i, ScopeTable.program⟩) new := by
  obtain ⟨-, stats, hcode, htable⟩ := emulate_run hw r
  rw [hcode, htable]
  have hext : p.table.Extends (p.stackTable r) := ScopeTable.extends_allocate _ _
  have W := p.walk_accounted (p.recorder r) (fun _ => recorder_location)
    (fun s hs => (uses_stackVars (r := r) hs).2) (Nat.lt_of_lt_of_le (hp.wrap w hw) hext.symbols_le)
  exact Block.walked W _ none ScopeTable.program (hp.redirected r) ⟨p.stackTable r, stats, []⟩
    (.refl _) (ht.allocate _)

theorem leads_emulate {w : SymbolId} (hw : p.wrap? = some w) (r : Recording) {s : SymbolId}
    (hs : (p.stackVars r).Uses s) : Leads (p.emulate r).2.code.stmts s := by
  obtain ⟨-, stats, hcode, -⟩ := emulate_run hw r
  have hleads : Leads ((p.stackVars r).declareIn p.code).stmts s :=
    leads_mergeVars _ (by rwa [StackVars.names_decls, StackVars.mem_symbols]) _
  rw [hcode, Program.redirected]
  generalize (p.stackVars r).declareIn p.code = b at hleads
  obtain ⟨ss, q⟩ := b
  rw [Block.mapVars, Block.mapFuncs]
  exact (hleads.mapVars _).mapFuncs _ _

/-- How a program goes on as `p'` when names are added for a stack that `vars` hold. -/
structure NamesAdded (p p' : Program) (vars : Option StackVars) : Prop where
  consistent : p'.table.Consistent
  table : p.table.Extends p'.table
  unused : ∀ s : SymbolId, p.table.symbols.size ≤ s.index →
    ∀ o ∈ p.occurrences, o.part.symbol? ≠ some s
  stack : ∀ v, vars = some v → ∀ s, v.Uses s → p.table.symbols.size ≤ s.index ∧
    p'.table.Placed ScopeTable.program s ∧ (declarators p'.occurrences).count s = 1 ∧
      Leads p'.code.stmts s
  added : ∀ s : SymbolId, p.table.symbols.size ≤ s.index → s.index < p'.table.symbols.size →
    (∃ v, vars = some v ∧ v.Uses s) ∨ p.table.ClauseParam p'.table s ∨
      ∃ g, FrameVar p'.table p'.occurrences g s ∧ (declarators p'.occurrences).count s = 1

/-- Whatever a program calls its own things, the pass adds names that the program does not use,
declares each once and where it belongs, and leaves all that is found in the table as it is. -/
theorem Covered.names_added (hp : p.Covered) (ht : p.table.Consistent) (r : Recording) :
    p.NamesAdded (p.emulate r).2 (p.emulate r).1.vars := by
  have hold (s : SymbolId) (hs : p.table.symbols.size ≤ s.index) : ∀ o ∈ p.occurrences,
      o.part.symbol? ≠ some s :=
    fun o ho h => Nat.not_le_of_lt ((hp.code o ho).1 s h) hs
  rcases hw : p.wrap? with _ | w
  · obtain ⟨hvars, hsame⟩ := emulate_no_wrap hw r
    rw [hvars, hsame]
    exact ⟨ht, .refl _, hold, nofun, fun s h h' => absurd h' (Nat.not_lt_of_le h)⟩
  obtain ⟨hvars, -⟩ := emulate_run hw r
  obtain ⟨new, h⟩ := hp.accounted ht hw r
  have hext : p.table.Extends (p.stackTable r) := ScopeTable.extends_allocate _ _
  have hv (s : SymbolId) (hs : (p.stackVars r).Uses s) :
      p.table.symbols.size ≤ s.index ∧ s.index < (p.stackTable r).symbols.size := uses_stackVars hs
  have hdecls : (declarators (p.emulate r).2.occurrences).Perm
      (declarators p.occurrences ++ (p.stackVars r).symbols ++ new) :=
    (h.declared none none).trans ((p.declarators_redirected r).append_right _)
  have hcount (s : SymbolId) (hs : p.table.symbols.size ≤ s.index) :
      (declarators (p.emulate r).2.occurrences).count s =
        (p.stackVars r).symbols.count s + new.count s := by
    have hnone : s ∉ declarators p.occurrences := fun hmem => by
      obtain ⟨o, ho, hpart⟩ := List.mem_filterMap.1 hmem
      exact hold s hs o ho (Part.symbol?_of_declarator? hpart)
    rw [hdecls.count_eq, List.count_append, List.count_append, List.count_eq_zero.2 hnone,
      Nat.zero_add]
  have hnodup : (p.stackVars r).symbols.Nodup := ScopeTable.nodup_allocate _ _
  have hstack (s : SymbolId)
      (hs : (p.stackVars r).Uses s) : (declarators (p.emulate r).2.occurrences).count s = 1 := by
    have hnone : s ∉ new := fun hmem => Nat.not_lt_of_le (h.le_new s hmem).1 (hv s hs).2
    rw [hcount s (hv s hs).1, List.count_eq_zero.2 hnone,
      List.count_eq_one_of_mem hnodup (StackVars.mem_symbols.2 hs)]
  refine ⟨h.consistent, hext.trans h.table, hold, fun v hv' s hs => ?_, fun s hlo hhi => ?_⟩
  · obtain rfl := Option.some.inj (hvars.symm.trans hv')
    exact ⟨(hv s hs).1, (ScopeTable.placed_allocate hp.scope _ hs).extends h.table, hstack s hs,
      leads_emulate hw r hs⟩
  by_cases hlt : s.index < (p.stackTable r).symbols.size
  · exact .inl ⟨_, hvars, uses_of_lt_stackTable hlo hlt⟩
  rcases h.added s (Nat.le_of_not_lt hlt) hhi with ⟨sc, hsc, hs⟩ | ⟨hs, hvar⟩
  · exact .inr (.inl ⟨sc, Nat.le_trans hext.scopes_le hsc, hs⟩)
  · obtain ⟨g, hg⟩ := hvar none
    have hnone : s ∉ (p.stackVars r).symbols :=
      fun hmem => hlt (hv s (StackVars.mem_symbols.1 hmem)).2
    refine .inr (.inr ⟨g, hg, ?_⟩)
    rw [hcount s hlo, List.count_eq_zero.2 hnone, List.count_eq_one_of_mem h.nodup hs]

end

end Program

open Builder in
/-- A program with names like those the pass adds: `function g($es_stackIndex, $es_stackIndex_1) {
try { return $stack; } finally { …; } return g(); }` -/
@[irreducible] def lookalike : Program :=
  ((do
    let _ ← defineWrap
    let p ← getPos
    let s ← declareGlobal "$es_stack"
    Builder.push (.vars p [⟨s, none, p⟩])
    let (_, decl) ← functionDecl "g" ["$es_stackIndex", "$es_stackIndex_1"] fun params => do
      let reserved ← resolve "$stack"
      let g ← resolve "g"
      let h ← function none ["e"] fun _ => return [.ret p (params.head?.map (.var p))]
      return [.tryBlock p ⟨[.ret p (some (.var p reserved))], p⟩ []
        (some ⟨[.ofExpr (.call p (.func p h) [])], p⟩), .ret p (some (.call p (.var p g) []))]
    Builder.push decl : StateM Builder Unit).run (.start "lookalike.js")).2.program

theorem lookalike_evaluated : lookalike.isCovered = true ∧ lookalike.table.isConsistent = true ∧
    ((lookalike.emulate .lines).2.table.symbols.toList.drop lookalike.table.symbols.size).map
      (·.ident) =
      ["$es_stack_1", "$es_stackDepth", "$es_location", "$es_stackIndex", "$es_returnTemp",
        "$es_stackIndex", "$es_returnTemp", "$es_stackIndex_2", "$es_exitingEarly0", "e",
        "$es_returnTemp"] := by decide +kernel

theorem Program.Covered.names_added_lookalike : lookalike.Covered ∧ lookalike.table.Consistent ∧
    ((lookalike.emulate .lines).2.table.symbols.toList.drop lookalike.table.symbols.size).map
      (·.ident) =
      ["$es_stack_1", "$es_stackDepth", "$es_location", "$es_stackIndex", "$es_returnTemp",
        "$es_stackIndex", "$es_returnTemp", "$es_stackIndex_2", "$es_exitingEarly0", "e",
        "$es_returnTemp"] ∧
    lookalike.NamesAdded (lookalike.emulate .lines).2 (lookalike.emulate .lines).1.vars :=
  have hp := Program.covered_of_isCovered lookalike_evaluated.1
  have ht := ScopeTable.consistent_of_isConsistent lookalike_evaluated.2.1
  ⟨hp, ht, lookalike_evaluated.2.2, hp.names_added ht .lines⟩

end FrameLedger
