import FrameLedger.Proofs.Fresh
import FrameLedger.Proofs.Lookup

/-!
# Captured names

Names that the pass adds are free in one scope, and scopes inside that one may hold the same
identifier. Every reference of a program that went through the pass is still one to a symbol of a
scope around it, and it resolves to that symbol exactly if no scope on the way out declares its
identifier: `Program.Nested.resolves_iff`. Between a variable of the stack and its uses these are
identifiers of the program itself.
-/

namespace FrameLedger

/-! ## Identifiers -/

namespace Locals

/-- How identifiers begin that are given. -/
theorem Given.take {x : String} (h : Given x) : x.toList.take 10 ∈
    ["e".toList, "$es_stackI".toList, "$es_return".toList, "$es_exitin".toList] := by
  rcases h with rfl | ⟨ident, k, h, rfl⟩
  · decide
  · obtain ⟨rest, hrest⟩ := ScopeTable.toList_candidate ident k
    rw [hrest]
    rcases h with rfl | rfl | ⟨n, rfl⟩
    · simp
    · simp
    · simp [String.toList_append]

/-- The variables of the stack are called otherwise. -/
theorem not_given_candidate (r : StackRole) (k : Nat) :
    ¬ Given (ScopeTable.candidate r.ident k) := by
  intro h
  have htake := h.take
  obtain ⟨rest, hrest⟩ := ScopeTable.toList_candidate r.ident k
  revert htake
  cases r with
  | stack =>
    cases k with
    | zero => decide
    | succ k => simp [ScopeTable.candidate, StackRole.ident, String.toList_append]
  | depth | location =>
    rw [hrest]
    simp [StackRole.ident]

theorem Tidy.descends {t : ScopeTable} {sc : ScopeId} {l : Locals} (hl : l.Tidy t sc)
    (ht : t.Descends) :
    l.table.Descends := by
  intro a b h
  rcases hl.parents a b h with h | ⟨rfl, hle⟩
  · exact ht a b h
  · exact Nat.lt_of_lt_of_le hl.scope_lt hle

end Locals

namespace ScopeTable

theorem ident_allocate {t : ScopeTable} (h : program.index < t.scopes.size) (withLocation : Bool)
    {s : SymbolId} (hs : (StackVars.allocate withLocation t).1.Uses s) :
    ∃ x, (StackVars.allocate withLocation t).2.symbol? s = some x ∧
      ∃ r k, x.ident = candidate (StackRole.ident r) k :=
  forall_allocate (P := fun t s => ∃ x, t.symbol? s = some x ∧
    ∃ r k, x.ident = candidate (StackRole.ident r) k)
    (fun _ _ _ ⟨x, hx, hident⟩ ht => ⟨x, ht.symbol _ x hx, hident⟩)
    (fun r t _ => ⟨_, symbol?_addSymbol_self t _, r, _, rfl⟩) h withLocation hs

/-- Other scopes than the program scope stay as they are. -/
theorem findIn_allocate (withLocation : Bool) (t : ScopeTable) {sc : ScopeId} (hsc : sc ≠ program)
    (x : String) :
    (StackVars.allocate withLocation t).2.findIn sc x = t.findIn sc x := by
  cases withLocation with
  | false => exact (findIn_addSymbol_of_ne (.inl hsc)).trans (findIn_addSymbol_of_ne (.inl hsc))
  | true =>
    exact (findIn_addSymbol_of_ne (.inl hsc)).trans
      ((findIn_addSymbol_of_ne (.inl hsc)).trans (findIn_addSymbol_of_ne (.inl hsc)))

theorem parent?_allocate (withLocation : Bool) (t : ScopeTable) (sc : ScopeId) :
    (StackVars.allocate withLocation t).2.parent? sc = t.parent? sc := by
  cases withLocation with
  | false => exact (parent?_addSymbol ..).trans (parent?_addSymbol ..)
  | true => exact (parent?_addSymbol ..).trans ((parent?_addSymbol ..).trans (parent?_addSymbol ..))

end ScopeTable

/-! ## Nested code -/

/-- A part that stands in `sc`: the scopes of functions and clauses are inside of it, and what is
referred to stands around it. -/
structure ScopeTable.Encloses (t : ScopeTable) (sc : ScopeId) (part : Part) : Prop where
  covers : t.Covers sc part
  inside : t.Reaches sc program
  func : ∀ f, part = .func f → t.Reaches f.scope sc ∧ ∀ s, f.name = some s → t.Homes sc s
  clause : ∀ c, part = .clause c → t.Reaches c sc
  reference : ∀ s, part = .reference s → t.Homes sc s

/-- What is known of code in `sc` while a tree is walked over. -/
structure Enclosed (sc : ScopeId) (t t' : ScopeTable) (b : Listing) : Prop where
  table : t.Extends t'
  consistent : t'.Consistent
  descends : t'.Descends
  clauses : ∀ i, ∀ o ∈ b i, ∀ c, o.part = .clause c → t'.Reaches c sc
  references : ∀ i, ∀ o ∈ b i, ∀ s, o.part = .reference s → t'.Homes o.stand.scope s
  found : ∀ a x s, t'.findIn a x = some s → t.findIn a x = some s ∨ Locals.Given x

section

variable {base t t' t'' : ScopeTable} {sc : ScopeId} {a b b' : Listing}

theorem Enclosed.append (h : Enclosed sc t t' b) (h' : Enclosed sc t' t'' b') :
    Enclosed sc t t'' fun i => b i ++ b' i where
  table := h.table.trans h'.table
  consistent := h'.consistent
  descends := h'.descends
  clauses i o ho c hc := by
    rcases List.mem_append.1 ho with ho | ho
    · exact (h.clauses i o ho c hc).extends h'.table
    · exact h'.clauses i o ho c hc
  references i o ho s hs := by
    rcases List.mem_append.1 ho with ho | ho
    · exact (h.references i o ho s hs).extends h'.table
    · exact h'.references i o ho s hs
  found a x s hs := (h'.found a x s hs).elim (h.found a x s) .inr

/-- What a function with a frame names besides. -/
theorem Func.Allotted.encloses {v : StackVars} {w : SymbolId} {f f' : Func} {l : Locals}
    (h : f.Allotted v w t l f') (hbase : base.Extends t)
    (hin : base.Reaches f.scope ScopeTable.program)
    (hv : ∀ s, v.Uses s → base.Placed ScopeTable.program s) (hw : base.Homes ScopeTable.program w)
    (hname : ∀ s, f.name = some s → base.Homes f.scope s) (i : Option Func)
    (hclauses : ∀ o ∈ f.body.occurrences ⟨i, f.scope⟩, ∀ c, o.part = .clause c →
      t.Reaches c f.scope) :
    ∃ more, (f'.body.occurrences ⟨i, f.scope⟩).Perm (f.body.occurrences ⟨i, f.scope⟩ ++ more) ∧
      ∀ o ∈ more, (∀ c, o.part = .clause c → l.table.Reaches c f.scope) ∧
        ∀ s, o.part = .reference s → l.table.Homes o.stand.scope s := by
  have hext := hbase.trans h.tidy.table
  have huses {s : SymbolId} {c : ScopeId} (hc : l.table.Reaches c f.scope)
      (hs : v.Uses s ∨ s ∈ l.pending) :
      l.table.Homes c s := by
    rcases hs with hs | hs
    · exact ⟨_, (hv s hs).extends hext, hc.trans (hin.extends hext)⟩
    · exact ⟨_, h.tidy.placed s hs, hc⟩
  have hparam {c : ScopeId} {e : SymbolId} (he : l.Param t c e) : l.table.Reaches c f.scope :=
    .single (h.tidy.scope ▸ he.parent)
  obtain ⟨new, hperm, hnew⟩ := h.grown i (l.table.Reaches · f.scope) .refl fun o ho c hc _ =>
    (hclauses o ho c hc).extends h.tidy.table
  refine ⟨_, hperm, fun o ho => ?_⟩
  rcases List.mem_append.1 ho with ho | ho
  · rcases hnew o ho with ho | ⟨s, hs, rfl⟩
    · cases ho with
      | reference hsc hs => exact ⟨nofun, fun _ h => Part.reference.inj h ▸ huses hsc hs⟩
      | clause _ he => exact ⟨fun _ h => Part.clause.inj h ▸ hparam he, nofun⟩
      | param => exact ⟨nofun, nofun⟩
      | caught he hs =>
        refine ⟨nofun, fun _ h => Part.reference.inj h ▸ ?_⟩
        rcases hs with rfl | rfl | hs
        · exact ⟨_, ⟨_, he.symbol, rfl, he.found⟩, .refl⟩
        · exact (hw.extends hext).inside ((hparam he).trans (hin.extends hext))
        · exact huses (hparam he) hs
    · exact ⟨nofun, fun _ h => Part.reference.inj h ▸ (hname s hs).extends hext⟩
  · obtain ⟨s, -, rfl⟩ := List.mem_map.1 ho
    exact ⟨nofun, nofun⟩

/-- A function whose body is enclosed in its scope. -/
theorem Enclosed.func (f₁ : Func) {f f₂ : Func} {i₀ : Option Func} {sc' : ScopeId}
    (hbase : base.Extends t) (hf : AllParts base.Encloses (f.occurrences ⟨i₀, sc'⟩))
    (hscope : f₂.scope = f.scope)
    (h : Enclosed f.scope t t' fun i => f₁.body.occurrences ⟨i, f.scope⟩) (hext : t'.Extends t'')
    (hconsistent : t''.Consistent) (hdescends : t''.Descends)
    (hbody : ∃ more, (f₂.body.occurrences ⟨some f₂, f.scope⟩).Perm
      (f₁.body.occurrences ⟨some f₂, f.scope⟩ ++ more) ∧
      ∀ o ∈ more, (∀ c, o.part = .clause c → t''.Reaches c f.scope) ∧
        ∀ s, o.part = .reference s → t''.Homes o.stand.scope s)
    (hfound : ∀ a x s, t''.findIn a x = some s → t'.findIn a x = some s ∨ Locals.Given x) :
    Enclosed sc' t t'' fun i => f₂.occurrences ⟨i, sc'⟩ := by
  obtain ⟨more, hperm, hmore⟩ := hbody
  have hself := hf ⟨⟨i₀, sc'⟩, .func f⟩ (Func.mem_occurrences.2 (.inl rfl))
  have hin : t''.Reaches f.scope sc' :=
    (hself.func f rfl).1.extends (hbase.trans (h.table.trans hext))
  have hparts (i : Option Func) (o : Occurrence) (ho : o ∈ f₂.occurrences ⟨i, sc'⟩) :
      (∀ c, o.part = .clause c → t''.Reaches c f.scope) ∧
        ∀ s, o.part = .reference s → t''.Homes o.stand.scope s := by
    rw [Func.mem_occurrences, hscope, hperm.mem_iff, List.mem_append] at ho
    rcases ho with rfl | ⟨s, -, rfl⟩ | ⟨s, -, rfl⟩ | ho | ho
    · exact ⟨nofun, nofun⟩
    · exact ⟨nofun, nofun⟩
    · exact ⟨nofun, nofun⟩
    · exact ⟨fun c hc => (h.clauses _ o ho c hc).extends hext,
        fun s hs => (h.references _ o ho s hs).extends hext⟩
    · exact hmore o ho
  exact {
    table := h.table.trans hext
    consistent := hconsistent
    descends := hdescends
    clauses := fun i o ho c hc => ((hparts i o ho).1 c hc).trans hin
    references := fun i o ho => (hparts i o ho).2
    found := fun a x s hs => (hfound a x s hs).elim (h.found a x s) .inr }

end

/-- Giving functions their frames keeps code nested. -/
theorem Program.walk_enclosed (p : Program) {base : ScopeTable} {v : StackVars} {w : SymbolId}
    (recorder : Option Recorder) (hrecorder : ∀ r, recorder = some r → v.location = some r.location)
    (hv : ∀ s, v.Uses s → base.Placed ScopeTable.program s) (hw : base.Homes ScopeTable.program w) :
    Walk (p.frameFunc v w recorder) base.Encloses fun sc t t' _ b =>
      base.Extends t → t.Consistent → t.Descends → Enclosed sc t t' b where
  none sc t _ ht hd := ⟨.refl t, ht, hd, nofun, nofun, fun _ _ _ => .inl⟩
  one sc part t hQ _ hbase ht hd := by
    refine ⟨.refl t, ht, hd, fun i o ho c hc => ?_, fun i o ho s hs => ?_, fun _ _ _ => .inl⟩
    · obtain rfl := List.mem_singleton.1 ho
      exact (hQ.clause c hc).extends hbase
    · obtain rfl := List.mem_singleton.1 ho
      exact (hQ.reference s hs).extends hbase
  append h h' hbase ht hd := by
    have h := h hbase ht hd
    exact h.append (h' (hbase.trans h.table) h.consistent h.descends)
  inner hQ h hbase ht hd := by
    have h := h hbase ht hd
    have hin := (hQ.clause _ rfl).extends (hbase.trans h.table)
    refine ⟨h.table, h.consistent, h.descends, fun i o ho c hc => ?_, fun i o ho s hs => ?_,
      h.found⟩
    · rcases List.mem_cons.1 ho with rfl | ho
      · exact Part.clause.inj hc ▸ hin
      · exact (h.clauses i o ho c hc).trans hin
    · rcases List.mem_cons.1 ho with rfl | ho
      · nomatch hs
      · exact h.references i o ho s hs
  func n ps b b' sc sc' q t l i hf h hbase ht hd := by
    have h := h hbase ht hd
    have hbase' := hbase.trans h.table
    by_cases hskip : Block.isEmpty b' = true ∨ p.isImmortal ⟨n, ps, b', sc, q⟩ = true
    · obtain ⟨hfunc, htable⟩ := p.run_frameFunc_skip v w recorder (f := ⟨n, ps, b', sc, q⟩) hskip l
      rw [hfunc, htable]
      exact .func ⟨n, ps, b', sc, q⟩ hbase hf rfl h (.refl _) h.consistent h.descends
        ⟨[], by simp, nofun⟩ fun _ _ _ => .inl
    · obtain ⟨hempty, himm⟩ := not_or.1 hskip
      obtain ⟨hfunc, htable⟩ := p.run_frameFunc v w recorder (f := ⟨n, ps, b', sc, q⟩)
        (Bool.eq_false_of_not_eq_true hempty) (Bool.eq_false_of_not_eq_true himm) l
      have hself := hf _ List.mem_cons_self
      have hscope : sc.index < l.table.scopes.size :=
        Nat.lt_of_lt_of_le (hself.covers.2 _ rfl) hbase'.scopes_le
      obtain ⟨hin, hname⟩ := hself.func _ rfl
      obtain ⟨ls, hls, hframed⟩ :=
        Func.allotted_framed ⟨n, ps, b', sc, q⟩ w h.consistent hscope hrecorder
      rw [hfunc, htable, ← hls]
      exact .func ⟨n, ps, b', sc, q⟩ hbase hf hframed.scope h hframed.tidy.table
        hframed.tidy.consistent (hframed.tidy.descends h.descends)
        (hframed.encloses hbase' (hin.trans hself.inside) hv hw
          (fun s hs => (hname s hs).inside hin) _ (h.clauses _))
        hframed.tidy.found

/-! ## Programs -/

theorem ScopeTable.Encloses.extends {t t' : ScopeTable} {sc : ScopeId} {part : Part}
    (h : t.Encloses sc part) (ht : t.Extends t') :
    t'.Encloses sc part where
  covers := h.covers.extends ht
  inside := h.inside.extends ht
  func f hf := ⟨(h.func f hf).1.extends ht, fun s hs => ((h.func f hf).2 s hs).extends ht⟩
  clause c hc := (h.clause c hc).extends ht
  reference s hs := (h.reference s hs).extends ht

/-- References are redirected to symbols that stand around the program. -/
theorem ScopeTable.Encloses.mapVars {t : ScopeTable} {sc : ScopeId} {part : Part}
    (h : t.Encloses sc part)
    {ρ : SymbolId → SymbolId} (hρ : ∀ s, t.Placed program (ρ s) ∨ ρ s = s) :
    t.Encloses sc (part.mapVars ρ) where
  covers := h.covers.mapVars fun s hs => by
    rcases hρ s with ⟨r, hr, -⟩ | heq
    · exact lt_of_symbol? hr
    · rwa [heq]
  inside := h.inside
  func f hf := by
    cases part with
    | func g =>
      obtain ⟨n, ps, b, sc', q⟩ := g
      obtain rfl := Part.func.inj hf
      exact h.func ⟨n, ps, b, sc', q⟩ rfl
    | reference | member | declarator | binder | clause => nomatch hf
  clause c hc := by
    cases part with
    | clause => exact h.clause c hc
    | reference | member | declarator | binder | func => nomatch hc
  reference s hs := by
    cases part with
    | reference s' =>
      obtain rfl := Part.reference.inj hs
      rcases hρ s' with hplaced | heq
      · exact ⟨_, hplaced, h.inside⟩
      · rw [heq]
        exact h.reference s' rfl
    | clause | member | declarator | binder | func => nomatch hs

namespace Program

/-- A program whose scopes nest as its code does, and whose references resolve. -/
structure Nested (p : Program) : Prop where
  consistent : p.table.Consistent
  descends : p.table.Descends
  covered : p.Covered
  inside : ∀ o ∈ p.occurrences, p.table.Reaches o.stand.scope ScopeTable.program
  func : ∀ o ∈ p.occurrences, ∀ f, o.part = .func f →
    p.table.Reaches f.scope o.stand.scope ∧ ∀ s, f.name = some s → p.table.Resolves o.stand.scope s
  clause : ∀ o ∈ p.occurrences, ∀ c, o.part = .clause c → p.table.Reaches c o.stand.scope
  reference : ∀ o ∈ p.occurrences, ∀ s, o.part = .reference s → p.table.Resolves o.stand.scope s
  wrap : ∀ w, p.wrap? = some w → p.table.Resolves ScopeTable.program w

def isNested (p : Program) : Bool :=
  let t := p.table
  t.isConsistent && t.descends && p.isCovered && p.wrap?.all (t.resolves ScopeTable.program) &&
    p.occurrences.all fun o =>
      t.reaches o.stand.scope ScopeTable.program && match o.part with
        | .func f => t.reaches f.scope o.stand.scope && f.name.all (t.resolves o.stand.scope)
        | .clause c => t.reaches c o.stand.scope
        | .reference s => t.resolves o.stand.scope s
        | _ => true

theorem nested_of_isNested {p : Program} (h : p.isNested = true) : p.Nested := by
  simp only [isNested, Bool.and_eq_true, List.all_eq_true] at h
  obtain ⟨⟨⟨⟨hconsistent, hdescends⟩, hcovered⟩, hwrap⟩, hcode⟩ := h
  refine ⟨ScopeTable.consistent_of_isConsistent hconsistent,
    ScopeTable.descends_of_descends hdescends, covered_of_isCovered hcovered, fun o ho =>
    ScopeTable.reaches_of_reaches (hcode o ho).1, fun o ho f hf => ?_, fun o ho c hc =>
    ?_, fun o ho s hs => ?_, fun w hw => ?_⟩
  · have hpart := (hcode o ho).2
    simp only [hf, Bool.and_eq_true, Option.all_eq_true] at hpart
    exact ⟨ScopeTable.reaches_of_reaches hpart.1, fun s hs => ScopeTable.resolves_eq_true.1
      (hpart.2 s hs)⟩
  · have hpart := (hcode o ho).2
    rw [hc] at hpart
    exact ScopeTable.reaches_of_reaches hpart
  · have hpart := (hcode o ho).2
    rw [hs] at hpart
    exact ScopeTable.resolves_eq_true.1 hpart
  · exact ScopeTable.resolves_eq_true.1 (Option.all_eq_true _ _ |>.1 hwrap w hw)

section

variable {p : Program}

theorem Nested.encloses (hp : p.Nested) : AllParts p.table.Encloses p.occurrences := fun o ho =>
  ⟨hp.covered.code o ho, hp.inside o ho,
    fun f hf =>
      ⟨(hp.func o ho f hf).1, fun s hs => ((hp.func o ho f hf).2 s hs).homes hp.consistent⟩,
    hp.clause o ho, fun s hs => (hp.reference o ho s hs).homes hp.consistent⟩

theorem Nested.redirected (hp : p.Nested) (r : Recording) :
    AllParts (p.stackTable r).Encloses
      ((p.redirected r).occurrences ⟨none, ScopeTable.program⟩) := by
  have hv (s : SymbolId) (hs : (p.stackVars r).Uses s) :
      (p.stackTable r).Placed ScopeTable.program s :=
    ScopeTable.placed_allocate hp.covered.scope _ hs
  rw [occurrences_redirected]
  intro o' ho'
  obtain ⟨o, ho, rfl⟩ := List.mem_map.1 ho'
  refine ScopeTable.Encloses.mapVars ?_ fun s => (p.redirect_cases r s).imp_left (hv _)
  rcases List.mem_append.1 ((perm_declareIn _ _ _).mem_iff.1 ho) with ho | ho
  · exact (hp.encloses o ho).extends (ScopeTable.extends_allocate _ _)
  · obtain ⟨s, hs, rfl⟩ := List.mem_map.1 ho
    obtain ⟨x, hx, -⟩ := hv s (StackVars.mem_symbols.1 hs)
    exact ⟨⟨fun _ h => Option.some.inj h ▸ ScopeTable.lt_of_symbol? hx, nofun⟩, .refl, nofun, nofun,
      nofun⟩

theorem Nested.enclosed (hp : p.Nested) {w : SymbolId} (hw : p.wrap? = some w) (r : Recording) :
    Enclosed ScopeTable.program (p.stackTable r) (p.emulate r).2.table
      fun i => (p.emulate r).2.code.occurrences ⟨i, ScopeTable.program⟩ := by
  obtain ⟨-, stats, hcode, htable⟩ := emulate_run hw r
  rw [hcode, htable]
  have hext : p.table.Extends (p.stackTable r) := ScopeTable.extends_allocate _ _
  have hdescends : (p.stackTable r).Descends := fun a b h =>
    hp.descends a b (ScopeTable.parent?_allocate _ _ a ▸ h)
  have W := p.walk_enclosed (p.recorder r) (fun _ => recorder_location)
    (fun s hs => ScopeTable.placed_allocate hp.covered.scope _ hs)
    (((hp.wrap w hw).homes hp.consistent).extends hext)
  exact Block.walked W _ none ScopeTable.program (hp.redirected r) ⟨p.stackTable r, stats, []⟩
    (.refl _) (hp.consistent.allocate _) hdescends

/-- Every reference after the pass is to a symbol of a scope around it, and resolves to that symbol
exactly if no scope on the way out declares the identifier. A variable of the stack is hidden by
identifiers of the program only. -/
theorem Nested.resolves_iff (hp : p.Nested) (r : Recording) :
    ∀ o ∈ (p.emulate r).2.occurrences, ∀ s, o.part = .reference s →
    ∃ x, (p.emulate r).2.table.symbol? s = some x ∧
      (p.emulate r).2.table.Reaches o.stand.scope x.scope ∧
      ((p.emulate r).2.table.Resolves o.stand.scope s ↔
        ∀ c, (p.emulate r).2.table.Passes o.stand.scope x.scope c →
          (p.emulate r).2.table.findIn c x.ident = none) ∧
      ∀ v, (p.emulate r).1.vars = some v → v.Uses s →
        ((p.emulate r).2.table.Resolves o.stand.scope s ↔
        ∀ c, (p.emulate r).2.table.Passes o.stand.scope x.scope c →
          p.table.findIn c x.ident = none) := by
  intro o ho s hs
  rcases hw : p.wrap? with _ | w
  · obtain ⟨hvars, hsame⟩ := emulate_no_wrap hw r
    rw [hsame] at ho ⊢
    rw [hvars]
    obtain ⟨home, ⟨x, hx, rfl, hfind⟩, hreach⟩ := (hp.reference o ho s hs).homes hp.consistent
    exact ⟨x, hx, hreach, hp.descends.resolves_iff_free hp.consistent hx hfind hreach, nofun⟩
  obtain ⟨hvars, -⟩ := emulate_run hw r
  have h := hp.enclosed hw r
  have hext : p.table.Extends (p.stackTable r) := ScopeTable.extends_allocate _ _
  obtain ⟨home, ⟨x, hx, rfl, hfind⟩, hreach⟩ := h.references none o ho s hs
  have hiff := h.descends.resolves_iff_free h.consistent hx hfind hreach
  refine ⟨x, hx, hreach, hiff, fun v hv hs => hiff.trans (forall₂_congr fun c hc => ?_)⟩
  obtain rfl := Option.some.inj (hvars.symm.trans hv)
  obtain ⟨x', hx', role, k, hident⟩ := ScopeTable.ident_allocate hp.covered.scope _ hs
  obtain ⟨y, hy, hscope, -⟩ := ScopeTable.placed_allocate hp.covered.scope _ hs
  obtain rfl := Option.some.inj ((h.table.symbol s x' hx').symm.trans hx)
  obtain rfl := Option.some.inj (hy.symm.trans hx')
  have hc' : c ≠ ScopeTable.program := hscope ▸ hc.2.2
  constructor
  · intro hnone
    rcases hp' : p.table.findIn c y.ident with _ | s'
    · rfl
    · rw [(hext.trans h.table).findIn _ _ _ hp'] at hnone
      cases hnone
  · intro hnone
    rcases hf : (p.emulate r).2.table.findIn c y.ident with _ | s'
    · rfl
    · rcases h.found _ _ _ hf with hbase | hgiven
      · rw [stackTable, ScopeTable.findIn_allocate _ _ hc', hnone] at hbase
        cases hbase
      · exact absurd (hident ▸ hgiven) (Locals.not_given_candidate role k)

end

end Program

open Builder in
/-- A parameter is called like the stack: `function f($es_stack) { return $es_stack; }` -/
@[irreducible] def namesake : Program :=
  ((do
    let _ ← defineWrap
    let p ← getPos
    let (_, decl) ← functionDecl "f" ["$es_stack"] fun params =>
        return [.ret p (params.head?.map (.var p))]
    Builder.push decl : StateM Builder Unit).run (.start "namesake.js")).2.program

/-- Whether a reference to the symbol stands where it resolves, or where it does not. -/
def Program.refers (p : Program) (s : SymbolId) (resolved : Bool) : Bool :=
  p.occurrences.any fun o => match o.part with
    | .reference s' => s' == s && p.table.resolves o.stand.scope s == resolved
    | _ => false

theorem Program.exists_of_refers {p : Program} {s : SymbolId} {resolved : Bool}
    (h : p.refers s resolved = true) :
    ∃ o ∈ p.occurrences, o.part = .reference s ∧
      (p.table.Resolves o.stand.scope s ↔ resolved = true) := by
  obtain ⟨o, ho, h⟩ := List.any_eq_true.1 h
  refine ⟨o, ho, ?_⟩
  split at h
  · next s' hs' =>
    simp only [Bool.and_eq_true, beq_iff_eq] at h
    rw [hs', h.1, ← ScopeTable.resolves_eq_true, h.2]
    exact ⟨rfl, .rfl⟩
  · nomatch h

theorem namesake_evaluated : namesake.isNested = true ∧
    (namesake.emulate .lines).1.vars = some (namesake.stackVars .lines) ∧
      (namesake.emulate .lines).2.refers (namesake.stackVars .lines).stack true = true ∧
        (namesake.emulate .lines).2.refers (namesake.stackVars .lines).stack false = true := by
  decide +kernel

/-- A reference to the stack that stands in a function with a parameter of that name. -/
theorem namesake_captures : namesake.Nested ∧ ∃ v, (namesake.emulate .lines).1.vars = some v ∧
    namesake.table.symbols.size ≤ v.stack.index ∧ ∃ o ∈ (namesake.emulate .lines).2.occurrences,
      o.part = .reference v.stack ∧
      ¬ (namesake.emulate .lines).2.table.Resolves o.stand.scope v.stack := by
  obtain ⟨hnested, hvars, -, hrefers⟩ := namesake_evaluated
  obtain ⟨o, ho, hpart, hiff⟩ := Program.exists_of_refers hrefers
  exact ⟨Program.nested_of_isNested hnested, _, hvars, (Program.uses_stackVars (.inl rfl)).1, o, ho,
    hpart, by simp [hiff]⟩

/-- It is the parameter that hides the stack; elsewhere the stack is found. -/
theorem Program.Nested.resolves_iff_namesake :
    namesake.Nested ∧ ∃ v, (namesake.emulate .lines).1.vars = some v ∧
    (∃ o ∈ (namesake.emulate .lines).2.occurrences, ∃ x c, o.part = .reference v.stack ∧
      (namesake.emulate .lines).2.table.symbol? v.stack = some x ∧
      (namesake.emulate .lines).2.table.Passes o.stand.scope x.scope c ∧
        namesake.table.findIn c x.ident ≠ none) ∧
    ∃ o ∈ (namesake.emulate .lines).2.occurrences, ∃ x, o.part = .reference v.stack ∧
      (namesake.emulate .lines).2.table.symbol? v.stack = some x ∧
      ∀ c, (namesake.emulate .lines).2.table.Passes o.stand.scope x.scope c →
        namesake.table.findIn c x.ident = none := by
  obtain ⟨hnested, hvars, hfound, hhidden⟩ := namesake_evaluated
  have hp := Program.nested_of_isNested hnested
  refine ⟨hp, _, hvars, ?_, ?_⟩
  · obtain ⟨o, ho, hpart, hiff⟩ := Program.exists_of_refers hhidden
    obtain ⟨x, hx, -, -, hstack⟩ := hp.resolves_iff .lines o ho _ hpart
    have hnot := mt (hstack _ hvars (.inl rfl)).2 (by simp [hiff])
    obtain ⟨c, hc⟩ := not_forall.1 hnot
    obtain ⟨hc, hne⟩ := Classical.not_imp.1 hc
    exact ⟨o, ho, x, c, hpart, hx, hc, hne⟩
  · obtain ⟨o, ho, hpart, hiff⟩ := Program.exists_of_refers hfound
    obtain ⟨x, hx, -, -, hstack⟩ := hp.resolves_iff .lines o ho _ hpart
    exact ⟨o, ho, x, hpart, hx, (hstack _ hvars (.inl rfl)).1 (hiff.2 rfl)⟩

end FrameLedger
